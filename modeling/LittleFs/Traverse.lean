import LittleFs.Lib.KeyedLog
import LittleFs.Tag

/-! `lfs_dir_traverse` and its filter, on the log of a metadata pair as a list of tags with their
data, followed by a list of pending attributes.

A call of the callback is recorded by the tag and the data it is given, so that the list a
traversal returns is what `lfs_dir_compact` writes with `lfs_dir_commit_commit` and what
`lfs_dir_commit_size` measures. -/

namespace LittleFs

/-! ## Logs and attribute lists -/

/-- A tag with its data: an entry of a log, or one call of the callback. -/
structure LogEntry where
  tag : Tag
  data : List UInt8 := []
  deriving DecidableEq, Repr

/-- `lfs_user_attribute_t`; its `size` is the length of the buffer. -/
structure UserAttribute where
  type : UInt8
  buffer : List UInt8
  deriving DecidableEq, Repr

/-- The tag of a user attribute in the list of an `LFS_FROM_USERATTRS`. -/
def UserAttribute.tag (a : UserAttribute) (id : Nat) : Tag :=
  mkTag (typeUserattr + a.type.toNat) id a.buffer.length

/-- What the `buffer` of an attribute points to: nothing, the data of the tag, the directory of an
`LFS_FROM_MOVE` (its log), or the list of an `LFS_FROM_USERATTRS`. -/
inductive Buffer where
  | null
  | data (bytes : List UInt8)
  | dir (log : List LogEntry)
  | userattrs (attrs : List UserAttribute)
  deriving DecidableEq, Repr

def Buffer.bytes : Buffer → List UInt8
  | .data bytes => bytes
  | _ => []

/-- `lfs_metadata_attribute_t`, and an entry that the traversal has read from disk. -/
structure Attr where
  tag : Tag
  buffer : Buffer := .null
  deriving DecidableEq, Repr

/-- A tag as the traversal reads it from disk, with bit 31 set. -/
def LogEntry.read (e : LogEntry) : Attr := ⟨e.tag ||| 0x80000000#32, .data e.data⟩

/-! ## The filter -/

/-- Which mask depends on unique bit in tag structure. -/
def filterMask (tag : Tag) : Tag :=
  if tag &&& mkTag typeFrom 0 0 ≠ 0#32 then mkTag typeMovestate 0x3ff 0
  else mkTag typeGlobals 0x3ff 0

/-- `lfs_dir_traverse_filter`: the new value of `*filtertag` and the result. -/
def dirTraverseFilter (tag filtertag : Tag) : Tag × Bool :=
  -- check for redundancy
  if filterMask tag &&& tag = filterMask tag &&& filtertag ∨ tagIsDelete filtertag = true ∨
      mkTag typeMovestate 0x3ff 0 &&& tag =
        mkTag typeDelete 0 0 ||| (mkTag 0 0x3ff 0 &&& filtertag) then
    (mkTag fromNoop 0 0, true)
  -- check if we need to adjust for created/deleted tags
  else if tagType1 tag = typeSplice ∧ tagId tag ≤ tagId filtertag then
    (filtertag + idShift (tagSplice tag), false)
  else (filtertag, false)

/-- The loop over the attributes of an `LFS_FROM_USERATTRS` with the filter as its callback. A hit
ends this loop only. -/
def filterUserattrs (id : Nat) : List UserAttribute → Tag → Tag
  | [], filtertag => filtertag
  | a :: attrs, filtertag =>
    let (filtertag, res) := dirTraverseFilter (a.tag id) filtertag
    if res then filtertag else filterUserattrs id attrs filtertag

/-- The traversal of what comes after a tag with the filter as its callback: the tag it leaves. -/
def filterScan : List Attr → Tag → Tag
  | [], filtertag => filtertag
  | a :: rest, filtertag =>
    if tagType3 a.tag = fromNoop then filterScan rest filtertag
    else if tagType3 a.tag = fromMove then filterScan rest filtertag
    else if tagType3 a.tag = fromUserattrs then
      match a.buffer with
      | .userattrs attrs =>
        filterScan rest (filterUserattrs (tagId a.tag) (attrs.take (tagSize a.tag)) filtertag)
      | _ => filterScan rest filtertag
    else
      let (filtertag, res) := dirTraverseFilter a.tag filtertag
      if res then filtertag else filterScan rest filtertag

/-! ## The traversal -/

/-- The main loop; `cb` stands for what is done with a tag that passes. -/
def traverseLoop (tmask ttag : Tag) (begin stop : Nat) (cb : Tag → Buffer → List LogEntry) :
    List Attr → List LogEntry
  | [] => []
  | a :: rest =>
    let mask := mkTag typeMovestate 0 0
    -- do we need to filter?
    if mask &&& tmask &&& a.tag ≠ mask &&& tmask &&& ttag then
      traverseLoop tmask ttag begin stop cb rest
    else
      let tag := if tagId tmask ≠ 0 then filterScan rest a.tag else a.tag
      -- in filter range?
      if tagId tmask ≠ 0 ∧ ¬ (tagId tag ≥ begin ∧ tagId tag < stop) then
        traverseLoop tmask ttag begin stop cb rest
      else cb tag a.buffer ++ traverseLoop tmask ttag begin stop cb rest

/-- The special cases for mcu-side operations, and the callback. `depth` bounds the nesting of
moves; a tag read from disk is never an `LFS_FROM_MOVE`. -/
def traverseTag : (depth : Nat) → (diff : Int) → Tag → Buffer → List LogEntry
  | depth, diff, tag, buffer =>
    if tagType3 tag = fromNoop then []
    else if tagType3 tag = fromMove then
      match depth, buffer with
      | depth + 1, .dir log =>
        let fromid := tagSize tag
        let toid := tagId tag
        traverseLoop (mkTag typeTail 0x3ff 0) (mkTag typeStruct 0 0) fromid (fromid + 1)
          (traverseTag depth (toid - fromid + diff)) (log.map LogEntry.read)
      | _, _ => []
    else if tagType3 tag = fromUserattrs then
      match buffer with
      | .userattrs attrs =>
        (attrs.take (tagSize tag)).map fun a => ⟨a.tag (tagId tag + diff).toNat, a.buffer⟩
      | _ => []
    else [⟨tag + idShift diff, buffer.bytes⟩]

/-- `lfs_dir_traverse` over the tags of `log` and then `attrs`. -/
def dirTraverse (log : List LogEntry) (attrs : List Attr) (tmask ttag : Tag) (begin stop : Nat)
    (diff : Int) : List LogEntry :=
  traverseLoop tmask ttag begin stop (traverseTag 1 diff) (log.map LogEntry.read ++ attrs)

/-- The tags of the compacted range in `lfs_dir_compact`. -/
def compactTags (log : List LogEntry) (attrs : List Attr) (begin stop : Nat) : List LogEntry :=
  dirTraverse log attrs (mkTag typeSplice 0x3ff 0) (mkTag typeName 0 0) begin stop (-begin)

/-! ## What the tags mean

The records of a log are its directory entries. A key is a class of types that overwrite each
other: all names, all structs, and each user attribute by itself. -/

def typeKey (ty : Nat) : Nat :=
  if ty / 0x100 % 2 = 1 then ty else ty / 0x100 * 0x100

/-- The value of a key: the type of the tag and its data. -/
abbrev EntryValue := Nat × List UInt8

/-- The patch of one tag; the size `0x3ff` says that there is no value. -/
def tagPatch (tag : Tag) (data : List UInt8) : KeyedLog.Patch Nat EntryValue := fun k =>
  if k = typeKey (tagTy tag) then
    some (if tagSize tag = 0x3ff then none else some (tagTy tag, data))
  else none

def tagOp (tag : Tag) (data : List UInt8) : KeyedLog.Op Nat EntryValue :=
  if tagTy tag = typeCreate then .create (tagId tag)
  else if tagTy tag = typeDelete then .delete (tagId tag)
  else if tagTy tag < typeSplice then .put (tagId tag) (tagPatch tag data)
  else .skip

/-- The directory that a log stands for. -/
def replayLog (log : List LogEntry) : KeyedLog.Records Nat EntryValue :=
  KeyedLog.replay (log.map fun e => tagOp e.tag e.data)

/-- An `LFS_FROM_MOVE` takes over everything but the name. -/
def movePatch (log : List LogEntry) (fromid : Nat) : KeyedLog.Patch Nat EntryValue := fun k =>
  if typeStruct ≤ k then (replayLog log fromid k).map some else none

/-- Of several attributes of one type the last one counts. -/
def userattrsPatch (attrs : List UserAttribute) : KeyedLog.Patch Nat EntryValue :=
  KeyedLog.value (attrs.map fun a => (0, tagPatch (a.tag 0) a.buffer)) 0

def attrPatch (tag : Tag) (buffer : Buffer) : KeyedLog.Patch Nat EntryValue :=
  if tagType3 tag = fromMove then
    match buffer with
    | .dir log => movePatch log (tagSize tag)
    | _ => fun _ => none
  else if tagType3 tag = fromUserattrs then
    match buffer with
    | .userattrs attrs => userattrsPatch (attrs.take (tagSize tag))
    | _ => fun _ => none
  else tagPatch tag buffer.bytes

def Attr.op (a : Attr) : KeyedLog.Op Nat EntryValue :=
  if tagType3 a.tag = fromNoop then .skip
  else if tagType3 a.tag = fromMove ∨ tagType3 a.tag = fromUserattrs then
    .put (tagId a.tag) (attrPatch a.tag a.buffer)
  else tagOp a.tag a.buffer.bytes

/-- The directory after a log and the attributes pending on it. -/
def replayWith (log : List LogEntry) (attrs : List Attr) : KeyedLog.Records Nat EntryValue :=
  KeyedLog.replay ((log.map LogEntry.read ++ attrs).map Attr.op)

end LittleFs
