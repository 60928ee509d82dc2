import LittleFs.GlobalState
import LittleFs.TraverseScan

/-! `lfs_dir_fetchmatch` on the committed tags of a metadata pair, and the two walks over the tail
list that a relocation uses: `lfs_fs_parent`, which looks for the entry that refers to a pair, and
`lfs_fs_pred`. -/

namespace LittleFs

/-! ## Little-endian data -/

/-- `lfs_fromle64` and its siblings on bytes. -/
def fromLe : List UInt8 → Nat
  | [] => 0
  | b :: bytes => b.toNat + 256 * fromLe bytes

def toLe : (size : Nat) → Nat → List UInt8
  | 0, _ => []
  | size + 1, n => UInt8.ofNat n :: toLe size (n / 256)

/-- `lfs_pair_fromle64` of the first 16 bytes. -/
def pairFromLe64 (data : List UInt8) : BlockPair :=
  (fromLe (data.take 8), fromLe ((data.drop 8).take 8))

def pairToLe64 (pair : BlockPair) : List UInt8 := toLe 8 pair.1 ++ toLe 8 pair.2

/-! ## The scan -/

/-- What a callback of `lfs_dir_fetchmatch` answers. -/
inductive Cmp where
  | eq
  | lt
  | gt
  deriving DecidableEq, Repr

/-- The temporary state of the scan over the tags. -/
structure FetchScan where
  count : Nat := 0
  tail : BlockPair := (blockNull, blockNull)
  split : Bool := false
  besttag : Tag := -1#32
  deriving DecidableEq, Repr

/-- What a create or delete does to the best tag. -/
def spliceBesttag (tag besttag : Tag) : Tag :=
  if tag = mkTag typeDelete 0 0 ||| (mkTag 0 0x3ff 0 &&& besttag) then besttag ||| 0x80000000#32
  else if besttag ≠ -1#32 ∧ tagId tag ≤ tagId besttag then besttag + idShift (tagSplice tag)
  else besttag

/-- What the answer of the callback does to the best tag. -/
def matchBesttag (res : Cmp) (tag besttag : Tag) : Tag :=
  if res = .eq then tag
  -- found an identical tag, but contents didn't match
  else if mkTag typeMovestate 0x3ff 0 &&& tag = mkTag typeMovestate 0x3ff 0 &&& besttag then -1#32
  else if res = .gt ∧ tagId tag ≤ tagId besttag then tag ||| 0x80000000#32
  else besttag

/-- The directory modification tags. -/
def FetchScan.modify (s : FetchScan) (e : LogEntry) : FetchScan :=
  if tagType1 e.tag = typeName then
    { s with count := if tagId e.tag ≥ s.count then tagId e.tag + 1 else s.count }
  else if tagType1 e.tag = typeSplice then
    { s with
      count := ((s.count + tagSplice e.tag) % 2 ^ 16).toNat
      besttag := spliceBesttag e.tag s.besttag }
  else if tagType1 e.tag = typeTail then
    { s with
      split := tagChunk e.tag &&& 1#8 == 1#8
      tail := pairFromLe64 e.data }
  else s

/-- One round of the loop over the tags of a commit whose checksum is right. -/
def FetchScan.step (fmask ftag : Tag) (cb : Tag → List UInt8 → Cmp) (s : FetchScan)
    (e : LogEntry) : FetchScan :=
  if tagType1 e.tag = typeCrc then s
  else
    let s := s.modify e
    -- found a match for our fetcher?
    if fmask &&& e.tag = fmask &&& ftag then
      { s with besttag := matchBesttag (cb e.tag e.data) e.tag s.besttag }
    else s

/-! ## Directories -/

/-- `lfs_metadata_dir_t` after a fetch; the committed tags stand for its offset and last tag. -/
structure MetadataDir where
  pair : BlockPair
  log : List LogEntry
  count : Nat
  split : Bool
  tail : BlockPair
  deriving DecidableEq, Repr

/-- What a fetch of a pair reads: the pair with the block of the newer revision first, and the
committed tags of this block; `none` for `LFS_ERR_CORRUPT`. -/
abbrev Device := BlockPair → Option (BlockPair × List LogEntry)

inductive FetchResult where
  | tag (tag : Tag)
  | noent
  | ok
  deriving DecidableEq, Repr

/-- The synthetic move. -/
def syntheticMove (gdisk : GState) (pair : BlockPair) (besttag : Tag) : Tag :=
  if gstateHasmovehere gdisk pair then
    if tagId gdisk.tag = tagId besttag then besttag ||| 0x80000000#32
    else if besttag ≠ -1#32 ∧ tagId gdisk.tag < tagId besttag then besttag - mkTag 0 1 0
    else besttag
  else besttag

/-- `lfs_dir_fetchmatch` without device errors. -/
def dirFetchmatch (dev : Device) (blockCount : Nat) (gdisk : GState) (pair : BlockPair)
    (fmask ftag : Tag) (cb : Tag → List UInt8 → Cmp) : Option (MetadataDir × FetchResult) :=
  if pair.1 ≥ blockCount ∨ pair.2 ≥ blockCount then none
  else match dev pair with
    | none => none
    | some (pair, log) =>
      let s := log.foldl (FetchScan.step fmask ftag cb) {}
      let besttag := syntheticMove gdisk pair s.besttag
      let dir := ⟨pair, log, s.count, s.split, s.tail⟩
      if tagIsValid besttag then some (dir, .tag besttag)
      else if tagId besttag < s.count then some (dir, .noent)
      else some (dir, .ok)

/-- `lfs_dir_fetch`. -/
def dirFetch (dev : Device) (blockCount : Nat) (gdisk : GState) (pair : BlockPair) :
    Option MetadataDir :=
  (dirFetchmatch dev blockCount gdisk pair (-1#32) (-1#32) fun _ _ => .lt).map Prod.fst

/-! ## Walks over the tail list -/

/-- `lfs_fs_parent_match`. -/
def fsParentMatch (pair : BlockPair) (data : List UInt8) : Cmp :=
  if pairCmp (pairFromLe64 data) pair = false then .eq else .lt

/-- The fetch that `lfs_fs_parent` makes of one pair. -/
def fetchParent (dev : Device) (blockCount : Nat) (gdisk : GState) (tail pair : BlockPair) :
    Option (MetadataDir × FetchResult) :=
  dirFetchmatch dev blockCount gdisk tail (mkTag typeMovestate 0 0x3ff) (mkTag typeDirstruct 0 16)
    fun _ data => fsParentMatch pair data

/-- The loop of `lfs_fs_parent`, with the number of cycles that are left. -/
def fsParentLoop (dev : Device) (blockCount : Nat) (gdisk : GState) (pair : BlockPair) :
    (cycles : Nat) → (tail : BlockPair) → Except Int (MetadataDir × Tag)
  | cycles, tail =>
    if pairIsnull tail then .error errNoent
    else match cycles with
      | 0 => .error errCorrupt
      | cycles + 1 =>
        match fetchParent dev blockCount gdisk tail pair with
        | none => .error errCorrupt
        | some (parent, .tag tag) =>
          if tag ≠ 0#32 then .ok (parent, tag)
          else fsParentLoop dev blockCount gdisk pair cycles parent.tail
        | some (parent, _) => fsParentLoop dev blockCount gdisk pair cycles parent.tail

/-- `lfs_fs_parent`. -/
def fsParent (dev : Device) (blockCount : Nat) (gdisk : GState) (pair : BlockPair) :
    Except Int (MetadataDir × Tag) :=
  fsParentLoop dev blockCount gdisk pair (blockCount / 2) (0, 1)

/-- The loop of `lfs_fs_pred`, with the number of cycles that are left. -/
def fsPredLoop (dev : Device) (blockCount : Nat) (gdisk : GState) (pair : BlockPair) :
    (cycles : Nat) → (pdir : MetadataDir) → Except Int MetadataDir
  | cycles, pdir =>
    if pairIsnull pdir.tail then .error errNoent
    else match cycles with
      | 0 => .error errCorrupt
      | cycles + 1 =>
        if pairCmp pdir.tail pair = false then .ok pdir
        else match dirFetch dev blockCount gdisk pdir.tail with
          | none => .error errCorrupt
          | some pdir => fsPredLoop dev blockCount gdisk pair cycles pdir

/-- `lfs_fs_pred`. -/
def fsPred (dev : Device) (blockCount : Nat) (gdisk : GState) (pair : BlockPair) :
    Except Int MetadataDir :=
  fsPredLoop dev blockCount gdisk pair (blockCount / 2) ⟨(0, 0), [], 0, false, (0, 1)⟩

end LittleFs
