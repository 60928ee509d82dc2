import LittleFs.Lib.ListCursor
import LittleFs.DirGet
import LittleFs.OpenFiles

/-! Reading a directory: `lfs_dir_getinfo` looks an entry up by its id, and `lfs_dir_rawread` takes
the ids one after another through the pairs of the directory. What a lookup shows of a pair is its
list of slots, without the one that a pending move hides. -/

namespace LittleFs

open KeyedLog (Op)

/-! ## The lookups -/

/-- What `lfs_dir_getinfo` fills in of `lfs_info`. -/
structure Info where
  type : Nat := 0
  size : Nat := 0
  name : List UInt8 := []
  deriving DecidableEq, Repr

/-- The terminated string in a buffer. -/
def cString (buffer : List UInt8) : List UInt8 := buffer.takeWhile (· != 0)

/-- `lfs_dir_get` of a pair that may be null: a read behind the last block fails. -/
def dirGetIn (blockCount : Nat) (gdisk : GState) (dir : MetadataDir) (gmask gtag : Tag) :
    Except Int (Tag × List UInt8) :=
  if dir.pair.1 ≥ blockCount ∧ dir.log ≠ [] then .error errCorrupt else dirGet gdisk dir gmask gtag

/-- `lfs_dir_getinfo`. -/
def dirGetinfo (blockCount nameMax : Nat) (gdisk : GState) (dir : MetadataDir) (id : Nat) :
    Except Int Info :=
  -- special case for root
  if id = 0x3ff then .ok { type := typeDir, name := [47] }
  else
    match dirGetIn blockCount gdisk dir (mkTag 0x780 0x3ff 0) (mkTag typeName id (nameMax + 1)) with
    | .error err => .error err
    | .ok (tag, name) =>
      match dirGetIn blockCount gdisk dir (mkTag typeGlobals 0x3ff 0) (mkTag typeStruct id 16) with
      | .error err => .error err
      | .ok (struct, ctz) => .ok {
          type := tagType3 tag % 2 ^ 8
          size := if tagType3 struct = typeCtzstruct then fromLe ((ctz.drop 8).take 8)
            else if tagType3 struct = typeInlinestruct then tagSize struct else 0
          name := cString name }

/-- The loop of `lfs_dir_rawread`; `none` when the fuel runs out. -/
def dirReadLoop (dev : Device) (blockCount nameMax : Nat) (gdisk : GState) :
    (fuel : Nat) → Handle → Option (Handle × Int × Info)
  | 0, _ => none
  | fuel + 1, h =>
    let next : Except Int Handle :=
      if h.id = h.metadata.count then
        -- has splited next block
        if h.metadata.split = false then .error errNoent
        else match dirFetch dev blockCount gdisk h.metadata.tail with
          | none => .error errCorrupt
          | some metadata => .ok { h with metadata, id := 0 }
      else .ok h
    match next with
    | .error err => some (h, err, {})
    | .ok h =>
      match dirGetinfo blockCount nameMax gdisk h.metadata h.id with
      | .ok info => some ({ h with id := (h.id + 1) % 2 ^ 16, pos := h.pos + 1#64 }, errOk, info)
      | .error err =>
        if err ≠ errNoent then some (h, err, {})
        else dirReadLoop dev blockCount nameMax gdisk fuel { h with id := (h.id + 1) % 2 ^ 16 }

/-- `lfs_dir_rawread`: the handle behind it, what it returns and the entry. -/
def dirRawread (dev : Device) (blockCount nameMax : Nat) (gdisk : GState) (fuel : Nat)
    (h : Handle) : Option (Handle × Int × Info) :=
  -- special offset for '.' and '..'
  if h.pos = 0#64 then
    some ({ h with pos := h.pos + 1#64 }, errOk, { type := typeDir, name := [46] })
  else if h.pos = 1#64 then
    some ({ h with pos := h.pos + 1#64 }, errOk, { type := typeDir, name := [46, 46] })
  else dirReadLoop dev blockCount nameMax gdisk fuel h

/-! ## Slots -/

/-- The name tag and the struct tag of an entry. -/
abbrev Slot := Option LogEntry × Option LogEntry

def slotAt (log : List LogEntry) (i : Nat) : Slot :=
  (lastValues 0x780 log i typeName, lastValues 0x700 log i typeStruct)

def slots (dir : MetadataDir) : List Slot := (List.range dir.count).map (slotAt dir.log)

/-- The id in the log that a lookup of id `i` comes to. -/
def viewId (gdisk : GState) (pair : BlockPair) (i : Nat) : Nat :=
  if gstateHasmovehere gdisk pair = true ∧ tagId gdisk.tag ≤ i then i + 1 else i

/-- A list of what is under the ids of a pair, without what the pending move hides. -/
def seen (gdisk : GState) (pair : BlockPair) (l : List α) : List α :=
  if gstateHasmovehere gdisk pair = true then l.eraseIdx (tagId gdisk.tag) else l

/-- The name as a read of an entry returns it. -/
def nameOf (nameMax : Nat) (e : LogEntry) : List UInt8 :=
  cString (readPadded e.data (tagSize e.tag) (nameMax + 1))

def infoOf (nameMax : Nat) (name struct : LogEntry) : Info where
  type := tagTy name.tag % 2 ^ 8
  size := if tagTy struct.tag = typeCtzstruct then
      fromLe (((readPadded struct.data (tagSize struct.tag) 16).drop 8).take 8)
    else if tagTy struct.tag = typeInlinestruct then tagSize struct.tag else 0
  name := nameOf nameMax name

/-- What a read of a slot returns. -/
def slotInfo (nameMax : Nat) : Option Slot → Except Int Info
  | some (some name, some struct) => .ok (infoOf nameMax name struct)
  | _ => .error errNoent

@[simp] theorem length_slots (dir : MetadataDir) : (slots dir).length = dir.count := by
  rw [slots, List.length_map, List.length_range]

theorem getElem?_slots (h : i < dir.count) : (slots dir)[i]? = some (slotAt dir.log i) := by
  rw [slots, List.getElem?_map, List.getElem?_range h]
  rfl

theorem getElem?_seen (gdisk : GState) (pair : BlockPair) (l : List α) (i : Nat) :
    (seen gdisk pair l)[i]? = l[viewId gdisk pair i]? := by
  rw [seen, viewId]
  by_cases hmove : gstateHasmovehere gdisk pair = true
  · rw [if_pos hmove, List.getElem?_eraseIdx]
    by_cases hid : tagId gdisk.tag ≤ i
    · rw [if_neg (by omega), if_pos ⟨hmove, hid⟩]
    · rw [if_pos (by omega), if_neg fun h => hid h.2]
  · rw [if_neg hmove, if_neg fun h => hmove h.1]

/-! ## A lookup shows the slot -/

/-- There is nothing behind the last entry. -/
theorem lastValues_eq_none (h : EntryLog log count) (hj : count ≤ j) (mask k : Nat) :
    lastValues mask log j k = none := by
  induction log using List.reverseRecOn generalizing count j with
  | nil => rfl
  | append_singleton log e ih =>
    obtain ⟨count, hlog, _, hkind, _⟩ := h.of_append
    rw [lastValues_append_singleton]
    by_cases hsplice : tagTy e.tag / 2 ^ 8 = 4
    · rw [Op.apply_of_not_writes (LogEntry.op_splice mask hsplice j k), Option.bind_eq_none_iff]
      intro i hi
      refine ih hlog ?_
      rcases hkind.splice hsplice with ⟨hc, hid, rfl⟩ | ⟨hd, hid, rfl⟩
      · rw [LogEntry.op_create mask hc, Op.origin] at hi
        grind
      · rw [LogEntry.op_delete mask hd, Op.origin] at hi
        grind
    · have hle := hkind.le_of_not_splice hsplice
      rw [LogEntry.op_apply mask hsplice, if_neg, ih hlog (by omega)]
      rintro ⟨hty, hid, -⟩
      have := hkind.id_lt hty
      omega

theorem dirGet_view {dir : MetadataDir} (hmask : typeSplice ≤ mask) (hmask' : mask < 2 ^ 11)
    (hty : ty < typeSplice) (hgsize : gsize < 2 ^ 10) (hlog : EntryLog dir.log dir.count)
    (hi : i < dir.count) :
    dirGet gdisk dir (mkTag mask 0x3ff 0) (mkTag ty i gsize) =
      lookupResult i gsize
        (lastValues mask dir.log (viewId gdisk dir.pair i) (mask &&& ty)) := by
  have hcount := logCount_lt hlog.count_eq
  have hty' : ty < 2 ^ 11 := by
    simp only [typeSplice] at hty
    omega
  obtain ⟨_, hid, hsize⟩ := mkTag_fields hty' (show i < 2 ^ 10 by omega) hgsize
  have hmaskId := tagId_mask_ne_zero hmask'
  rw [dirGet, hsize, hid, viewId]
  by_cases hmove : gstateHasmovehere gdisk dir.pair = true ∧ tagId gdisk.tag ≤ i
  · rw [if_pos ⟨hmove.1, hmaskId, hmove.2⟩, if_pos hmove]
    refine dirGetLoop_replay hmask hmask' hty (by omega) hgsize hlog (.inl hi) ?_
    have hshift : (0#32 - mkTag 0 1 0 : Tag) = idShift (-1) := by decide
    rw [hshift, mkTag_sub_idShift (by omega) (by omega) hgsize (by omega) (by omega)]
    congr 1
  · rw [if_neg fun h => hmove ⟨h.1, h.2.2⟩, if_neg hmove]
    exact dirGetLoop_replay hmask hmask' hty (by omega) hgsize hlog (.inl hi.le)
      (BitVec.sub_zero _)

theorem tagType3_mkTag {type id size : Nat} (ht : type < 2 ^ 11) (hi : id < 2 ^ 10)
    (hs : size < 2 ^ 10) : tagType3 (mkTag type id size) = type := by
  rw [tagType3_eq, mkTag_toNat (by omega) hi hs]
  omega

/-- **A read of an id** shows the slot that is seen under it. -/
theorem dirGetinfo_seen {dir : MetadataDir} (hname : nameMax + 1 < 2 ^ 10)
    (hlog : EntryLog dir.log dir.count) (hpair : dir.pair.1 < blockCount) (hi : i < dir.count) :
    dirGetinfo blockCount nameMax gdisk dir i =
      slotInfo nameMax (seen gdisk dir.pair (slots dir))[i]? := by
  have hcount := logCount_lt hlog.count_eq
  have hin : ∀ gmask gtag, dirGetIn blockCount gdisk dir gmask gtag =
      dirGet gdisk dir gmask gtag := fun _ _ => if_neg fun h => by omega
  have hkey : 0x780 &&& typeName = typeName ∧ 0x700 &&& typeStruct = typeStruct := by decide
  have hslot : (seen gdisk dir.pair (slots dir))[i]? = none ∨
      (seen gdisk dir.pair (slots dir))[i]? = some (slotAt dir.log (viewId gdisk dir.pair i)) := by
    rw [getElem?_seen]
    by_cases h : viewId gdisk dir.pair i < dir.count
    · exact .inr (getElem?_slots h)
    · exact .inl (List.getElem?_eq_none (by rw [length_slots]; omega))
  have hnone : (seen gdisk dir.pair (slots dir))[i]? = none →
      slotAt dir.log (viewId gdisk dir.pair i) = (none, none) := fun h => by
    rw [getElem?_seen, List.getElem?_eq_none_iff, length_slots] at h
    rw [slotAt, lastValues_eq_none hlog h, lastValues_eq_none hlog h]
  have hinfo : slotInfo nameMax (seen gdisk dir.pair (slots dir))[i]? =
      slotInfo nameMax (some (slotAt dir.log (viewId gdisk dir.pair i))) := by
    rcases hslot with h | h
    · rw [hnone h, h]
      rfl
    · rw [h]
  rw [hinfo, dirGetinfo, if_neg (by omega), hin, hin, typeGlobals,
    dirGet_view (by decide) (by decide) (by decide) hname hlog hi,
    dirGet_view (by decide) (by decide) (by decide) (by decide) hlog hi, hkey.1, hkey.2,
    slotAt]
  cases lastValues 0x780 dir.log (viewId gdisk dir.pair i) typeName with
  | none => rfl
  | some name =>
    cases lastValues 0x700 dir.log (viewId gdisk dir.pair i) typeStruct with
    | none => rfl
    | some struct =>
      simp only [lookupResult, slotInfo, infoOf, nameOf,
        tagType3_mkTag (tagTy_lt _) (show i < 2 ^ 10 by omega) (tagSize_lt _),
        (mkTag_fields (tagTy_lt struct.tag) (show i < 2 ^ 10 by omega) (tagSize_lt _)).2.2]

/-! ## Appending to a pair -/

/-- The directory that a fetch makes of the tags of a pair. -/
def fetchedDir (pair : BlockPair) (log : List LogEntry) : MetadataDir :=
  let s := log.foldl (FetchScan.step (-1#32) (-1#32) fun _ _ => .lt) {}
  ⟨pair, log, s.count, s.split, s.tail⟩

/-- The directory behind a commit that appends the attributes, and with them a checksum and what
else holds no entry. -/
def appendAttrs (dir : MetadataDir) (attrs : List Attr) (extra : List LogEntry) :
    Option MetadataDir :=
  (attrs.foldlM commitAttr (dir, false)).map fun p =>
    { p.1 with log := dir.log ++ dirTraverse [] attrs 0#32 0#32 0 0 0 ++ extra }

/-- The device with the log of the directory in its pair. -/
def setPair (dev : Device) (dir : MetadataDir) : Device := fun pair =>
  if pairSync pair dir.pair = true then some (dir.pair, dir.log) else dev pair

/-- The attributes of a file that is created under `id`. -/
def createAttrs (id : Nat) (name : List UInt8) : List Attr :=
  [⟨mkTag typeCreate id 0, .null⟩, ⟨mkTag typeReg id name.length, .data name⟩,
    ⟨mkTag typeInlinestruct id 0, .null⟩]

def deleteAttrs (id : Nat) : List Attr := [⟨mkTag typeDelete id 0, .null⟩]

/-- A tag that is neither about an entry nor about the tail: a checksum or a global state. -/
def LogEntry.Neutral (e : LogEntry) : Prop :=
  tagIsValid e.tag = true ∧ (tagTy e.tag / 2 ^ 8 = 5 ∨ tagTy e.tag / 2 ^ 8 = 7)

theorem dirFetch_eq (dev : Device) (blockCount : Nat) (gdisk : GState) (pair : BlockPair) :
    dirFetch dev blockCount gdisk pair =
      if pair.1 ≥ blockCount ∨ pair.2 ≥ blockCount then none
      else (dev pair).map fun p => fetchedDir p.1 p.2 := by
  rw [dirFetch, dirFetchmatch]
  split
  · rfl
  · cases dev pair with
    | none => rfl
    | some p =>
      simp only [Option.map_some]
      split
      · rfl
      · split <;> rfl

theorem FetchScan.step_tail (fmask ftag : Tag) (cb : Tag → List UInt8 → Cmp) (s : FetchScan)
    (h : tagType1 e.tag ≠ typeTail) :
    (s.step fmask ftag cb e).split = s.split ∧ (s.step fmask ftag cb e).tail = s.tail := by
  have hmodify : (s.modify e).split = s.split ∧ (s.modify e).tail = s.tail := by
    rw [modify]
    split
    · exact ⟨rfl, rfl⟩
    · split <;> exact ⟨rfl, rfl⟩
  rw [step]
  split
  · exact ⟨rfl, rfl⟩
  · simp only
    split <;> exact hmodify

/-- A fetch behind an append without a tail. -/
theorem fetchedDir_append (hlog : logCount (log ++ tags) = some count)
    (htags : ∀ e ∈ tags, tagType1 e.tag ≠ typeTail) (pair : BlockPair) :
    fetchedDir pair (log ++ tags) =
      { fetchedDir pair log with log := log ++ tags, count } := by
  have hcount := scan_count (-1#32) (-1#32) (fun _ _ => .lt) hlog
  have htail : ∀ s : FetchScan,
      (tags.foldl (FetchScan.step (-1#32) (-1#32) fun _ _ => .lt) s).split = s.split ∧
      (tags.foldl (FetchScan.step (-1#32) (-1#32) fun _ _ => .lt) s).tail = s.tail := by
    clear hlog hcount
    induction tags with
    | nil => exact fun _ => ⟨rfl, rfl⟩
    | cons e tags ih =>
      intro s
      obtain ⟨hsplit, htail⟩ := ih (fun e he => htags e (.tail _ he)) (s.step _ _ _ e)
      obtain ⟨hsplit', htail'⟩ := FetchScan.step_tail (-1#32) (-1#32) (fun _ _ => .lt) s
        (htags e (.head _))
      exact ⟨hsplit.trans hsplit', htail.trans htail'⟩
  rw [List.foldl_append] at hcount
  simp only [fetchedDir, List.foldl_append, htail, hcount]

theorem EntryLog.snoc (H : EntryLog log count) (hvalid : tagIsValid e.tag = true)
    (hcount : tagCount e.tag count = some count')
    (hcreate : tagTy e.tag = typeCreate → tagSize e.tag = 0)
    (hname : tagTy e.tag < typeFrom → tagId e.tag < count) : EntryLog (log ++ [e]) count' := by
  refine ⟨(logCount_append_singleton log e _).mpr ⟨count, H.count_eq, hvalid, hcount⟩, ?_, ?_⟩
  · intro e' he'
    rcases List.mem_append.mp he' with he' | he'
    · exact H.creates e' he'
    · obtain rfl := List.mem_singleton.mp he'
      exact hcreate
  · intro n hn hty hdel
    rw [List.length_append, List.length_singleton] at hn
    rcases Nat.lt_succ_iff_lt_or_eq.mp hn with hlt | rfl
    · rw [List.getElem_append_left hlt] at hty ⊢
      rw [List.take_append_of_le_length hlt.le] at hdel ⊢
      exact H.names n hlt hty hdel
    · rw [List.getElem_concat_length rfl] at hty ⊢
      rw [List.take_left' rfl, H.count_eq]
      rintro _ ⟨⟩
      exact hname hty

theorem LogEntry.Neutral.log {e : LogEntry} (h : e.Neutral) {log : List LogEntry}
    (H : EntryLog log count) : EntryLog (log ++ [e]) count := by
  obtain ⟨hvalid, hty⟩ := h
  refine H.snoc hvalid ?_ (fun hc => ?_) (fun hn => ?_)
  · rw [tagCount, if_neg (by simp only [typeCreate]; omega),
      if_neg (by simp only [typeDelete]; omega), if_neg (by simp only [typeFrom]; omega),
      if_neg (by simp only [typeStruct, typeSplice]; omega), if_pos (by simp only [typeCrc]; omega)]
  · simp only [hc, typeCreate] at hty
    omega
  · simp only [typeFrom] at hn
    omega

theorem EntryLog.neutral (H : EntryLog log count) (h : ∀ e ∈ extra, LogEntry.Neutral e) :
    EntryLog (log ++ extra) count := by
  induction extra using List.reverseRecOn with
  | nil => rwa [List.append_nil]
  | append_singleton extra e ih =>
    rw [← List.append_assoc]
    exact (h e (by simp)).log (ih fun e he => h e (List.mem_append_left _ he))

theorem lastValues_neutral (mask : Nat) (log : List LogEntry)
    (h : ∀ e ∈ extra, LogEntry.Neutral e) :
    lastValues mask (log ++ extra) = lastValues mask log := by
  induction extra using List.reverseRecOn with
  | nil => rw [List.append_nil]
  | append_singleton extra e ih =>
    obtain ⟨_, hty⟩ := h e (by simp)
    rw [← List.append_assoc, lastValues_append_singleton,
      ih fun e he => h e (List.mem_append_left _ he)]
    funext j k
    rw [LogEntry.op_apply mask (by omega), if_neg fun h => by
      simp only [typeSplice] at h
      omega]

/-! ## Creating and deleting an entry -/

variable {id : Nat} {name : List UInt8}

theorem mkTag_valid {type id size : Nat} (ht : type < 2 ^ 11) (hi : id < 2 ^ 10)
    (hs : size < 2 ^ 10) : tagIsValid (mkTag type id size) = true := by
  rw [tagIsValid_iff, mkTag_toNat (by omega) hi hs]
  omega

/-- An attribute with a plain tag is written as it is. -/
theorem traverseTag_mkTag {type id size : Nat} (ht : type < 2 ^ 11) (hi : id < 2 ^ 10)
    (hs : size < 2 ^ 10) (htype : type ≠ fromNoop ∧ type ≠ fromMove ∧ type ≠ fromUserattrs)
    (buffer : Buffer) :
    traverseTag 1 0 (mkTag type id size) buffer = [⟨mkTag type id size, buffer.bytes⟩] := by
  have htype3 := tagType3_mkTag ht hi hs
  refine traverseTag_direct (a := ⟨mkTag type id size, buffer⟩) ?_ ?_
  · rw [htype3]
    exact htype.1
  · rw [IsFrom, htype3]
    exact not_or.mpr htype.2

theorem traverse_createAttrs (hi : id < 2 ^ 10) (hname : name.length < 2 ^ 10) :
    dirTraverse [] (createAttrs id name) 0#32 0#32 0 0 0 =
      [⟨mkTag typeCreate id 0, []⟩, ⟨mkTag typeReg id name.length, name⟩,
        ⟨mkTag typeInlinestruct id 0, []⟩] := by
  simp only [dirTraverse_nil, createAttrs, List.flatMap_cons, List.flatMap_nil]
  rw [traverseTag_mkTag (by decide) hi (by decide) (by decide),
    traverseTag_mkTag (by decide) hi hname (by decide),
    traverseTag_mkTag (by decide) hi (by decide) (by decide)]
  rfl

theorem traverse_deleteAttrs (hi : id < 2 ^ 10) :
    dirTraverse [] (deleteAttrs id) 0#32 0#32 0 0 0 = [⟨mkTag typeDelete id 0, []⟩] := by
  simp only [dirTraverse_nil, deleteAttrs, List.flatMap_cons, List.flatMap_nil]
  rw [traverseTag_mkTag (by decide) hi (by decide) (by decide)]
  rfl

/-- A directory as its log says, with a struct for each named entry. -/
structure WholeDir (dir : MetadataDir) : Prop where
  fetched : fetchedDir dir.pair dir.log = dir
  log : EntryLog dir.log dir.count
  structs : ∀ slot ∈ slots dir, slot.1.isSome → slot.2.isSome

/-- What a commit without a tail leaves of a directory. -/
structure Continues (dir dir' : MetadataDir) : Prop where
  whole : WholeDir dir'
  pair : dir'.pair = dir.pair
  split : dir'.split = dir.split
  tail : dir'.tail = dir.tail

def createdSlot (id : Nat) (name : List UInt8) : Slot :=
  (some ⟨mkTag typeReg id name.length, name⟩, some ⟨mkTag typeInlinestruct id 0, []⟩)

theorem EntryLog.created (H : EntryLog log count) (hi : id ≤ count) (hcount : count + 1 < 0x3ff)
    (hname : name.length < 2 ^ 10) :
    EntryLog (log ++ [⟨mkTag typeCreate id 0, []⟩, ⟨mkTag typeReg id name.length, name⟩,
      ⟨mkTag typeInlinestruct id 0, []⟩]) (count + 1) := by
  have hid : id < 2 ^ 10 := by omega
  obtain ⟨hty1, hid1, hsize1⟩ := mkTag_fields (show typeCreate < 2 ^ 11 by decide) hid
    (show 0 < 2 ^ 10 by decide)
  obtain ⟨hty2, hid2, _⟩ := mkTag_fields (show typeReg < 2 ^ 11 by decide) hid hname
  obtain ⟨hty3, hid3, _⟩ := mkTag_fields (show typeInlinestruct < 2 ^ 11 by decide) hid
    (show 0 < 2 ^ 10 by decide)
  have h1 : EntryLog (log ++ [⟨mkTag typeCreate id 0, []⟩]) (count + 1) := by
    refine H.snoc (mkTag_valid (by decide) hid (by decide)) ?_ (fun _ => hsize1) fun h => ?_
    · rw [tagCount, if_pos hty1, hid1, if_pos ⟨hi, hcount⟩]
    · rw [hty1] at h
      exact absurd h (by decide)
  have h2 : EntryLog (log ++ [⟨mkTag typeCreate id 0, []⟩] ++
      [⟨mkTag typeReg id name.length, name⟩]) (count + 1) := by
    refine h1.snoc (mkTag_valid (by decide) hid hname) ?_ (fun h => ?_) fun _ => ?_
    · rw [tagCount, hty2, hid2, if_neg (by decide), if_neg (by decide), if_pos (by decide),
        if_pos (by omega), max_eq_left (by omega)]
    · rw [hty2] at h
      cases h
    · rw [hid2]
      omega
  have h3 : EntryLog (log ++ [⟨mkTag typeCreate id 0, []⟩] ++
      [⟨mkTag typeReg id name.length, name⟩] ++ [⟨mkTag typeInlinestruct id 0, []⟩])
      (count + 1) := by
    refine h2.snoc (mkTag_valid (by decide) hid (by decide)) ?_ (fun h => ?_) fun h => ?_
    · rw [tagCount, hty3, hid3, if_neg (by decide), if_neg (by decide), if_neg (by decide),
        if_pos (by decide), if_pos (by omega)]
    · rw [hty3] at h
      cases h
    · rw [hty3] at h
      exact absurd h (by decide)
  simpa only [List.append_assoc, List.cons_append, List.nil_append] using h3

theorem EntryLog.deleted (H : EntryLog log count) (hi : id < count) :
    EntryLog (log ++ [⟨mkTag typeDelete id 0, []⟩]) (count - 1) := by
  have hcount := logCount_lt H.count_eq
  have hid : id < 2 ^ 10 := by omega
  obtain ⟨hty, hid', _⟩ := mkTag_fields (show typeDelete < 2 ^ 11 by decide) hid
    (show 0 < 2 ^ 10 by decide)
  refine H.snoc (mkTag_valid (by decide) hid (by decide)) ?_ (fun h => ?_) fun h => ?_
  · rw [tagCount, hty, hid', if_neg (by decide), if_pos rfl, if_pos hi]
  · rw [hty] at h
    cases h
  · rw [hty] at h
    exact absurd h (by decide)

theorem slotAt_created (hi : id < 2 ^ 10) (hname : name.length < 0x3ff) (log : List LogEntry)
    (j : Nat) :
    slotAt (log ++ [⟨mkTag typeCreate id 0, []⟩, ⟨mkTag typeReg id name.length, name⟩,
        ⟨mkTag typeInlinestruct id 0, []⟩]) j =
      if j < id then slotAt log j else if j = id then createdSlot id name
      else slotAt log (j - 1) := by
  obtain ⟨hty1, hid1, _⟩ := mkTag_fields (show typeCreate < 2 ^ 11 by decide) hi
    (show 0 < 2 ^ 10 by decide)
  obtain ⟨hty2, hid2, hsize2⟩ := mkTag_fields (show typeReg < 2 ^ 11 by decide) hi
    (show name.length < 2 ^ 10 by omega)
  obtain ⟨hty3, hid3, hsize3⟩ := mkTag_fields (show typeInlinestruct < 2 ^ 11 by decide) hi
    (show 0 < 2 ^ 10 by decide)
  have hvalues : ∀ mask k, lastValues mask (log ++ [⟨mkTag typeCreate id 0, []⟩,
        ⟨mkTag typeReg id name.length, name⟩, ⟨mkTag typeInlinestruct id 0, []⟩]) j k =
      if j = id ∧ k = mask &&& typeInlinestruct then some ⟨mkTag typeInlinestruct id 0, []⟩
      else if j = id ∧ k = mask &&& typeReg then some ⟨mkTag typeReg id name.length, name⟩
      else if j < id then lastValues mask log j k else if j = id then none
      else lastValues mask log (j - 1) k := fun mask k => by
    have happend : log ++ [⟨mkTag typeCreate id 0, []⟩, ⟨mkTag typeReg id name.length, name⟩,
        ⟨mkTag typeInlinestruct id 0, []⟩] = log ++ [⟨mkTag typeCreate id 0, []⟩] ++
        [⟨mkTag typeReg id name.length, name⟩] ++ [⟨mkTag typeInlinestruct id 0, []⟩] := by
      simp only [List.append_assoc, List.cons_append, List.nil_append]
    rw [happend, lastValues_append_singleton, LogEntry.op_apply mask (by rw [hty3]; decide),
      lastValues_append_singleton, LogEntry.op_apply mask (by rw [hty2]; decide),
      lastValues_append_singleton, LogEntry.op_create mask hty1]
    simp only [hty2, hty3, hid1, hid2, hid3, hsize2, hsize3, Op.apply,
      show typeInlinestruct < typeSplice by decide, show typeReg < typeSplice by decide, true_and,
      if_neg (show ¬ 0 = 0x3ff by decide), if_neg (show ¬ name.length = 0x3ff by omega)]
  rw [slotAt, hvalues, hvalues]
  rcases Nat.lt_trichotomy j id with h | h | h
  · simp only [if_pos h, false_and, h.ne, ↓reduceIte]
    rfl
  · subst h
    simp only [lt_irrefl, ↓reduceIte, true_and]
    rfl
  · simp only [h.ne', if_neg h.not_gt, ↓reduceIte, false_and]
    rfl

theorem slotAt_deleted (hi : id < 2 ^ 10) (log : List LogEntry) (j : Nat) :
    slotAt (log ++ [⟨mkTag typeDelete id 0, []⟩]) j =
      if j < id then slotAt log j else slotAt log (j + 1) := by
  obtain ⟨hty, hid, _⟩ := mkTag_fields (show typeDelete < 2 ^ 11 by decide) hi
    (show 0 < 2 ^ 10 by decide)
  have hop : ∀ mask, LogEntry.op mask ⟨mkTag typeDelete id 0, []⟩ = .delete id := fun mask => by
    rw [LogEntry.op_delete mask hty, hid]
  simp only [slotAt, lastValues_append_singleton, hop, Op.apply]
  split <;> rfl

theorem slotAt_neutral (h : ∀ e ∈ extra, LogEntry.Neutral e) (log : List LogEntry) (j : Nat) :
    slotAt (log ++ extra) j = slotAt log j := by
  simp only [slotAt, lastValues_neutral _ log h]

theorem LogEntry.Neutral.not_tail {e : LogEntry} (h : e.Neutral) : tagType1 e.tag ≠ typeTail := by
  obtain ⟨hvalid, hty⟩ := h
  rw [tagType1_of_valid hvalid, typeTail]
  omega

theorem mkTag_not_tail {type id size : Nat} (ht : type < 2 ^ 11) (hi : id < 2 ^ 10)
    (hs : size < 2 ^ 10) (htype : type / 2 ^ 8 ≠ 6) : tagType1 (mkTag type id size) ≠ typeTail := by
  rw [tagType1_of_valid (mkTag_valid ht hi hs), (mkTag_fields ht hi hs).1, typeTail]
  omega

/-- The directory behind an append without a tail. -/
theorem WholeDir.continues (H : WholeDir dir) (tags : List LogEntry)
    (hlog : EntryLog (dir.log ++ tags) count)
    (htags : ∀ e ∈ tags, tagType1 e.tag ≠ typeTail)
    (hstructs : ∀ slot ∈ slots { dir with log := dir.log ++ tags, count },
      slot.1.isSome → slot.2.isSome) :
    Continues dir { dir with log := dir.log ++ tags, count } := by
  refine ⟨⟨?_, hlog, hstructs⟩, rfl, rfl, rfl⟩
  rw [fetchedDir_append hlog.count_eq htags, H.fetched]

/-- **A file is created** by an append. -/
theorem WholeDir.create (H : WholeDir dir) (hi : id ≤ dir.count) (hcount : dir.count + 1 < 0x3ff)
    (hname : name.length < 0x3ff) (hextra : ∀ e ∈ extra, LogEntry.Neutral e) :
    ∃ dir', appendAttrs dir (createAttrs id name) extra = some dir' ∧ Continues dir dir' ∧
      dir'.count = dir.count + 1 ∧ slots dir' = (slots dir).insertIdx id (createdSlot id name) := by
  have hid : id < 2 ^ 10 := by omega
  have hslots : slots { dir with
      log := dir.log ++ ([⟨mkTag typeCreate id 0, []⟩, ⟨mkTag typeReg id name.length, name⟩,
        ⟨mkTag typeInlinestruct id 0, []⟩] ++ extra), count := dir.count + 1 } =
      (slots dir).insertIdx id (createdSlot id name) := by
    refine ListCursor.map_range_insertIdx _ _ _ hi fun j => ?_
    rw [← List.append_assoc, slotAt_neutral hextra, slotAt_created hid hname]
  refine ⟨_, ?_, H.continues ([⟨mkTag typeCreate id 0, []⟩,
    ⟨mkTag typeReg id name.length, name⟩, ⟨mkTag typeInlinestruct id 0, []⟩] ++ extra)
    ?_ (fun e he => ?_) fun slot hslot => ?_, rfl, hslots⟩
  · have htype := fun size (hs : size < 2 ^ 10) => tagType3_mkTag (show typeReg < 2 ^ 11 by decide)
      hid hs
    have hattrs : (createAttrs id name).foldlM commitAttr (dir, false) =
        some ({ dir with count := dir.count + 1 }, false) := by
      have hname' : name.length < 2 ^ 10 := by omega
      have hreg := mkTag_not_tail (show typeReg < 2 ^ 11 by decide) hid hname' (by decide)
      have hinline := mkTag_not_tail (show typeInlinestruct < 2 ^ 11 by decide) hid
        (show 0 < 2 ^ 10 by decide) (by decide)
      simp only [createAttrs, List.foldlM_cons, List.foldlM_nil, commitAttr, Option.bind_eq_bind,
        tagType3_mkTag (show typeCreate < 2 ^ 11 by decide) hid (show 0 < 2 ^ 10 by decide),
        tagType3_mkTag (show typeReg < 2 ^ 11 by decide) hid hname',
        tagType3_mkTag (show typeInlinestruct < 2 ^ 11 by decide) hid (show 0 < 2 ^ 10 by decide),
        if_neg (show typeReg ≠ typeCreate by decide), if_neg (show typeReg ≠ typeDelete by decide),
        if_neg (show typeInlinestruct ≠ typeCreate by decide),
        if_neg (show typeInlinestruct ≠ typeDelete by decide), if_neg hreg, if_neg hinline,
        ↓reduceIte, Option.bind_some, Option.pure_def]
    rw [appendAttrs, hattrs, traverse_createAttrs hid (by omega), List.append_assoc]
    rfl
  · rw [← List.append_assoc]
    exact (H.log.created hi hcount (by omega)).neutral hextra
  · rcases List.mem_append.mp he with he | he
    · simp only [List.mem_cons, List.not_mem_nil, or_false] at he
      rcases he with rfl | rfl | rfl
      · exact mkTag_not_tail (by decide) hid (by decide) (by decide)
      · exact mkTag_not_tail (by decide) hid (by omega) (by decide)
      · exact mkTag_not_tail (by decide) hid (by decide) (by decide)
    · exact (hextra e he).not_tail
  · rw [hslots] at hslot
    rcases List.eq_or_mem_of_mem_insertIdx hslot with rfl | hslot
    · exact fun _ => rfl
    · exact H.structs slot hslot

/-- **An entry is deleted** by an append. -/
theorem WholeDir.delete (H : WholeDir dir) (hi : id < dir.count)
    (hextra : ∀ e ∈ extra, LogEntry.Neutral e) :
    ∃ dir', appendAttrs dir (deleteAttrs id) extra = some dir' ∧ Continues dir dir' ∧
      dir'.count = dir.count - 1 ∧ slots dir' = (slots dir).eraseIdx id := by
  have hcount := logCount_lt H.log.count_eq
  have hid : id < 2 ^ 10 := by omega
  have hslots : slots { dir with
      log := dir.log ++ ([⟨mkTag typeDelete id 0, []⟩] ++ extra), count := dir.count - 1 } =
      (slots dir).eraseIdx id := by
    refine ListCursor.map_range_eraseIdx _ _ hi fun j => ?_
    rw [← List.append_assoc, slotAt_neutral hextra, slotAt_deleted hid]
  refine ⟨_, ?_, H.continues ([⟨mkTag typeDelete id 0, []⟩] ++ extra) ?_ (fun e he => ?_)
    fun slot hslot => ?_, rfl, hslots⟩
  · have hattrs : (deleteAttrs id).foldlM commitAttr (dir, false) =
        some ({ dir with count := dir.count - 1 }, true) := by
      simp only [deleteAttrs, List.foldlM_cons, List.foldlM_nil, commitAttr,
        tagType3_mkTag (show typeDelete < 2 ^ 11 by decide) hid (show 0 < 2 ^ 10 by decide),
        if_neg (show typeDelete ≠ typeCreate by decide), if_pos (show dir.count > 0 by omega),
        ↓reduceIte, Option.bind_eq_bind, Option.bind_some, Option.pure_def]
    rw [appendAttrs, hattrs, traverse_deleteAttrs hid, List.append_assoc]
    rfl
  · rw [← List.append_assoc]
    exact (H.log.deleted hi).neutral hextra
  · rcases List.mem_append.mp he with he | he
    · obtain rfl := List.mem_singleton.mp he
      exact mkTag_not_tail (by decide) hid (by decide) (by decide)
    · exact (hextra e he).not_tail
  · rw [hslots] at hslot
    exact H.structs slot (List.mem_of_mem_eraseIdx hslot)

end LittleFs
