import LittleFs.DirGet
import LittleFs.Lib.SortedEntries
import Mathlib.Data.List.Lex

/-! Lookup by name: `lfs_dir_fetchmatch` with `lfs_dir_find_match`. One pass over the log finds the
entry with a name, or the place where an entry with this name belongs. -/

namespace LittleFs

open KeyedLog (Op Records)
open SortedEntries (Sorted Splits insertAt removeAt nameAt)

/-! ## The comparison -/

/-- The sign of `memcmp` on the bytes that both arguments have. -/
def memcmp : List UInt8 → List UInt8 → Ordering
  | a :: as, b :: bs => if a < b then .lt else if b < a then .gt else memcmp as bs
  | _, _ => .eq

/-- The loop of `lfs_bd_cmp`, without device errors: `size` bytes are left to compare. -/
def bdCmpLoop : (rounds size : Nat) → (disk buffer : List UInt8) → Cmp
  | 0, _, _, _ => .eq
  | rounds + 1, size, disk, buffer =>
    if size = 0 then .eq
    else
      let diff := min size 256
      match memcmp (disk.take diff) (buffer.take diff) with
      | .lt => .lt
      | .gt => .gt
      | .eq => bdCmpLoop rounds (size - diff) (disk.drop diff) (buffer.drop diff)

/-- `lfs_bd_cmp`; a round compares at least one byte. -/
def bdCmp (disk buffer : List UInt8) (size : Nat) : Cmp := bdCmpLoop size size disk buffer

/-- `lfs_dir_find_match`. -/
def dirFindMatch (name : List UInt8) (tag : Tag) (data : List UInt8) : Cmp :=
  -- compare with disk
  let res := bdCmp data name (min name.length (tagSize tag))
  if res ≠ .eq then res
  -- only equal if our size is still the same
  else if name.length ≠ tagSize tag then
    if name.length < tagSize tag then .lt else .gt
  else .eq

/-- `*id` after `lfs_dir_fetchmatch`. -/
def dirFetchmatchId (dev : Device) (blockCount : Nat) (gdisk : GState) (pair : BlockPair)
    (fmask ftag : Tag) (cb : Tag → List UInt8 → Cmp) : Option Nat :=
  if pair.1 ≥ blockCount ∨ pair.2 ≥ blockCount then none
  else match dev pair with
    | none => none
    | some (pair, log) =>
      let s := log.foldl (FetchScan.step fmask ftag cb) {}
      some (min (tagId (syntheticMove gdisk pair s.besttag)) s.count)

/-! ## The order of names -/

/-- Names in byte order, where a name sorts after its own extensions. -/
def nameKey (name : List UInt8) : List Nat := name.map UInt8.toNat ++ [256]

theorem nameKey_cons (b : UInt8) (name : List UInt8) :
    nameKey (b :: name) = b.toNat :: nameKey name := rfl

theorem memcmp_append (h : a.length = b.length) (a' b' : List UInt8) :
    memcmp (a ++ a') (b ++ b') = (memcmp a b).then (memcmp a' b') := by
  induction a generalizing b with
  | nil =>
    cases b with
    | nil => rfl
    | cons y b => cases h
  | cons x a ih =>
    cases b with
    | nil => cases h
    | cons y b =>
      simp only [List.cons_append, memcmp]
      split
      · rfl
      · split
        · rfl
        · exact ih (Nat.succ.inj h)

theorem bdCmpLoop_eq (hrounds : size ≤ rounds) (hdisk : size ≤ disk.length)
    (hbuffer : size ≤ buffer.length) :
    bdCmpLoop rounds size disk buffer =
      match memcmp (disk.take size) (buffer.take size) with
      | .lt => .lt
      | .gt => .gt
      | .eq => .eq := by
  induction rounds generalizing size disk buffer with
  | zero =>
    obtain rfl : size = 0 := by omega
    rfl
  | succ rounds ih =>
    rw [bdCmpLoop]
    split
    · subst size
      rfl
    · have hsplit : ∀ l : List UInt8, l.take size =
          l.take (min size 256) ++ (l.drop (min size 256)).take (size - min size 256) := fun l => by
        rw [← List.take_add, Nat.add_sub_cancel' (Nat.min_le_left ..)]
      have hlen : (disk.take (min size 256)).length = (buffer.take (min size 256)).length := by
        rw [List.length_take, List.length_take]
        omega
      rw [hsplit disk, hsplit buffer, memcmp_append hlen]
      dsimp only
      cases memcmp (disk.take (min size 256)) (buffer.take (min size 256)) with
      | lt => rfl
      | gt => rfl
      | eq =>
        exact ih (by omega) (by rw [List.length_drop]; omega) (by rw [List.length_drop]; omega)

theorem memcmp_take (a b : List UInt8) :
    memcmp (a.take (min b.length a.length)) (b.take (min b.length a.length)) = memcmp a b := by
  induction a generalizing b with
  | nil => cases b <;> rfl
  | cons x a ih =>
    cases b with
    | nil => rfl
    | cons y b =>
      simp only [List.length_cons, Nat.succ_min_succ, List.take_succ_cons, memcmp, ih]

/-- What the bytes and the lengths say about the order of two names. -/
theorem memcmp_nameKey (a b : List UInt8) :
    match memcmp a b with
    | .lt => nameKey a < nameKey b
    | .gt => nameKey b < nameKey a
    | .eq => (b.length < a.length → nameKey a < nameKey b) ∧
        (a.length < b.length → nameKey b < nameKey a) ∧ (a.length = b.length → a = b) := by
  have hend (x : UInt8) (a : List UInt8) : nameKey (x :: a) < nameKey [] := by
    exact List.cons_lt_cons_iff.mpr (.inl x.toNat_lt)
  induction a generalizing b with
  | nil =>
    cases b with
    | nil => exact ⟨fun h => absurd h (Nat.lt_irrefl _), fun h => absurd h (Nat.lt_irrefl _),
        fun _ => rfl⟩
    | cons y b => exact ⟨fun h => absurd h (Nat.not_lt_zero _), fun _ => hend y b,
        fun h => absurd h (Nat.succ_ne_zero _).symm⟩
  | cons x a ih =>
    cases b with
    | nil => exact ⟨fun _ => hend x a, fun h => absurd h (Nat.not_lt_zero _),
        fun h => absurd h (Nat.succ_ne_zero _)⟩
    | cons y b =>
      rw [memcmp, nameKey_cons, nameKey_cons, List.cons_lt_cons_iff, List.cons_lt_cons_iff]
      simp only [UInt8.lt_iff_toNat_lt]
      rcases Nat.lt_trichotomy x.toNat y.toNat with h | h | h
      · rw [if_pos h]
        exact .inl h
      · obtain rfl := UInt8.toNat_inj.mp h
        rw [if_neg (Nat.lt_irrefl _), if_neg (Nat.lt_irrefl _)]
        have ih := ih b
        cases hcmp : memcmp a b <;> simp only [hcmp] at ih ⊢
        · exact .inr ⟨trivial, ih⟩
        · obtain ⟨hgt, hlt, heq⟩ := ih
          refine ⟨fun h => .inr ⟨trivial, hgt ?_⟩, fun h => .inr ⟨trivial, hlt ?_⟩, fun h => ?_⟩
          · exact Nat.lt_of_succ_lt_succ h
          · exact Nat.lt_of_succ_lt_succ h
          · rw [heq (Nat.succ.inj h)]
        · exact .inr ⟨trivial, ih⟩
      · rw [if_neg (Nat.lt_asymm h), if_pos h]
        exact .inl h

/-- **The order of `lfs_dir_find_match`.** -/
theorem dirFindMatch_nameKey (name : List UInt8) (hsize : data.length = tagSize tag) :
    match dirFindMatch name tag data with
    | .lt => nameKey data < nameKey name
    | .gt => nameKey name < nameKey data
    | .eq => data = name := by
  have hcmp := memcmp_nameKey data name
  rw [dirFindMatch, ← hsize, bdCmp,
    bdCmpLoop_eq (Nat.le_refl _) (Nat.min_le_right ..) (Nat.min_le_left ..), memcmp_take]
  cases h : memcmp data name <;> simp only [h] at hcmp ⊢
  · exact hcmp
  · obtain ⟨hgt, hlt, heq⟩ := hcmp
    rcases lt_trichotomy name.length data.length with h | h | h
    · simp only [h, h.ne, ne_eq, not_true_eq_false, not_false_eq_true, ↓reduceIte]
      exact hgt h
    · simp only [h, ne_eq, not_true_eq_false, ↓reduceIte]
      exact heq h.symm
    · simp only [h.ne', h.not_gt, ne_eq, not_true_eq_false, not_false_eq_true, ↓reduceIte]
      exact hlt h
  · exact hcmp

/-! ## The names of a directory -/

/-- The name of an entry that is a file or a directory: the superblock is neither. -/
def fileName (r : Records Nat EntryValue) (i : Nat) : Option (List UInt8) :=
  (r i typeName).bind fun v => if v.1 < 0x80 then some v.2 else none

def fileKey (r : Records Nat EntryValue) (i : Nat) : Option (List Nat) := (fileName r i).map nameKey

/-- The names of the entries are distinct and sorted. -/
def NamesSorted (r : Records Nat EntryValue) (count : Nat) : Prop :=
  ∀ j < count, ∀ i < j, ∀ a ∈ fileName r i, ∀ b ∈ fileName r j, nameKey a < nameKey b

/-- Every entry has a name, and only the first ones are not files. -/
def Named (r : Records Nat EntryValue) (count : Nat) : Prop :=
  ∀ j < count, (r j typeName).isSome ∧ ∀ i < j, (fileName r i).isSome → (fileName r j).isSome

instance (r : Records Nat EntryValue) (count : Nat) : Decidable (NamesSorted r count) :=
  inferInstanceAs (Decidable (∀ j < count, ∀ i < j, ∀ a ∈ fileName r i, ∀ b ∈ fileName r j,
    nameKey a < nameKey b))

instance (r : Records Nat EntryValue) (count : Nat) : Decidable (Named r count) :=
  inferInstanceAs (Decidable (∀ j < count, (r j typeName).isSome ∧
    ∀ i < j, (fileName r i).isSome → (fileName r j).isSome))

/-- What a directory promises of the next tag: a delete carries no data, a name names an entry that
has none, the names are distinct and sorted, and a delete comes when every entry has its name. -/
def NameTag (log : List LogEntry) (e : LogEntry) : Prop :=
  (tagTy e.tag = typeDelete → tagSize e.tag = 0) ∧
  (tagTy e.tag < typeFrom → e.data.length = tagSize e.tag ∧ tagSize e.tag < 0x3ff ∧
    replayLog log (tagId e.tag) typeName = none) ∧
  (∀ c ∈ logCount log, NamesSorted (replayLog log) c) ∧
  (tagTy e.tag = typeDelete → ∀ c ∈ logCount log, Named (replayLog log) c)

instance (log : List LogEntry) (e : LogEntry) : Decidable (NameTag log e) :=
  inferInstanceAs (Decidable (_ ∧ _ ∧ _ ∧ _))

/-- The logs of directories. -/
structure NameLog (log : List LogEntry) (count : Nat) : Prop where
  entries : EntryLog log count
  tags : ∀ n (h : n < log.length), NameTag (log.take n) log[n]
  sorted : NamesSorted (replayLog log) count

theorem NameLog.of_append (H : NameLog (log ++ [e]) count') :
    ∃ count, NameLog log count ∧ NameTag log e := by
  obtain ⟨count, hentries, _⟩ := H.entries.of_append
  have hlast : NameTag log e := by
    have := H.tags log.length (by simp)
    rwa [List.getElem_concat_length rfl, List.take_left' rfl] at this
  refine ⟨count, ⟨hentries, fun n h => ?_, hlast.2.2.1 count hentries.count_eq⟩, hlast⟩
  have := H.tags n (by rw [List.length_append]; omega)
  rwa [List.getElem_append_left h, List.take_append_of_le_length h.le] at this

theorem fileKey_eq_none (h : r i typeName = none) : fileKey r i = none := by
  rw [fileKey, fileName, h, Option.bind_none, Option.map_none]

theorem fileKey_eq_some (h : r i typeName = some (ty, name)) (hty : ty < 0x80) :
    fileKey r i = some (nameKey name) := by
  rw [fileKey, fileName, h, Option.bind_some, if_pos hty, Option.map_some]

theorem NamesSorted.sorted (H : NamesSorted r count)
    (hnone : ∀ i, count ≤ i → r i typeName = none) : Sorted (fileKey r) := by
  intro i j hij a ha b hb
  obtain ⟨x, hx, rfl⟩ := Option.map_eq_some_iff.mp ha
  obtain ⟨y, hy, rfl⟩ := Option.map_eq_some_iff.mp hb
  refine H j (Nat.lt_of_not_le fun hj => ?_) i hij x hx y hy
  rw [fileKey_eq_none (hnone j hj)] at hb
  cases hb

/-! ## What a tag does to the names -/

theorem fileKey_create (h : tagTy tag = typeCreate) (data : List UInt8)
    (r : Records Nat EntryValue) :
    fileKey ((tagOp tag data).apply r) = insertAt (fileKey r) (tagId tag) := by
  funext j
  rw [tagOp_create h]
  simp only [insertAt, fileKey, fileName, Op.apply]
  split_ifs <;> rfl

theorem fileKey_delete (h : tagTy tag = typeDelete) (data : List UInt8)
    (r : Records Nat EntryValue) :
    fileKey ((tagOp tag data).apply r) = removeAt (fileKey r) (tagId tag) := by
  funext j
  rw [tagOp_delete h]
  simp only [removeAt, fileKey, fileName, Op.apply]
  split_ifs <;> rfl

theorem fileKey_name (h : tagTy tag < 0x80) (hsize : tagSize tag ≠ 0x3ff) (data : List UInt8)
    (r : Records Nat EntryValue) :
    fileKey ((tagOp tag data).apply r) = nameAt (fileKey r) (tagId tag) (nameKey data) := by
  funext j
  have hkey : typeKey (tagTy tag) = typeName := by
    rw [typeKey, typeName, if_neg (by omega)]
    omega
  rw [nameAt, fileKey, fileName, tagOp_apply (by omega)]
  by_cases hj : j = tagId tag
  · rw [if_pos ⟨by simp only [typeSplice]; omega, hj, hkey.symm⟩, if_neg hsize, if_pos hj,
      Option.bind_some, if_pos h, Option.map_some]
  · rw [if_neg fun h => hj h.2.1, if_neg hj]
    rfl

/-- A tag that names no file. -/
theorem fileKey_other (h : tagTy tag / 2 ^ 8 ≠ 4) (hname : ¬ tagTy tag < 0x80)
    (hfresh : tagTy tag < typeFrom → r (tagId tag) typeName = none) (data : List UInt8) :
    fileKey ((tagOp tag data).apply r) = fileKey r := by
  funext j
  by_cases hwrites : tagTy tag < typeSplice ∧ j = tagId tag ∧ typeName = typeKey (tagTy tag)
  · obtain ⟨_, rfl, hkey⟩ := hwrites
    have hlt : tagTy tag < typeFrom := by
      have := (typeKey_eq_iff (tagTy tag) typeName).mp hkey.symm
      simp only [typeName, typeFrom] at *
      split at this <;> omega
    rw [fileKey_eq_none (hfresh hlt), fileKey, fileName, tagOp_apply h]
    split_ifs
    · rfl
    · rw [Option.bind_some, if_neg hname]
      rfl
    · rw [hfresh hlt]
      rfl
  · rw [fileKey, fileName, tagOp_apply h, if_neg hwrites]
    rfl

/-! ## The scan -/

/-- What the best tag says about a name: it is the tag of the name, or its id is the place where
the name belongs. An entry at this place has a name, unless the last entry was deleted. -/
structure FindsName (name : List UInt8) (count deletes : Nat) (r : Records Nat EntryValue)
    (besttag : Tag) : Prop where
  found : tagIsValid besttag = true → r (tagId besttag) typeName = some (tagTy besttag, name) ∧
    tagTy besttag < 0x80 ∧ tagSize besttag = name.length
  missing : tagIsValid besttag = false → Splits (fileKey r) (nameKey name) (tagId besttag)
  anchor : besttag ≠ -1#32 → tagId besttag < count → (fileKey r (tagId besttag)).isSome
  limit : besttag ≠ -1#32 →
    tagId besttag ≤ count ∧ (tagId besttag = count → 0 < deletes)

theorem ne_neg_one_of_valid (h : tagIsValid tag = true) : tag ≠ -1#32 := by
  rintro rfl
  cases h

theorem tagId_neg_one : tagId (-1#32) = 0x3ff := by decide

theorem FindsName.create (H : FindsName name count deletes r besttag)
    (hty : tagTy tag = typeCreate) (hid : tagId tag ≤ count) (hlt : count + 1 < 0x3ff)
    (hnone : ∀ i, count ≤ i → fileKey r i = none) (data : List UInt8) :
    FindsName name (count + 1) deletes ((tagOp tag data).apply r) (spliceBesttag tag besttag) := by
  have hne : ¬ tag = mkTag typeDelete 0 0 ||| (mkTag 0 0x3ff 0 &&& besttag) := fun h => by
    have := ((eq_or_id_iff (by decide) tag besttag).mp h).2.1
    rw [hty] at this
    cases this
  have hkey := fileKey_create hty data r
  have hop := tagOp_create hty data
  rw [spliceBesttag, if_neg hne, tagSplice_create hty]
  split
  · obtain ⟨hnot, hle⟩ := (‹_ ∧ _› : besttag ≠ -1#32 ∧ tagId tag ≤ tagId besttag)
    obtain ⟨hcount, hlast⟩ := H.limit hnot
    have hmove := tagId_add_idShift besttag (d := 1) (by omega) (by omega)
    have hsame := sameButId_add_idShift besttag (d := 1) (by omega) (by omega)
    have hid' : tagId (besttag + idShift 1) = tagId besttag + 1 := by omega
    refine ⟨fun hv => ?_, fun hv => ?_, fun _ h => ?_, fun _ => ?_⟩
    · obtain ⟨hname, hfile, hsize⟩ := H.found (hsame.valid ▸ hv)
      rw [hid', hop, hsame.ty, hsame.size]
      refine ⟨?_, hfile, hsize⟩
      simp only [Op.apply]
      rw [if_neg (by omega), if_neg (by omega), Nat.add_sub_cancel, hname]
    · rw [hkey, hid']
      exact (H.missing (hsame.valid ▸ hv)).insertAt_le hle
    · rw [hkey, hid', insertAt, if_neg (by omega), if_neg (by omega), Nat.add_sub_cancel]
      exact H.anchor hnot (by omega)
    · rw [hid']
      exact ⟨by omega, fun h => hlast (by omega)⟩
  · rename_i hgt
    by_cases hnot : besttag = -1#32
    · subst hnot
      refine ⟨fun hv => absurd hv (by decide), fun _ => ?_, fun h => absurd rfl h,
        fun h => absurd rfl h⟩
      have hnone' : ∀ i, count + 1 ≤ i → insertAt (fileKey r) (tagId tag) i = none := fun i hi => by
        rw [insertAt, if_neg (by omega), if_neg (by omega), hnone (i - 1) (by omega)]
      rw [hkey, tagId_neg_one]
      exact ((H.missing rfl).insertAt_le (by rw [tagId_neg_one]; omega)).of_le hnone'
        (by rw [tagId_neg_one]; omega) (by omega)
    · have hlt' : tagId besttag < tagId tag := Nat.lt_of_not_le fun h => hgt ⟨hnot, h⟩
      refine ⟨fun hv => ?_, fun hv => ?_, fun _ h => ?_, fun _ => ⟨by omega, fun h => by omega⟩⟩
      · obtain ⟨hname, hfile⟩ := H.found hv
        rw [hop]
        simp only [Op.apply, if_pos hlt']
        exact ⟨hname, hfile⟩
      · rw [hkey]
        exact (H.missing hv).insertAt_gt hlt'
      · rw [hkey, insertAt, if_pos hlt']
        exact H.anchor hnot (by omega)

theorem FindsName.delete (H : FindsName name count deletes r besttag)
    (hty : tagTy tag = typeDelete) (hvalid : tagIsValid tag = true) (hsize : tagSize tag = 0)
    (hid : tagId tag < count) (hlt : count < 0x3ff) (hnone : ∀ i, count ≤ i → fileKey r i = none)
    (hs : Sorted (fileKey r))
    (hnamed : ∀ j < count, ∀ i < j, (fileKey r i).isSome → (fileKey r j).isSome)
    (data : List UInt8) :
    FindsName name (count - 1) (deletes + 1) ((tagOp tag data).apply r)
      (spliceBesttag tag besttag) := by
  have hdelete := eq_or_id_iff (show typeDelete < 2 ^ 11 by decide) tag besttag
  have hkey := fileKey_delete hty data r
  have hop := tagOp_delete hty data
  rw [spliceBesttag, tagSplice_delete hty]
  split
  · have hsame := (hdelete.mp ‹_›).2.2.1
    have hnot : besttag ≠ -1#32 := fun h => by
      rw [h, tagId_neg_one] at hsame
      omega
    have hsome := H.anchor hnot (by omega)
    refine ⟨fun hv => ?_, fun _ => ?_, fun _ h => ?_, fun _ => ?_⟩
    · rw [tagIsValid_read] at hv
      cases hv
    · rw [hkey, tagId_read, ← hsame]
      cases hv : tagIsValid besttag with
      | true =>
        obtain ⟨hname, hfile, _⟩ := H.found hv
        rw [← hsame] at hname
        exact hs.removeAt_splits (fileKey_eq_some hname hfile)
      | false =>
        have := H.missing hv
        rw [← hsame] at this
        exact this.removeAt_ge (Nat.le_refl _)
    · rw [tagId_read, ← hsame] at h ⊢
      rw [← hsame] at hsome
      rw [hkey, removeAt, if_neg (by omega)]
      exact hnamed _ (by omega) _ (Nat.lt_succ_self _) hsome
    · rw [tagId_read]
      exact ⟨by omega, fun _ => Nat.succ_pos _⟩
  · have hne : tagId tag ≠ tagId besttag := fun h => ‹¬ _› (hdelete.mpr ⟨hvalid, hty, h, hsize⟩)
    split
    · obtain ⟨hnot, hle⟩ := (‹_ ∧ _› : besttag ≠ -1#32 ∧ tagId tag ≤ tagId besttag)
      obtain ⟨hcount, _⟩ := H.limit hnot
      have hmove := tagId_add_idShift besttag (d := -1) (by omega) (by omega)
      have hsame := sameButId_add_idShift besttag (d := -1) (by omega) (by omega)
      have hid' : tagId (besttag + idShift (-1)) = tagId besttag - 1 := by omega
      refine ⟨fun hv => ?_, fun hv => ?_, fun _ h => ?_, fun _ => ?_⟩
      · obtain ⟨hname, hfile, hsize⟩ := H.found (hsame.valid ▸ hv)
        rw [hid', hop, hsame.ty, hsame.size]
        refine ⟨?_, hfile, hsize⟩
        simp only [Op.apply]
        rw [if_neg (by omega), Nat.sub_add_cancel (by omega), hname]
      · rw [hkey, hid']
        exact (H.missing (hsame.valid ▸ hv)).removeAt_lt (by omega)
      · rw [hkey, hid', removeAt, if_neg (by omega), Nat.sub_add_cancel (by omega)]
        exact H.anchor hnot (by omega)
      · rw [hid']
        exact ⟨by omega, fun _ => Nat.succ_pos _⟩
    · rename_i hgt
      by_cases hnot : besttag = -1#32
      · subst hnot
        refine ⟨fun hv => absurd hv (by decide), fun _ => ?_, fun h => absurd rfl h,
          fun h => absurd rfl h⟩
        rw [hkey]
        have hmissing := (H.missing rfl).of_le hnone (by rw [tagId_neg_one]; omega)
          (show count ≤ 0x3ff + 1 by omega)
        exact hmissing.removeAt_lt (by omega)
      · have hlt' : tagId besttag < tagId tag := Nat.lt_of_not_le fun h => hgt ⟨hnot, h⟩
        refine ⟨fun hv => ?_, fun hv => ?_, fun _ h => ?_, fun _ => ⟨by omega, fun h => by omega⟩⟩
        · obtain ⟨hname, hfile⟩ := H.found hv
          rw [hop]
          simp only [Op.apply, if_pos hlt']
          exact ⟨hname, hfile⟩
        · rw [hkey]
          exact (H.missing hv).removeAt_ge hlt'.le
        · rw [hkey, removeAt, if_pos hlt']
          exact H.anchor hnot (by omega)

/-- A tag that moves no entry and leaves the best tag alone. -/
theorem FindsName.keep (H : FindsName name count deletes r besttag) (hle : count ≤ count')
    (hcount : 0 < deletes → count' = count)
    (hr : ∀ i v, r i typeName = some v → r' i typeName = some v)
    (hmissing : tagIsValid besttag = false →
      Splits (fileKey r') (nameKey name) (tagId besttag)) :
    FindsName name count' deletes r' besttag := by
  refine ⟨fun hv => ?_, hmissing, fun hnot h => ?_, fun hnot => ?_⟩
  · obtain ⟨hname, hfile⟩ := H.found hv
    exact ⟨hr _ _ hname, hfile⟩
  · obtain ⟨hle', hlast⟩ := H.limit hnot
    have hlt : tagId besttag < count := by
      refine Nat.lt_of_le_of_ne hle' fun heq => ?_
      have := hcount (hlast heq)
      omega
    have hsome := H.anchor hnot hlt
    cases hv : r (tagId besttag) typeName with
    | none =>
      rw [fileKey_eq_none hv] at hsome
      cases hsome
    | some v =>
      rw [fileKey, fileName, hv] at hsome
      rw [fileKey, fileName, hr _ _ hv]
      exact hsome
  · obtain ⟨hle', hlast⟩ := H.limit hnot
    refine ⟨hle'.trans hle, fun heq => ?_⟩
    have hcount' : tagId besttag = count := by omega
    exact hlast hcount'

/-- No name tag has the id of the best tag: an entry there has its name already. -/
theorem FindsName.ne (H : FindsName name count deletes r besttag)
    (hfresh : r (tagId tag) typeName = none) (hbefore : 0 < deletes → tagId tag < count)
    (hlt : tagId tag < 0x3ff) : tagId tag ≠ tagId besttag := by
  intro heq
  by_cases hnot : besttag = -1#32
  · rw [hnot, tagId_neg_one] at heq
    omega
  · obtain ⟨hle, hlast⟩ := H.limit hnot
    have hid : tagId besttag < count := by
      refine Nat.lt_of_le_of_ne hle fun h => ?_
      have := hbefore (hlast h)
      omega
    have hsome := H.anchor hnot hid
    rw [← heq, fileKey_eq_none hfresh] at hsome
    cases hsome

theorem FindsName.matched (H : FindsName name count deletes r besttag) (hty : tagTy tag < 0x80)
    (hvalid : tagIsValid tag = true) (hlen : data.length = tagSize tag)
    (hsize : tagSize tag < 0x3ff)
    (hfresh : r (tagId tag) typeName = none) (hbefore : 0 < deletes → tagId tag < count)
    (hlt : max count (tagId tag + 1) < 0x3ff)
    (hs : Sorted (fileKey ((tagOp tag data).apply r))) :
    FindsName name (max count (tagId tag + 1)) deletes ((tagOp tag data).apply r)
      (matchBesttag (dirFindMatch name tag data) tag besttag) := by
  have hkey := fileKey_name hty (show tagSize tag ≠ 0x3ff by omega) data r
  have hnew : fileKey ((tagOp tag data).apply r) (tagId tag) = some (nameKey data) := by
    rw [hkey, nameAt, if_pos rfl]
  have hold : ∀ j, j ≠ tagId tag → fileKey ((tagOp tag data).apply r) j = fileKey r j :=
    fun j hj => by
    rw [hkey, nameAt, if_neg hj]
  have hkeyTy : typeKey (tagTy tag) = typeName := by
    rw [typeKey, typeName, if_neg (by omega)]
    omega
  have hr : ∀ i v, r i typeName = some v → (tagOp tag data).apply r i typeName = some v := by
    intro i v hv
    rw [tagOp_apply (by omega), if_neg, hv]
    rintro ⟨_, rfl, _⟩
    cases hfresh.symm.trans hv
  have hne := H.ne hfresh hbefore (by omega)
  have hcmp := dirFindMatch_nameKey name hlen
  have hdiff : ¬ mkTag typeMovestate 0x3ff 0 &&& tag = mkTag typeMovestate 0x3ff 0 &&& besttag := by
    rw [and_mask_eq_iff (by decide)]
    exact fun h => hne h.2
  rw [matchBesttag]
  cases hres : dirFindMatch name tag data with
  | eq =>
    rw [hres] at hcmp
    have hcmp : data = name := hcmp
    rw [if_pos rfl]
    refine ⟨fun hv => ⟨?_, hty, by rw [← hcmp, hlen]⟩, fun hv => ?_, fun _ _ => ?_,
      fun _ => ⟨by omega, fun h => by omega⟩⟩
    · rw [tagOp_apply (by omega), hkeyTy, if_pos ⟨by simp only [typeSplice]; omega, rfl, rfl⟩,
        if_neg (by omega), hcmp]
    · rw [hvalid] at hv
      cases hv
    · rw [hnew]
      rfl
  | lt =>
    rw [hres] at hcmp
    rw [if_neg (by decide), if_neg hdiff, if_neg fun h => by cases h.1]
    refine H.keep (Nat.le_max_left ..) (fun h => by have := hbefore h; omega) hr fun hv => ?_
    have hmissing := H.missing hv
    rw [hkey]
    refine hmissing.nameAt_lt (Nat.lt_of_not_le fun hle => ?_) hcmp
    -- the entry at the place sorts after the name and before the new one
    have hnot : besttag ≠ -1#32 := fun h => by
      rw [h, tagId_neg_one] at hle
      omega
    obtain ⟨hle', hlast⟩ := H.limit hnot
    have hid : tagId besttag < count := by
      refine Nat.lt_of_le_of_ne hle' fun h => ?_
      have := hbefore (hlast h)
      omega
    obtain ⟨b, hb⟩ := Option.isSome_iff_exists.mp (H.anchor hnot hid)
    have hlt' := hs _ _ (Nat.lt_of_le_of_ne hle hne.symm) b (by rw [hold _ hne.symm]; exact hb) _
      hnew
    exact lt_asymm (hlt'.trans hcmp) (hmissing.above _ (Nat.le_refl _) b hb)
  | gt =>
    rw [hres] at hcmp
    rw [if_neg (by decide), if_neg hdiff]
    split
    · have hle : tagId tag ≤ tagId besttag := (‹_ ∧ _› : Cmp.gt = .gt ∧ _).2
      have hlt' : tagId tag < tagId besttag := Nat.lt_of_le_of_ne hle hne
      refine ⟨fun hv => ?_, fun _ => ?_, fun _ _ => ?_, fun _ => ?_⟩
      · rw [tagIsValid_read] at hv
        cases hv
      · rw [tagId_read]
        refine hs.splits hnew hcmp fun j hj b hb => ?_
        rw [hold j (by omega)] at hb
        cases hv : tagIsValid besttag with
        | false => exact (H.missing hv).below j (by omega) b hb
        | true =>
          -- the name is there, behind a name that sorts after it
          obtain ⟨hname, hfile, _⟩ := H.found hv
          have hfound := hold _ hne.symm
          rw [fileKey_eq_some hname hfile] at hfound
          exact absurd (hs _ _ hlt' _ hnew _ hfound) (lt_asymm hcmp)
      · rw [tagId_read, hnew]
        rfl
      · rw [tagId_read]
        exact ⟨by omega, fun h => by omega⟩
    · rename_i hnot
      have hgt : tagId besttag < tagId tag := Nat.lt_of_not_le fun h => hnot ⟨rfl, h⟩
      refine H.keep (Nat.le_max_left ..) (fun h => by have := hbefore h; omega) hr fun hv => ?_
      rw [hkey]
      exact (H.missing hv).nameAt_ge hgt.le hcmp

/-- The mask of `lfs_dir_find` takes the names of files and directories. -/
theorem matches_name_iff (hvalid : tagIsValid tag = true) (hlen : length < 2 ^ 10) :
    mkTag 0x780 0 0 &&& tag = mkTag 0x780 0 0 &&& mkTag typeName 0 length ↔ tagTy tag < 0x80 := by
  have hmask := BitField.and_mask tag.toNat 27 4
  have hmask' := BitField.and_mask (mkTag typeName 0 length).toNat 27 4
  rw [tagIsValid_iff] at hvalid
  rw [← BitVec.toNat_inj, BitVec.toNat_and, BitVec.toNat_and, Nat.and_comm,
    Nat.and_comm _ (mkTag typeName 0 length).toNat,
    show (mkTag 0x780 0 0).toNat = (2 ^ 4 - 1) * 2 ^ 27 from rfl, hmask, hmask',
    mkTag_toNat (by decide) (by decide) hlen, tagTy, typeName]
  omega

/-- The scan of `lfs_dir_find` over the tags of a pair. -/
def findScan (name : List UInt8) (log : List LogEntry) : FetchScan :=
  log.foldl (FetchScan.step (mkTag 0x780 0 0) (mkTag typeName 0 name.length) (dirFindMatch name)) {}

/-- One round of the scan. -/
theorem FindsName.step {s : FetchScan} (hlen : name.length < 2 ^ 10)
    (H : FindsName name count (deleteCount log) (replayLog log) s.besttag)
    (hlog : NameLog log count) (hlog' : NameLog (log ++ [e]) count') :
    FindsName name count' (deleteCount (log ++ [e])) (replayLog (log ++ [e]))
      (s.step (mkTag 0x780 0 0) (mkTag typeName 0 name.length) (dirFindMatch name) e).besttag := by
  obtain ⟨c, hentries, hvalid, hkind, _, hbefore⟩ := hlog'.entries.of_append
  obtain rfl : c = count := by
    have := hentries.count_eq.symm.trans hlog.entries.count_eq
    exact Option.some.inj this
  obtain ⟨_, _, hdelete, hname, _, hnamed⟩ := hlog'.of_append
  have hlt := logCount_lt hentries.count_eq
  have hlt' := logCount_lt hlog'.entries.count_eq
  have hnone := fun i (hi : c ≤ i) =>
    fileKey_eq_none (replayLog_eq_none hentries.count_eq hi typeName)
  have hs := hlog.sorted.sorted fun i hi => replayLog_eq_none hentries.count_eq hi typeName
  have hs' := hlog'.sorted.sorted fun i hi => replayLog_eq_none hlog'.entries.count_eq hi typeName
  have htype := tagType1_of_valid hvalid
  have hmatch := matches_name_iff hvalid hlen
  rw [replayLog_append_singleton] at hs' ⊢
  rw [deleteCount_append_singleton, FetchScan.step]
  by_cases hsplice : tagTy e.tag / 2 ^ 8 = 4
  · have hcrc : tagType1 e.tag ≠ typeCrc := by
      rw [htype, hsplice]
      decide
    have hfile : ¬ tagTy e.tag < 0x80 := by omega
    simp only [hcrc, mt hmatch.mp hfile, ↓reduceIte, FetchScan.modify_splice s hvalid hsplice]
    rcases hkind.splice hsplice with ⟨hty, hid, rfl⟩ | ⟨hty, hid, rfl⟩
    · rw [hty, if_neg (by decide)]
      exact H.create hty hid hlt' hnone _
    · rw [if_pos hty]
      refine H.delete hty hvalid (hdelete hty) hid hlt hnone hs (fun j hj i hi h => ?_) _
      have := (hnamed hty _ hentries.count_eq j hj).2 i hi
      rw [fileKey, Option.isSome_map] at h ⊢
      exact this h
  · have hd : tagTy e.tag ≠ typeDelete := by simp only [typeDelete]; omega
    rw [if_neg hd, Nat.add_zero]
    have hbest : (s.modify e).besttag = s.besttag := by
      by_cases hn : tagTy e.tag / 2 ^ 8 = 0
      · rw [FetchScan.modify_name s hvalid hn]
      · exact (FetchScan.modify_other s hvalid hn hsplice).2
    by_cases hfile : tagTy e.tag < 0x80
    · have hcrc : tagType1 e.tag ≠ typeCrc := by
        rw [htype, typeCrc]
        omega
      obtain ⟨hdata, hsize, hfresh⟩ := hname (by simp only [typeFrom]; omega)
      have hbefore := hbefore (by simp only [typeFrom]; omega)
      obtain rfl : count' = max c (tagId e.tag + 1) := by
        cases hkind with
        | create hty => rw [hty] at hsplice; exact absurd rfl hsplice
        | delete hty => exact absurd hty hd
        | name => rfl
        | value hlo => simp only [typeStruct] at hlo; omega
        | other hty => simp only [typeCrc] at hty; omega
      simp only [hcrc, hmatch.mpr hfile, ↓reduceIte, hbest]
      exact H.matched hfile hvalid hdata hsize hfresh hbefore hlt' hs'
    · have hkey := fileKey_other hsplice hfile (fun h => (hname h).2.2) e.data
      have hkeep : FindsName name count' (deleteCount log)
          ((tagOp e.tag e.data).apply (replayLog log)) s.besttag := by
        refine H.keep (hkind.le_of_not_splice hsplice) (fun hdel => ?_) (fun i v hv => ?_)
          fun hv => by rw [hkey]; exact H.missing hv
        · cases hkind with
          | create hty => rw [hty] at hsplice; exact absurd rfl hsplice
          | delete hty => exact absurd hty hd
          | name hty => have := hbefore hty hdel; omega
          | value => rfl
          | other => rfl
        · rw [tagOp_apply hsplice, if_neg, hv]
          rintro ⟨_, rfl, hk⟩
          have hlt : tagTy e.tag < typeFrom := by
            have := (typeKey_eq_iff (tagTy e.tag) typeName).mp hk.symm
            simp only [typeName, typeFrom] at *
            split at this <;> omega
          cases (hname hlt).2.2.symm.trans hv
      by_cases hcrc : tagType1 e.tag = typeCrc
      · simp only [hcrc, ↓reduceIte]
        exact hkeep
      · simp only [hcrc, mt hmatch.mp hfile, ↓reduceIte, hbest]
        exact hkeep

/-- **The best tag** of the scan. -/
theorem findsName_scan (hlen : name.length < 2 ^ 10) (H : NameLog log count) :
    FindsName name count (deleteCount log) (replayLog log) (findScan name log).besttag := by
  induction log using List.reverseRecOn generalizing count with
  | nil =>
    refine ⟨fun h => absurd (show tagIsValid (-1#32) = true from h) (by decide), fun _ => ?_,
      fun h => absurd rfl h, fun h => absurd rfl h⟩
    exact ⟨fun _ _ _ h => (nomatch h), fun _ _ _ h => (nomatch h)⟩
  | append_singleton log e ih =>
    obtain ⟨count, hlog, _⟩ := H.of_append
    have ih := ih hlog
    rw [findScan, List.foldl_append]
    exact ih.step hlen hlog H

theorem NamesSorted.of_sorted (H : Sorted (fileKey r)) (count : Nat) : NamesSorted r count :=
  fun j _ i hij a ha b hb => H i j hij (nameKey a) (by rw [fileKey, ha]; rfl) (nameKey b)
    (by rw [fileKey, hb]; rfl)

/-- The place of a new name: as many entries as do not sort after it, and with it there the names
are still sorted. -/
structure InsertionPoint (log : List LogEntry) (count : Nat) (name : List UInt8) (p : Nat) :
    Prop where
  le : p ≤ count
  eq_card : p = ((Finset.range count).filter fun j =>
    ∀ a ∈ fileName (replayLog log) j, nameKey a < nameKey name).card
  sorted : ∀ ty < 0x80, NamesSorted
    (replayLog (log ++ [⟨mkTag typeCreate p 0, []⟩, ⟨mkTag ty p name.length, name⟩])) (count + 1)

theorem FindsName.insertionPoint
    (H : FindsName name count (deleteCount log) (replayLog log) besttag)
    (hlog : NameLog log count) (hnamed : Named (replayLog log) count)
    (hname : name.length < 0x3ff) (hvalid : tagIsValid besttag = false) :
    InsertionPoint log count name (min (tagId besttag) count) := by
  have hlt := logCount_lt hlog.entries.count_eq
  have hnone := fun i (hi : count ≤ i) =>
    fileKey_eq_none (replayLog_eq_none hlog.entries.count_eq hi typeName)
  have hs := hlog.sorted.sorted fun i hi => replayLog_eq_none hlog.entries.count_eq hi typeName
  have hsplits : Splits (fileKey (replayLog log)) (nameKey name) (min (tagId besttag) count) := by
    rcases Nat.le_total (tagId besttag) count with h | h
    · rw [Nat.min_eq_left h]
      exact H.missing hvalid
    · exact (H.missing hvalid).of_le hnone h (by omega)
  refine ⟨Nat.min_le_right .., ?_, fun ty hty => ?_⟩
  · have hcard := hsplits.eq_card (Nat.min_le_right ..) (fun j k hj hjk hk => ?_) fun h => ?_
    · refine hcard.trans (congrArg Finset.card ?_)
      ext j
      simp only [Finset.mem_filter, fileKey, Option.mem_def, Option.map_eq_some_iff,
        forall_exists_index, and_imp,
        forall_apply_eq_imp_iff₂]
    · rw [fileKey, Option.isSome_map] at hj ⊢
      exact (hnamed k hk).2 j hjk hj
    · rw [Nat.min_eq_left (by omega)]
      refine H.anchor (fun hnot => ?_) (by omega)
      rw [hnot, tagId_neg_one] at h
      omega
  · obtain ⟨hcreate, hid, _⟩ := mkTag_fields (show typeCreate < 2 ^ 11 by decide)
      (show min (tagId besttag) count < 2 ^ 10 by omega) (show 0 < 2 ^ 10 by decide)
    obtain ⟨hty', hid', hsize⟩ := mkTag_fields (show ty < 2 ^ 11 by omega)
      (show min (tagId besttag) count < 2 ^ 10 by omega) (show name.length < 2 ^ 10 by omega)
    refine NamesSorted.of_sorted ?_ _
    rw [← List.singleton_append, ← List.append_assoc, replayLog_append_singleton,
      replayLog_append_singleton, fileKey_name (by rwa [hty']) (by rw [hsize]; omega),
      fileKey_create hcreate, hid, hid']
    exact hsplits.sorted hs

/-- **Lookup by name is exact**: the tag of the entry that has the name, with the id it has now, or
the place where the name belongs. -/
theorem dirFetchmatch_find (hlog : NameLog log count) (hnamed : Named (replayLog log) count)
    (hname : name.length < 0x3ff) (hblocks : pair.1 < blockCount ∧ pair.2 < blockCount)
    (hdev : dev pair = some (pair', log)) (hgdisk : gstateHasmovehere gdisk pair' = false) :
    (∃ dir i ty, replayLog log i typeName = some (ty, name) ∧ ty < 0x80 ∧ dir.count = count ∧
      dirFetchmatch dev blockCount gdisk pair (mkTag 0x780 0 0) (mkTag typeName 0 name.length)
        (dirFindMatch name) = some (dir, .tag (mkTag ty i name.length))) ∨
    (∀ i, fileName (replayLog log) i ≠ some name) ∧ ∃ dir p, dir.count = count ∧
      dirFetchmatch dev blockCount gdisk pair (mkTag 0x780 0 0) (mkTag typeName 0 name.length)
        (dirFindMatch name) = some (dir, if p < count then .noent else .ok) ∧
      dirFetchmatchId dev blockCount gdisk pair (mkTag 0x780 0 0) (mkTag typeName 0 name.length)
        (dirFindMatch name) = some p ∧
      InsertionPoint log count name p := by
  have H := findsName_scan (show name.length < 2 ^ 10 by omega) hlog
  have hcount : (findScan name log).count = count := scan_count _ _ _ hlog.entries.count_eq
  have hscan : log.foldl (FetchScan.step (mkTag 0x780 0 0) (mkTag typeName 0 name.length)
    (dirFindMatch name)) {} = findScan name log := rfl
  have hmove : syntheticMove gdisk pair' (findScan name log).besttag =
      (findScan name log).besttag := by
    rw [syntheticMove, hgdisk, if_neg Bool.false_ne_true]
  have hlt : ¬ (pair.1 ≥ blockCount ∨ pair.2 ≥ blockCount) := by omega
  rw [dirFetchmatch, dirFetchmatchId, if_neg hlt, if_neg hlt, hdev]
  simp only [hscan, hmove, hcount]
  cases hvalid : tagIsValid (findScan name log).besttag with
  | true =>
    obtain ⟨hfound, hfile, hsize⟩ := H.found hvalid
    refine .inl ⟨_, _, _, hfound, hfile, ?_, congrArg some (Prod.ext rfl ?_)⟩
    · rfl
    · rw [← hsize, mkTag_of_fields hvalid]
  | false =>
    refine .inr ⟨fun i h => ?_, ⟨pair', log, count, (findScan name log).split,
      (findScan name log).tail⟩, _, rfl, ?_, rfl, H.insertionPoint hlog hnamed hname hvalid⟩
    · refine (H.missing hvalid).ne i ?_
      rw [fileKey, h]
      rfl
    · have hiff : min (tagId (findScan name log).besttag) count < count ↔
          tagId (findScan name log).besttag < count := by omega
      simp only [hiff, Bool.false_eq_true, ↓reduceIte]
      split <;> rfl

/-- The superblock, then `b`, then `a` in front of it. -/
def superblockLog : List LogEntry :=
  [⟨mkTag typeCreate 0 0, []⟩, ⟨mkTag typeSuperblock 0 2, [108, 102]⟩,
   ⟨mkTag typeCreate 1 0, []⟩, ⟨mkTag typeReg 1 1, [98]⟩, ⟨mkTag typeCrc 0x3ff 4, [0, 0, 0, 0]⟩,
   ⟨mkTag typeCreate 1 0, []⟩, ⟨mkTag typeDir 1 1, [97]⟩, ⟨mkTag typeCrc 0x3ff 4, [0, 0, 0, 0]⟩]

theorem superblockLog_nameLog : NameLog superblockLog 3 :=
  ⟨⟨by decide, by decide, by decide⟩, by decide, by decide⟩

theorem dirFetchmatch_find_superblock :
    (∃ dir i ty, replayLog superblockLog i typeName = some (ty, [97, 97]) ∧ ty < 0x80 ∧
      dir.count = 3 ∧
      dirFetchmatch (fun pair => some (pair, superblockLog)) 2 {} (0, 1) (mkTag 0x780 0 0)
        (mkTag typeName 0 2) (dirFindMatch [97, 97]) = some (dir, .tag (mkTag ty i 2))) ∨
    (∀ i, fileName (replayLog superblockLog) i ≠ some [97, 97]) ∧ ∃ dir p, dir.count = 3 ∧
      dirFetchmatch (fun pair => some (pair, superblockLog)) 2 {} (0, 1) (mkTag 0x780 0 0)
        (mkTag typeName 0 2) (dirFindMatch [97, 97]) =
          some (dir, if p < 3 then .noent else .ok) ∧
      dirFetchmatchId (fun pair => some (pair, superblockLog)) 2 {} (0, 1) (mkTag 0x780 0 0)
        (mkTag typeName 0 2) (dirFindMatch [97, 97]) = some p ∧
      InsertionPoint superblockLog 3 [97, 97] p :=
  dirFetchmatch_find superblockLog_nameLog (by decide) (by decide) ⟨by decide, by decide⟩ rfl
    (by decide)

/-- The names are distinct and sorted at every commit. -/
def CommitsSorted (log : List LogEntry) : Prop :=
  ∀ n ≤ log.length, Committed (log.take n) → ∀ c ∈ logCount (log.take n),
    NamesSorted (replayLog (log.take n)) c

instance (log : List LogEntry) : Decidable (CommitsSorted log) :=
  inferInstanceAs (Decidable (∀ n ≤ log.length, Committed (log.take n) →
    ∀ c ∈ logCount (log.take n), NamesSorted (replayLog (log.take n)) c))

/-- `b`, in the next commit renamed to `c` in its place. -/
def overwrittenLog : List LogEntry :=
  [⟨mkTag typeCreate 0 0, []⟩, ⟨mkTag typeReg 0 1, [98]⟩, ⟨mkTag typeCrc 0x3ff 4, [0, 0, 0, 0]⟩,
   ⟨mkTag typeReg 0 1, [99]⟩, ⟨mkTag typeCrc 0x3ff 4, [0, 0, 0, 0]⟩]

/-- `z` and `a` in one commit, which then deletes `z`. -/
def unsortedLog : List LogEntry :=
  [⟨mkTag typeCreate 0 0, []⟩, ⟨mkTag typeReg 0 1, [122]⟩, ⟨mkTag typeCreate 1 0, []⟩,
   ⟨mkTag typeReg 1 1, [97]⟩, ⟨mkTag typeDelete 0 0, []⟩, ⟨mkTag typeCrc 0x3ff 4, [0, 0, 0, 0]⟩]

/-- `a`, `c` and `e`; then `d`, which gets its name only when `c` is deleted. -/
def unnamedLog : List LogEntry :=
  [⟨mkTag typeReg 0 1, [97]⟩, ⟨mkTag typeReg 1 1, [99]⟩, ⟨mkTag typeReg 2 1, [101]⟩,
   ⟨mkTag typeCrc 0x3ff 4, [0, 0, 0, 0]⟩, ⟨mkTag typeCreate 2 0, []⟩, ⟨mkTag typeDelete 1 0, []⟩,
   ⟨mkTag typeReg 1 1, [100]⟩, ⟨mkTag typeCrc 0x3ff 4, [0, 0, 0, 0]⟩]

/-- Without the conditions on single tags, logs that are sorted at every commit get wrong places:
`a` behind `c`, `b` in front of `a`, and `b` behind `e`. -/
theorem dirFetchmatch_find_fails :
    (EntryLog overwrittenLog 1 ∧ CommitsSorted overwrittenLog ∧
      dirFetchmatchId (fun pair => some (pair, overwrittenLog)) 2 {} (0, 1) (mkTag 0x780 0 0)
        (mkTag typeName 0 1) (dirFindMatch [97]) = some 1 ∧
      ¬ InsertionPoint overwrittenLog 1 [97] 1) ∧
    (EntryLog unsortedLog 1 ∧ CommitsSorted unsortedLog ∧
      dirFetchmatchId (fun pair => some (pair, unsortedLog)) 2 {} (0, 1) (mkTag 0x780 0 0)
        (mkTag typeName 0 1) (dirFindMatch [98]) = some 0 ∧
      ¬ InsertionPoint unsortedLog 1 [98] 0) ∧
    EntryLog unnamedLog 3 ∧ CommitsSorted unnamedLog ∧
      dirFetchmatchId (fun pair => some (pair, unnamedLog)) 2 {} (0, 1) (mkTag 0x780 0 0)
        (mkTag typeName 0 1) (dirFindMatch [98]) = some 3 ∧
      ¬ InsertionPoint unnamedLog 3 [98] 3 := by
  refine ⟨⟨⟨by decide, by decide, by decide⟩, by decide, by decide, fun h => ?_⟩,
    ⟨⟨by decide, by decide, by decide⟩, by decide, by decide, fun h => ?_⟩,
    ⟨by decide, by decide, by decide⟩, by decide, by decide, fun h => ?_⟩
  · exact absurd h.eq_card (by decide)
  · exact absurd h.eq_card (by decide)
  · exact absurd h.eq_card (by decide)

end LittleFs
