import LittleFs.ParentScan

/-! `lfs_dir_get`: a lookup walks the log of a pair backwards and moves the id it looks for past the
creates and deletes on the way. What it finds is what a replay of the log leaves there, as long as
the moved id stays in its field. -/

namespace LittleFs

open KeyedLog (Op Records replay)

/-! ## The lookup -/

/-- The buffer after a read of a tag's data: what does not fit is cut off, the rest is zero. -/
def readPadded (data : List UInt8) (size gsize : Nat) : List UInt8 :=
  let diff := min size gsize
  data.take diff ++ List.replicate (gsize - diff) 0

/-- The loop of `lfs_dir_getslice` with `goff` 0, over the tags from the last one on. -/
def dirGetLoop (gmask gtag : Tag) (gsize : Nat) :
    (tags : List LogEntry) → (gdiff : Tag) → Except Int (Tag × List UInt8)
  | [], _ => .error errNoent
  | e :: tags, gdiff =>
    let splices := tagId gmask ≠ 0 ∧ tagType1 e.tag = typeSplice ∧
      tagId e.tag ≤ tagId (gtag - gdiff)
    -- found where we were created
    if splices ∧ e.tag = mkTag typeCreate 0 0 ||| (mkTag 0 0x3ff 0 &&& (gtag - gdiff)) then
      .error errNoent
    else
      -- move around splices
      let gdiff := if splices then gdiff + idShift (tagSplice e.tag) else gdiff
      if gmask &&& e.tag = gmask &&& (gtag - gdiff) then
        if tagIsDelete e.tag then .error errNoent
        else .ok (e.tag + gdiff, readPadded e.data (tagSize e.tag) gsize)
      else dirGetLoop gmask gtag gsize tags gdiff

/-- `lfs_dir_get` without device errors. -/
def dirGet (gdisk : GState) (dir : MetadataDir) (gmask gtag : Tag) :
    Except Int (Tag × List UInt8) :=
  -- synthetic moves
  let gdiff := if gstateHasmovehere gdisk dir.pair ∧ tagId gmask ≠ 0 ∧
    tagId gdisk.tag ≤ tagId gtag then 0#32 - mkTag 0 1 0 else 0#32
  dirGetLoop gmask gtag (tagSize gtag) dir.log.reverse gdiff

/-! ## The values that a log leaves -/

/-- What a tag does to the entries, for a lookup that tells the types under `mask` apart. A value
is the tag that set it. -/
def LogEntry.op (mask : Nat) (e : LogEntry) : Op Nat LogEntry :=
  if tagTy e.tag = typeCreate then .create (tagId e.tag)
  else if tagTy e.tag = typeDelete then .delete (tagId e.tag)
  else if tagTy e.tag < typeSplice then
    .put (tagId e.tag) fun k =>
      if k = mask &&& tagTy e.tag then some (if tagSize e.tag = 0x3ff then none else some e)
      else none
  else .skip

/-- The last value of each entry for each type under `mask`. -/
def lastValues (mask : Nat) (log : List LogEntry) : Records Nat LogEntry :=
  replay (log.map (LogEntry.op mask))

/-- What a lookup of entry `id` returns for a value. -/
def lookupResult (id gsize : Nat) : Option LogEntry → Except Int (Tag × List UInt8)
  | none => .error errNoent
  | some e => .ok (mkTag (tagTy e.tag) id (tagSize e.tag),
      readPadded e.data (tagSize e.tag) gsize)

def deleteCount (log : List LogEntry) : Nat :=
  log.countP fun e => tagTy e.tag = typeDelete

/-- The logs of the driver: a create tag carries no data, and a name that stands for an entry
without a create tag comes before every delete. -/
structure EntryLog (log : List LogEntry) (count : Nat) : Prop where
  count_eq : logCount log = some count
  creates : ∀ e ∈ log, tagTy e.tag = typeCreate → tagSize e.tag = 0
  names : ∀ n (h : n < log.length), tagTy log[n].tag < typeFrom → 0 < deleteCount (log.take n) →
    ∀ c ∈ logCount (log.take n), tagId log[n].tag < c

theorem EntryLog.of_append (H : EntryLog (log ++ [e]) count') :
    ∃ count, EntryLog log count ∧ tagIsValid e.tag = true ∧ TagKind e.tag count count' ∧
      (tagTy e.tag = typeCreate → tagSize e.tag = 0) ∧
      (tagTy e.tag < typeFrom → 0 < deleteCount log → tagId e.tag < count) := by
  obtain ⟨count, hlog, hvalid, he⟩ := (logCount_append_singleton log e _).mp H.count_eq
  refine ⟨count, ⟨hlog, fun e he => H.creates e (List.mem_append_left _ he), fun n h => ?_⟩, hvalid,
    tagCount_kind he, H.creates e (List.mem_append_right _ (.head _)), fun hty hdel => ?_⟩
  · have := H.names n (by rw [List.length_append]; omega)
    rwa [List.getElem_append_left h, List.take_append_of_le_length (by omega)] at this
  · have := H.names log.length (by simp)
    rw [List.getElem_concat_length rfl, List.take_left' rfl] at this
    exact this hty hdel count hlog

theorem deleteCount_append_singleton (log : List LogEntry) (e : LogEntry) :
    deleteCount (log ++ [e]) = deleteCount log + if tagTy e.tag = typeDelete then 1 else 0 := by
  rw [deleteCount, List.countP_append, List.countP_singleton]
  simp only [decide_eq_true_eq, deleteCount]

theorem lastValues_append_singleton (mask : Nat) (log : List LogEntry) (e : LogEntry) :
    lastValues mask (log ++ [e]) = (e.op mask).apply (lastValues mask log) := by
  rw [lastValues, List.map_append, List.map_singleton, KeyedLog.replay_snoc]
  rfl

/-! ## The tag that a lookup looks for -/

theorem mkTag_sub_idShift {type id size : Nat} {d : Int} (ht : type < 2 ^ 12) (hid : id < 2 ^ 10)
    (hs : size < 2 ^ 10) (hlo : d ≤ id) (hhi : id - d < 2 ^ 10) :
    mkTag type id size - idShift d = mkTag type (id - d).toNat size := by
  have hshift := idShift_toNat d
  have hlt := (idShift d).isLt
  have hnew : (id - d).toNat < 2 ^ 10 := by omega
  rw [← BitVec.toNat_inj, BitVec.toNat_sub, mkTag_toNat ht hid hs, mkTag_toNat ht hnew hs]
  omega

/-- A tag with the id that a lookup asked for in place of its own. -/
theorem add_mkTag_sub {tag : Tag} {type id size : Nat} (hvalid : tagIsValid tag = true)
    (ht : type < 2 ^ 11) (hid : id < 2 ^ 10) (hs : size < 2 ^ 10) :
    tag + (mkTag type id size - mkTag type (tagId tag) size) =
      mkTag (tagTy tag) id (tagSize tag) := by
  have hty := tagTy_lt tag
  rw [← BitVec.toNat_inj, BitVec.toNat_add, BitVec.toNat_sub, mkTag_toNat (by omega) hid hs,
    mkTag_toNat (by omega) (tagId_lt tag) hs, mkTag_toNat (by omega) hid (tagSize_lt tag)]
  rw [tagIsValid_iff] at hvalid
  rw [tagTy, tagId_eq, tagSize_eq]
  omega

/-- Only types of values look like one under a mask with the bit of `typeSplice`. -/
theorem lt_typeSplice_of_and_eq (hmask : typeSplice ≤ mask) (hmask' : mask < 2 ^ 11)
    (hty : ty < typeSplice) (hty' : ty' < 2 ^ 11) (h : mask &&& ty' = mask &&& ty) :
    ty' < typeSplice := by
  have hbit : (mask &&& ty').testBit 10 = (mask &&& ty).testBit 10 := by rw [h]
  simp only [typeSplice] at hmask hty ⊢
  have hmask : mask / 2 ^ 10 % 2 = 1 := by omega
  have hty : ty / 2 ^ 10 % 2 ≠ 1 := by omega
  rw [Nat.testBit_and, Nat.testBit_and] at hbit
  simp only [Nat.testBit_eq_decide_div_mod_eq, hmask, hty, decide_true, decide_false,
    Bool.and_false, Bool.true_and, decide_eq_false_iff_not] at hbit
  omega

/-! ## Backward lookup is forward replay -/

/-- What a tag that moves no entry writes. -/
theorem LogEntry.op_apply (mask : Nat) (h : tagTy e.tag / 2 ^ 8 ≠ 4) (r : Records Nat LogEntry)
    (j k : Nat) :
    (LogEntry.op mask e).apply r j k =
      if tagTy e.tag < typeSplice ∧ j = tagId e.tag ∧ k = mask &&& tagTy e.tag then
        if tagSize e.tag = 0x3ff then none else some e
      else r j k := by
  have hc : tagTy e.tag ≠ typeCreate := by simp only [typeCreate]; omega
  have hd : tagTy e.tag ≠ typeDelete := by simp only [typeDelete]; omega
  rw [op, if_neg hc, if_neg hd]
  by_cases hty : tagTy e.tag < typeSplice
  · rw [if_pos hty]
    simp only [Op.apply, hty, true_and]
    by_cases hj : j = tagId e.tag
    · by_cases hk : k = mask &&& tagTy e.tag
      · simp only [hj, hk, ↓reduceIte, and_self, Option.getD_some]
      · simp only [hj, hk, ↓reduceIte, and_false, Option.getD_none]
    · simp only [hj, ↓reduceIte, false_and]
  · rw [if_neg hty, if_neg fun h => hty h.1]
    rfl

section
variable {mask : Nat} (hmask : mask < 2 ^ 11)

include hmask

theorem tagId_mask_ne_zero : tagId (mkTag mask 0x3ff 0) ≠ 0 := by
  rw [(mkTag_fields hmask (by decide) (by decide)).2.1]
  decide

theorem dirGetLoop_created (hvalid : tagIsValid e.tag = true) (hc : tagTy e.tag = typeCreate)
    (hsize : tagSize e.tag = 0) (hid : tagId e.tag = tagId (gtag - gdiff))
    (tags : List LogEntry) :
    dirGetLoop (mkTag mask 0x3ff 0) gtag gsize (e :: tags) gdiff = .error errNoent := by
  have htype : tagType1 e.tag = typeSplice := by
    rw [tagType1_of_valid hvalid, hc]
    rfl
  have hcreated := (eq_or_id_iff (show typeCreate < 2 ^ 11 by decide) e.tag (gtag - gdiff)).mpr
    ⟨hvalid, hc, hid, hsize⟩
  rw [dirGetLoop]
  exact if_pos ⟨⟨tagId_mask_ne_zero hmask, htype, hid.le⟩, hcreated⟩

/-- A create or delete that moved the searched entry. -/
theorem dirGetLoop_moved (hvalid : tagIsValid e.tag = true) (hsplice : tagTy e.tag / 2 ^ 8 = 4)
    (hid : tagId e.tag ≤ tagId (gtag - gdiff))
    (hn : ¬ (tagTy e.tag = typeCreate ∧ tagId e.tag = tagId (gtag - gdiff)))
    (hne : mask &&& tagTy e.tag ≠
      mask &&& tagTy (gtag - (gdiff + idShift (tagSplice e.tag)))) (tags : List LogEntry) :
    dirGetLoop (mkTag mask 0x3ff 0) gtag gsize (e :: tags) gdiff =
      dirGetLoop (mkTag mask 0x3ff 0) gtag gsize tags (gdiff + idShift (tagSplice e.tag)) := by
  have htype : tagType1 e.tag = typeSplice := by
    rw [tagType1_of_valid hvalid, hsplice]
    rfl
  have hsplices : tagId (mkTag mask 0x3ff 0) ≠ 0 ∧ tagType1 e.tag = typeSplice ∧
      tagId e.tag ≤ tagId (gtag - gdiff) := ⟨tagId_mask_ne_zero hmask, htype, hid⟩
  have hcreated : ¬ e.tag = mkTag typeCreate 0 0 ||| (mkTag 0 0x3ff 0 &&& (gtag - gdiff)) := by
    rw [eq_or_id_iff (by decide)]
    exact fun h => hn ⟨h.2.1, h.2.2.1⟩
  have hmatch : ¬ mkTag mask 0x3ff 0 &&& e.tag =
      mkTag mask 0x3ff 0 &&& (gtag - (gdiff + idShift (tagSplice e.tag))) := by
    rw [and_mask_eq_iff hmask]
    exact fun h => hne h.1
  rw [dirGetLoop]
  simp only [if_pos hsplices, if_neg hmatch]
  exact if_neg fun h => hcreated h.2

theorem dirGetLoop_other (hvalid : tagIsValid e.tag = true)
    (hid : tagTy e.tag / 2 ^ 8 = 4 → tagId (gtag - gdiff) < tagId e.tag) (tags : List LogEntry) :
    dirGetLoop (mkTag mask 0x3ff 0) gtag gsize (e :: tags) gdiff =
      if mask &&& tagTy e.tag = mask &&& tagTy (gtag - gdiff) ∧
          tagId e.tag = tagId (gtag - gdiff) then
        if tagSize e.tag = 0x3ff then .error errNoent
        else .ok (e.tag + gdiff, readPadded e.data (tagSize e.tag) gsize)
      else dirGetLoop (mkTag mask 0x3ff 0) gtag gsize tags gdiff := by
  have hsplices : ¬ (tagId (mkTag mask 0x3ff 0) ≠ 0 ∧ tagType1 e.tag = typeSplice ∧
      tagId e.tag ≤ tagId (gtag - gdiff)) := by
    rintro ⟨_, htype, hle⟩
    rw [tagType1_of_valid hvalid, typeSplice] at htype
    have := hid (by omega)
    omega
  rw [dirGetLoop]
  simp only [if_neg hsplices, and_mask_eq_iff hmask, tagIsDelete_iff]
  exact if_neg fun h => hsplices h.1

end

theorem LogEntry.op_create (mask : Nat) (h : tagTy e.tag = typeCreate) :
    LogEntry.op mask e = .create (tagId e.tag) := if_pos h

theorem LogEntry.op_delete (mask : Nat) (h : tagTy e.tag = typeDelete) :
    LogEntry.op mask e = .delete (tagId e.tag) := by
  rw [op, if_neg (by rw [h]; decide), if_pos h]

theorem LogEntry.op_splice (mask : Nat) (h : tagTy e.tag / 2 ^ 8 = 4) (j k : Nat) :
    ¬ (LogEntry.op mask e).Writes j k := by
  rw [op]
  split
  · exact id
  · split
    · exact id
    · rw [if_neg (by simp only [typeSplice]; omega)]
      exact id

theorem dirGetLoop_splice (hmask : typeSplice ≤ mask) (hmask' : mask < 2 ^ 11)
    (hty : ty < typeSplice) (hgsize : gsize < 2 ^ 10) (hvalid : tagIsValid e.tag = true)
    (hsplice : tagTy e.tag = typeCreate ∧ tagSize e.tag = 0 ∨ tagTy e.tag = typeDelete)
    (hj : j < 2 ^ 10) (hj' : tagTy e.tag = typeDelete → j + 1 < 2 ^ 10)
    (hgdiff : gtag - gdiff = mkTag ty j gsize) (tags : List LogEntry) :
    (e.op mask).origin j = none ∧
      dirGetLoop (mkTag mask 0x3ff 0) gtag gsize (e :: tags) gdiff = .error errNoent ∨
    ∃ i gdiff', (e.op mask).origin j = some i ∧ gtag - gdiff' = mkTag ty i gsize ∧
      dirGetLoop (mkTag mask 0x3ff 0) gtag gsize (e :: tags) gdiff =
        dirGetLoop (mkTag mask 0x3ff 0) gtag gsize tags gdiff' := by
  have hty' : ty < 2 ^ 11 := by
    simp only [typeSplice] at hty
    omega
  have hsplice' : tagTy e.tag / 2 ^ 8 = 4 := by
    rcases hsplice with ⟨h, _⟩ | h <;> rw [h] <;> rfl
  have hne : mask &&& tagTy e.tag ≠ mask &&& ty := fun h => by
    have := lt_typeSplice_of_and_eq hmask hmask' hty (tagTy_lt e.tag) h
    simp only [typeSplice] at this
    omega
  obtain ⟨htyJ, hidJ, _⟩ := mkTag_fields hty' hj hgsize
  by_cases hlt : j < tagId e.tag
  · -- the searched entry lies before it
    refine .inr ⟨j, gdiff, ?_, hgdiff, ?_⟩
    · rcases hsplice with ⟨hc, _⟩ | hd
      · rw [LogEntry.op_create mask hc, Op.origin, if_pos hlt]
      · rw [LogEntry.op_delete mask hd, Op.origin, if_pos hlt]
    · rw [dirGetLoop_other hmask' hvalid fun _ => by rwa [hgdiff, hidJ],
        if_neg fun h => hne (by rw [h.1, hgdiff, htyJ])]
  · have hmoved : ∀ d, tagSplice e.tag = d → d ≤ j → j - d < 2 ^ 10 →
        ¬ (tagTy e.tag = typeCreate ∧ tagId e.tag = j) →
        gtag - (gdiff + idShift d) = mkTag ty (j - d).toNat gsize ∧
        dirGetLoop (mkTag mask 0x3ff 0) gtag gsize (e :: tags) gdiff =
          dirGetLoop (mkTag mask 0x3ff 0) gtag gsize tags (gdiff + idShift d) := by
      rintro d rfl hlo hhi hn
      have hmove : gtag - (gdiff + idShift (tagSplice e.tag)) =
          mkTag ty (j - tagSplice e.tag).toNat gsize := by
        rw [← BitVec.sub_sub, hgdiff, mkTag_sub_idShift (by omega) hj hgsize hlo hhi]
      refine ⟨hmove, dirGetLoop_moved hmask' hvalid hsplice' ?_ ?_ ?_ _⟩
      · rw [hgdiff, hidJ]
        omega
      · rwa [hgdiff, hidJ]
      · rwa [hmove, (mkTag_fields hty' (by omega) hgsize).1]
    rcases hsplice with ⟨hc, hsize⟩ | hd
    · rw [LogEntry.op_create mask hc, Op.origin, if_neg hlt]
      by_cases heq : j = tagId e.tag
      · exact .inl ⟨if_pos heq,
          dirGetLoop_created hmask' hvalid hc hsize (by rw [hgdiff, hidJ, heq]) _⟩
      · have h := hmoved 1 (tagSplice_create hc) (by omega) (by omega) fun h => heq h.2.symm
        rw [show (j - 1 : Int).toNat = j - 1 by omega] at h
        exact .inr ⟨j - 1, _, if_neg heq, h⟩
    · have hj' := hj' hd
      have h := hmoved (-1) (tagSplice_delete hd) (by omega) (by omega) fun h => by
        rw [hd] at h
        cases h.1
      refine .inr ⟨j + 1, _, ?_, h⟩
      rw [LogEntry.op_delete mask hd, Op.origin, if_neg hlt]

/-- The run of the loop, from a search that has come to id `j`. -/
theorem dirGetLoop_replay (hmask : typeSplice ≤ mask) (hmask' : mask < 2 ^ 11)
    (hty : ty < typeSplice) (hi : i < 2 ^ 10) (hgsize : gsize < 2 ^ 10)
    (hlog : EntryLog log count) (hj : j ≤ count ∨ j + deleteCount log < 2 ^ 10)
    (hgdiff : mkTag ty i gsize - gdiff = mkTag ty j gsize) :
    dirGetLoop (mkTag mask 0x3ff 0) (mkTag ty i gsize) gsize log.reverse gdiff =
      lookupResult i gsize (lastValues mask log j (mask &&& ty)) := by
  induction log using List.reverseRecOn generalizing count j gdiff with
  | nil => rfl
  | append_singleton log e ih =>
    have hcount' := logCount_lt hlog.count_eq
    obtain ⟨count, hprefix, hvalid, hkind, hcreate, hname⟩ := hlog.of_append
    have hcount := logCount_lt hprefix.count_eq
    rw [deleteCount_append_singleton] at hj
    rw [List.reverse_append, List.reverse_singleton, List.singleton_append,
      lastValues_append_singleton]
    by_cases hsplice : tagTy e.tag / 2 ^ 8 = 4
    · have hkind := hkind.splice hsplice
      have hsplice' : tagTy e.tag = typeCreate ∧ tagSize e.tag = 0 ∨ tagTy e.tag = typeDelete :=
        hkind.imp (fun h => ⟨h.1, hcreate h.1⟩) And.left
      have hroom : tagTy e.tag = typeDelete → j + 1 < 2 ^ 10 := fun hd => by
        rw [if_pos hd] at hj
        rcases hkind with ⟨hc, _⟩ | ⟨_, hid, rfl⟩
        · cases hc.symm.trans hd
        · omega
      rw [Op.apply_of_not_writes (LogEntry.op_splice mask hsplice j _)]
      rcases dirGetLoop_splice hmask hmask' hty hgsize hvalid hsplice' (by omega) hroom hgdiff
        log.reverse with ⟨horigin, hloop⟩ | ⟨j', gdiff', horigin, hgdiff', hloop⟩
      · rw [horigin, hloop]
        rfl
      · rw [horigin, hloop]
        refine ih hprefix ?_ hgdiff'
        rcases hkind with ⟨hc, hid, rfl⟩ | ⟨hd, hid, rfl⟩
        · rw [hc, if_neg (by decide), Nat.add_zero] at hj
          rw [LogEntry.op_create mask hc, Op.origin] at horigin
          grind
        · rw [if_pos hd] at hj
          rw [LogEntry.op_delete mask hd, Op.origin] at horigin
          grind
    · have hd : tagTy e.tag ≠ typeDelete := by simp only [typeDelete]; omega
      rw [if_neg hd, Nat.add_zero] at hj
      have hty' : ty < 2 ^ 11 := by
        simp only [typeSplice] at hty
        omega
      obtain ⟨htyJ, hidJ, _⟩ := mkTag_fields hty' (show j < 2 ^ 10 by omega) hgsize
      rw [LogEntry.op_apply _ hsplice,
        dirGetLoop_other hmask' hvalid fun h => absurd h hsplice, hgdiff, htyJ, hidJ]
      by_cases hmatch : mask &&& tagTy e.tag = mask &&& ty ∧ tagId e.tag = j
      · have hwrites : tagTy e.tag < typeSplice ∧ j = tagId e.tag ∧
            mask &&& ty = mask &&& tagTy e.tag :=
          ⟨lt_typeSplice_of_and_eq hmask hmask' hty (tagTy_lt e.tag) hmatch.1, hmatch.2.symm,
            hmatch.1.symm⟩
        rw [if_pos hmatch, if_pos hwrites]
        by_cases hsize : tagSize e.tag = 0x3ff
        · rw [if_pos hsize, if_pos hsize]
          rfl
        · have hback : gdiff = mkTag ty i gsize - mkTag ty (tagId e.tag) gsize := by
            rw [hmatch.2, ← hgdiff, BitVec.eq_sub_iff_add_eq, BitVec.add_comm,
              BitVec.sub_add_cancel]
          rw [if_neg hsize, if_neg hsize, lookupResult, ← add_mkTag_sub hvalid hty' hi hgsize,
            ← hback]
      · rw [if_neg hmatch, if_neg fun h => hmatch ⟨h.2.2.symm, h.2.1.symm⟩]
        refine ih hprefix ?_ hgdiff
        by_cases hdel : 0 < deleteCount log
        · cases hkind with
          | create hc => exact absurd (by rw [hc]; rfl) hsplice
          | delete hd' => exact absurd hd' hd
          | name hn => have := hname hn hdel; omega
          | value => exact hj
          | other => exact hj
        · right
          omega

/-- **Backward lookup is forward replay**, for the types of values and for every id that the moves
of the lookup keep in its field: all ids of entries are such. -/
theorem dirGet_replay {dir : MetadataDir} (hmask : typeSplice ≤ mask) (hmask' : mask < 2 ^ 11)
    (hty : ty < typeSplice) (hgsize : gsize < 2 ^ 10) (hlog : EntryLog dir.log count)
    (hgdisk : gstateHasmovehere gdisk dir.pair = false)
    (hi : i < count ∨ i + deleteCount dir.log < 2 ^ 10) :
    dirGet gdisk dir (mkTag mask 0x3ff 0) (mkTag ty i gsize) =
      lookupResult i gsize (lastValues mask dir.log i (mask &&& ty)) := by
  have hcount := logCount_lt hlog.count_eq
  have hty' : ty < 2 ^ 11 := by
    simp only [typeSplice] at hty
    omega
  have hsize := (mkTag_fields hty' (show i < 2 ^ 10 by omega) hgsize).2.2
  rw [dirGet, hsize, if_neg fun h => by rw [hgdisk] at h; cases h.1]
  exact dirGetLoop_replay hmask hmask' hty (by omega) hgsize hlog (hi.imp_left Nat.le_of_lt)
    (BitVec.sub_zero _)

/-- Entries `a` and `b`, then `c` in front of them, then `a` renamed and `c` deleted. -/
def shiftedLog : List LogEntry :=
  [⟨mkTag typeReg 0 1, [97]⟩, ⟨mkTag typeInlinestruct 0 1, [1]⟩, ⟨mkTag typeReg 1 1, [98]⟩,
   ⟨mkTag typeInlinestruct 1 1, [2]⟩, ⟨mkTag typeCreate 0 0, []⟩, ⟨mkTag typeReg 0 1, [99]⟩,
   ⟨mkTag typeReg 1 1, [100]⟩, ⟨mkTag typeDelete 0 0, []⟩, ⟨mkTag typeCrc 0x3ff 4, [0, 0, 0, 0]⟩]

theorem shiftedLog_entryLog : EntryLog shiftedLog 2 :=
  ⟨by decide, by decide, by decide⟩

theorem dirGet_replay_shifted :
    dirGet {} ⟨(0, 1), shiftedLog, 2, false, (0, 1)⟩ (mkTag 0x700 0x3ff 0) (mkTag typeName 0 2) =
      .ok (mkTag typeReg 0 1, [100, 0]) :=
  dirGet_replay (by decide) (by decide) (by decide) (by decide) shiftedLog_entryLog (by decide)
    (.inl (by decide))

/-- Entries `a` and `b`, both deleted again. -/
def emptiedLog : List LogEntry :=
  [⟨mkTag typeCreate 0 0, []⟩, ⟨mkTag typeDir 0 1, [97]⟩, ⟨mkTag typeCreate 1 0, []⟩,
   ⟨mkTag typeReg 1 1, [98]⟩, ⟨mkTag typeDelete 1 0, []⟩, ⟨mkTag typeDelete 0 0, []⟩,
   ⟨mkTag typeCrc 0x3ff 4, [0, 0, 0, 0]⟩]

/-- Two deletes carry the id 0x3fe into the type, and the lookup of a file finds the deleted
directory `a`. A lookup of creates finds the one that moved the searched entry. -/
theorem dirGet_replay_fails :
    EntryLog emptiedLog 0 ∧
    dirGet {} ⟨(0, 1), emptiedLog, 0, false, (0, 1)⟩ (mkTag 0x7ff 0x3ff 0)
        (mkTag typeReg 0x3fe 1) = .ok (mkTag typeReg 0x3fe 1, [97]) ∧
    lookupResult 0x3fe 1 (lastValues 0x7ff emptiedLog 0x3fe (0x7ff &&& typeReg)) =
      .error errNoent ∧
    EntryLog (shiftedLog.take 6) 3 ∧
    dirGet {} ⟨(0, 1), shiftedLog.take 6, 3, false, (0, 1)⟩ (mkTag 0x7ff 0x3ff 0)
        (mkTag typeCreate 1 0) = .ok (mkTag typeCreate 1 0, []) ∧
    lookupResult 1 0 (lastValues 0x7ff (shiftedLog.take 6) 1 (0x7ff &&& typeCreate)) =
      .error errNoent :=
  ⟨⟨by decide, by decide, by decide⟩, by decide, by decide,
    ⟨by decide, by decide, by decide⟩, by decide, by decide⟩

end LittleFs
