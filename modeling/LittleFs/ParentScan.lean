import LittleFs.Compaction
import LittleFs.Fetch

/-! What the scans of `lfs_dir_fetchmatch` say about the directory that a log stands for: the
number of its entries, and for `lfs_fs_parent` the entry that refers to a child. -/

namespace LittleFs

/-! ## Logs by their last tag -/

theorem replayLog_append_singleton (log : List LogEntry) (e : LogEntry) :
    replayLog (log ++ [e]) = (tagOp e.tag e.data).apply (replayLog log) := by
  rw [replayLog, List.map_append, List.map_singleton, KeyedLog.replay_snoc]
  rfl

/-- What a tag that is neither a create nor a delete writes. -/
theorem tagOp_apply (h : tagTy tag / 2 ^ 8 ≠ 4) (data : List UInt8)
    (r : KeyedLog.Records Nat EntryValue) (i k : Nat) :
    (tagOp tag data).apply r i k =
      if tagTy tag < typeSplice ∧ i = tagId tag ∧ k = typeKey (tagTy tag) then
        if tagSize tag = 0x3ff then none else some (tagTy tag, data)
      else r i k := by
  have hc : tagTy tag ≠ typeCreate := by simp only [typeCreate]; omega
  have hd : tagTy tag ≠ typeDelete := by simp only [typeDelete]; omega
  rw [tagOp, if_neg hc, if_neg hd]
  by_cases hty : tagTy tag < typeSplice
  · rw [if_pos hty]
    simp only [KeyedLog.Op.apply, tagPatch, hty, true_and]
    by_cases hi : i = tagId tag
    · by_cases hk : k = typeKey (tagTy tag)
      · simp only [hi, hk, ↓reduceIte, and_self, Option.getD_some]
      · simp only [hi, hk, ↓reduceIte, and_false, Option.getD_none]
    · simp only [hi, ↓reduceIte, false_and]
  · rw [if_neg hty, if_neg fun h => hty h.1]
    rfl

theorem TagKind.id_lt (H : TagKind tag count count') (h : tagTy tag < typeSplice) :
    tagId tag < count' := by
  cases H with
  | create hc => simp only [typeCreate, typeSplice] at *; omega
  | delete hd => simp only [typeDelete, typeSplice] at *; omega
  | name => exact lt_of_lt_of_le (Nat.lt_succ_self _) (Nat.le_max_right ..)
  | value _ _ hid => exact hid
  | other hc => simp only [typeCrc, typeSplice] at *; omega

theorem tagOp_apply_eq_none {r : KeyedLog.Records Nat EntryValue} (hk : TagKind tag count count')
    (hr : ∀ i, count ≤ i → r i k = none) (hi : count' ≤ i) (data : List UInt8) :
    (tagOp tag data).apply r i k = none := by
  by_cases hsplice : tagTy tag / 2 ^ 8 = 4
  · rcases hk.splice hsplice with ⟨hty, hid, rfl⟩ | ⟨hty, hid, rfl⟩
    · rw [tagOp_create hty]
      simp only [KeyedLog.Op.apply]
      rw [if_neg (by omega), if_neg (by omega), hr _ (by omega)]
    · rw [tagOp_delete hty]
      simp only [KeyedLog.Op.apply]
      rw [if_neg (by omega), hr _ (by omega)]
  · have hle := hk.le_of_not_splice hsplice
    rw [tagOp_apply hsplice, if_neg, hr _ (by omega)]
    rintro ⟨hty, hi', -⟩
    have := hk.id_lt hty
    omega

/-- There is nothing behind the last entry. -/
theorem replayLog_eq_none (h : logCount log = some count) (hi : count ≤ i) (k : Nat) :
    replayLog log i k = none := by
  induction log using List.reverseRecOn generalizing count i with
  | nil => rfl
  | append_singleton log e ih =>
    obtain ⟨_, hlog, _, he⟩ := (logCount_append_singleton log e count).mp h
    rw [replayLog_append_singleton]
    exact tagOp_apply_eq_none (tagCount_kind he) (fun _ hi => ih hlog hi) hi _

/-! ## The number of entries -/

theorem FetchScan.modify_splice (s : FetchScan) (hvalid : tagIsValid e.tag = true)
    (h : tagTy e.tag / 2 ^ 8 = 4) :
    s.modify e = { s with
      count := ((s.count + tagSplice e.tag) % 2 ^ 16).toNat
      besttag := spliceBesttag e.tag s.besttag } := by
  rw [modify, tagType1_of_valid hvalid, h, if_neg (by decide), if_pos (by decide)]

theorem FetchScan.modify_name (s : FetchScan) (hvalid : tagIsValid e.tag = true)
    (h : tagTy e.tag / 2 ^ 8 = 0) :
    s.modify e =
      { s with count := if tagId e.tag ≥ s.count then tagId e.tag + 1 else s.count } := by
  rw [modify, tagType1_of_valid hvalid, h, if_pos (by decide)]

theorem FetchScan.modify_other (s : FetchScan) (hvalid : tagIsValid e.tag = true)
    (hn : tagTy e.tag / 2 ^ 8 ≠ 0) (hs : tagTy e.tag / 2 ^ 8 ≠ 4) :
    (s.modify e).count = s.count ∧ (s.modify e).besttag = s.besttag := by
  rw [modify, tagType1_of_valid hvalid, if_neg (by simp only [typeName]; omega),
    if_neg (by simp only [typeSplice]; omega)]
  split <;> exact ⟨rfl, rfl⟩

theorem FetchScan.modify_count {s : FetchScan} (hk : TagKind e.tag s.count count')
    (hvalid : tagIsValid e.tag = true) (hlt : count' < 0x3ff) : (s.modify e).count = count' := by
  cases hk with
  | create hty hid =>
    rw [modify_splice s hvalid (by rw [hty]; rfl), tagSplice_create hty]
    change ((s.count + 1 : Int) % 2 ^ 16).toNat = s.count + 1
    omega
  | delete hty hid =>
    rw [modify_splice s hvalid (by rw [hty]; rfl), tagSplice_delete hty]
    change ((s.count + -1 : Int) % 2 ^ 16).toNat = s.count - 1
    omega
  | name hty =>
    rw [modify_name s hvalid (by simp only [typeFrom] at hty; omega)]
    change (if tagId e.tag ≥ s.count then tagId e.tag + 1 else s.count) = _
    split <;> omega
  | value hlo hty =>
    simp only [typeStruct, typeSplice] at hlo hty
    exact (modify_other s hvalid (by omega) (by omega)).1
  | other hty =>
    simp only [typeCrc] at hty
    exact (modify_other s hvalid (by omega) (by omega)).1

theorem FetchScan.step_count (fmask ftag : Tag) (cb : Tag → List UInt8 → Cmp) {s : FetchScan}
    (hk : TagKind e.tag s.count count') (hvalid : tagIsValid e.tag = true) (hlt : count' < 0x3ff) :
    (s.step fmask ftag cb e).count = count' := by
  rw [step]
  split
  · have htype := (tagType1_of_valid hvalid).symm.trans ‹_›
    cases hk with
    | create hty => simp only [hty, typeCreate, typeCrc] at htype; omega
    | delete hty => simp only [hty, typeDelete, typeCrc] at htype; omega
    | name hty => simp only [typeFrom, typeCrc] at *; omega
    | value => rfl
    | other => rfl
  · have hm := modify_count hk hvalid hlt
    simp only
    split <;> exact hm

/-- A fetch counts the entries. -/
theorem scan_count (fmask ftag : Tag) (cb : Tag → List UInt8 → Cmp)
    (h : logCount log = some count) :
    (log.foldl (FetchScan.step fmask ftag cb) {}).count = count := by
  induction log using List.reverseRecOn generalizing count with
  | nil =>
    cases h
    rfl
  | append_singleton log e ih =>
    have hlt := logCount_lt h
    obtain ⟨count, hlog, hvalid, he⟩ := (logCount_append_singleton log e _).mp h
    have hscan := ih hlog
    rw [List.foldl_append]
    refine FetchScan.step_count fmask ftag cb ?_ hvalid hlt
    rw [hscan]
    exact tagCount_kind he

/-! ## The entry that refers to a child -/

/-- Entry `i` refers to a pair that shares a block with `child`. -/
def NamesChild (r : KeyedLog.Records Nat EntryValue) (child : BlockPair) (i : Nat) : Prop :=
  ∃ data, r i typeStruct = some (typeDirstruct, data) ∧ SharesBlock (pairFromLe64 data) child

/-- The logs of pairs that hold references: a reference is only ever written over by another one,
a delete tag carries no size, and every entry has a name. -/
structure DirLog (log : List LogEntry) (count : Nat) : Prop where
  count_eq : logCount log = some count
  deletes : ∀ e ∈ log, tagTy e.tag = typeDelete → tagSize e.tag = 0
  dirstructs : ∀ n (h : n < log.length), typeKey (tagTy log[n].tag) = typeStruct →
    (replayLog (log.take n) (tagId log[n].tag) typeStruct).map Prod.fst = some typeDirstruct →
      tagTy log[n].tag = typeDirstruct ∧ tagSize log[n].tag = 16
  named : ∀ i < count, (replayLog log i typeName).isSome

/-- What the best tag says about the entries so far. -/
structure FindsChild (child : BlockPair) (count : Nat) (r : KeyedLog.Records Nat EntryValue)
    (besttag : Tag) : Prop where
  le : besttag ≠ -1#32 → tagId besttag ≤ count
  found : tagIsValid besttag = true →
    tagTy besttag = typeDirstruct ∧ tagSize besttag = 16 ∧ NamesChild r child (tagId besttag)

theorem matches_dirstruct_iff (tag : Tag) :
    mkTag typeMovestate 0 0x3ff &&& tag = mkTag typeMovestate 0 0x3ff &&& mkTag typeDirstruct 0 16 ↔
      tagTy tag = typeDirstruct ∧ tagSize tag = 16 := by
  have hsize := tagSize_lt tag
  have hlow := BitField.and_mask tag.toNat 0 10
  have hhigh := BitField.and_mask tag.toNat 20 11
  have hmask : (mkTag typeMovestate 0 0x3ff).toNat =
      (2 ^ 11 - 1) * 2 ^ 20 ||| (2 ^ 10 - 1) * 2 ^ 0 :=
    rfl
  have hlt : tag.toNat / 2 ^ 0 % 2 ^ 10 * 2 ^ 0 < 2 ^ 20 := by omega
  have hand : (mkTag typeMovestate 0 0x3ff &&& tag).toNat = tagTy tag * 2 ^ 20 + tagSize tag := by
    rw [BitVec.toNat_and, Nat.and_comm, hmask, Nat.and_or_distrib_left, hhigh, hlow,
      BitField.or_of_lt hlt, tagTy, tagSize_eq]
    omega
  rw [← BitVec.toNat_inj, hand]
  change _ = 0x200 * 2 ^ 20 + 16 ↔ _
  simp only [typeDirstruct]
  omega

theorem tagIsValid_or (tag : Tag) : tagIsValid (tag ||| 0x80000000#32) = false :=
  tagIsValid_read tag

theorem NamesChild.lt (H : NamesChild (replayLog log) child i) (h : logCount log = some count) :
    i < count := by
  obtain ⟨data, hdata, _⟩ := H
  refine Nat.lt_of_not_le fun hi => ?_
  rw [replayLog_eq_none h hi] at hdata
  cases hdata

theorem FindsChild.create (H : FindsChild child count r besttag) (hty : tagTy tag = typeCreate)
    (hlt : count + 1 < 0x3ff) (data : List UInt8) :
    FindsChild child (count + 1) ((tagOp tag data).apply r) (spliceBesttag tag besttag) := by
  have hne : ¬ tag = mkTag typeDelete 0 0 ||| (mkTag 0 0x3ff 0 &&& besttag) := fun h => by
    have := ((eq_or_id_iff (by decide) tag besttag).mp h).2.1
    rw [hty] at this
    cases this
  rw [spliceBesttag, if_neg hne, tagSplice_create hty, tagOp_create hty]
  split
  · obtain ⟨hnone, hid⟩ := (‹_ ∧ _› : besttag ≠ -1#32 ∧ tagId tag ≤ tagId besttag)
    have hle := H.le hnone
    have hmove := tagId_add_idShift besttag (d := 1) (by omega) (by omega)
    have hsame := sameButId_add_idShift besttag (d := 1) (by omega) (by omega)
    refine ⟨fun _ => by omega, fun hvalid => ?_⟩
    obtain ⟨hty', hsize, data', hdata, hshares⟩ := H.found (hsame.valid.symm.trans hvalid)
    refine ⟨hsame.ty.trans hty', hsame.size.trans hsize, data', ?_, hshares⟩
    have hid' : tagId (besttag + idShift 1) = tagId besttag + 1 := by omega
    simp only [KeyedLog.Op.apply, hid']
    rw [if_neg (by omega), if_neg (by omega), Nat.add_sub_cancel, hdata]
  · rename_i hgt
    refine ⟨fun h => (H.le h).trans (Nat.le_succ _), fun hvalid => ?_⟩
    obtain ⟨hty', hsize, data', hdata, hshares⟩ := H.found hvalid
    have hnone : besttag ≠ -1#32 := fun h => by rw [h] at hvalid; cases hvalid
    have hid : tagId besttag < tagId tag := Nat.lt_of_not_le fun h => hgt ⟨hnone, h⟩
    refine ⟨hty', hsize, data', ?_, hshares⟩
    simp only [KeyedLog.Op.apply, if_pos hid, hdata]

theorem FindsChild.delete (H : FindsChild child count r besttag) (hty : tagTy tag = typeDelete)
    (hvalid : tagIsValid tag = true) (hsize : tagSize tag = 0) (hid : tagId tag < count)
    (hlt : count < 0x3ff) (data : List UInt8) :
    FindsChild child (count - 1) ((tagOp tag data).apply r) (spliceBesttag tag besttag) := by
  have hdelete := eq_or_id_iff (show typeDelete < 2 ^ 11 by decide) tag besttag
  rw [spliceBesttag, tagSplice_delete hty, tagOp_delete hty]
  split
  · have hsame := (hdelete.mp ‹_›).2.2.1
    refine ⟨fun _ => ?_, fun h => ?_⟩
    · rw [tagId_read]
      omega
    · rw [tagIsValid_read] at h
      cases h
  · have hne : tagId tag ≠ tagId besttag := fun h => ‹¬ _› (hdelete.mpr ⟨hvalid, hty, h, hsize⟩)
    split
    · obtain ⟨hnone, hle'⟩ := (‹_ ∧ _› : besttag ≠ -1#32 ∧ tagId tag ≤ tagId besttag)
      have hle := H.le hnone
      have hmove := tagId_add_idShift besttag (d := -1) (by omega) (by omega)
      have hsame := sameButId_add_idShift besttag (d := -1) (by omega) (by omega)
      refine ⟨fun _ => by omega, fun hvalid => ?_⟩
      obtain ⟨hty', hsize, data', hdata, hshares⟩ := H.found (hsame.valid.symm.trans hvalid)
      refine ⟨hsame.ty.trans hty', hsame.size.trans hsize, data', ?_, hshares⟩
      have hid' : tagId (besttag + idShift (-1)) = tagId besttag - 1 := by omega
      simp only [KeyedLog.Op.apply, hid']
      rw [if_neg (by omega), Nat.sub_add_cancel (by omega), hdata]
    · rename_i hgt
      replace hgt : besttag ≠ -1#32 → tagId besttag < tagId tag := fun hnone =>
        Nat.lt_of_not_le fun h => hgt ⟨hnone, h⟩
      refine ⟨fun h => by have := hgt h; omega, fun hvalid => ?_⟩
      obtain ⟨hty', hsize, data', hdata, hshares⟩ := H.found hvalid
      have hnone : besttag ≠ -1#32 := fun h => by rw [h] at hvalid; cases hvalid
      refine ⟨hty', hsize, data', ?_, hshares⟩
      simp only [KeyedLog.Op.apply, if_pos (hgt hnone), hdata]

/-- A tag that moves no entry: the best tag stays unless the tag matches. -/
theorem FindsChild.put (H : FindsChild child count r besttag) (hty : tagTy tag / 2 ^ 8 ≠ 4)
    (hle : count ≤ count')
    (hkeep : ¬ (tagTy tag = typeDirstruct ∧ tagSize tag = 16 ∧ tagId tag = tagId besttag))
    (hdir : typeKey (tagTy tag) = typeStruct → (r (tagId tag) typeStruct).map Prod.fst =
      some typeDirstruct → tagTy tag = typeDirstruct ∧ tagSize tag = 16) (data : List UInt8) :
    FindsChild child count' ((tagOp tag data).apply r) besttag := by
  refine ⟨fun h => (H.le h).trans hle, fun hvalid => ?_⟩
  obtain ⟨hty', hsize, data', hdata, hshares⟩ := H.found hvalid
  refine ⟨hty', hsize, data', ?_, hshares⟩
  rw [tagOp_apply hty, if_neg, hdata]
  rintro ⟨_, hid, hkey⟩
  obtain ⟨hdirstruct, hsize'⟩ := hdir hkey.symm (by rw [← hid, hdata]; rfl)
  exact hkeep ⟨hdirstruct, hsize', hid.symm⟩

theorem fsParentMatch_eq (pair : BlockPair) (data : List UInt8) :
    fsParentMatch pair data = .eq ∧ SharesBlock (pairFromLe64 data) pair ∨
      fsParentMatch pair data = .lt := by
  rw [fsParentMatch]
  split
  · exact .inl ⟨rfl, pairCmp_eq_false.mp ‹_›⟩
  · exact .inr rfl

/-- One round of the scan of `lfs_fs_parent`. -/
theorem FindsChild.step {s : FetchScan} (H : FindsChild child count r s.besttag)
    (hvalid : tagIsValid e.tag = true) (hk : TagKind e.tag count count') (hlt : count < 0x3ff)
    (hlt' : count' < 0x3ff) (hdelete : tagTy e.tag = typeDelete → tagSize e.tag = 0)
    (hdir : typeKey (tagTy e.tag) = typeStruct → (r (tagId e.tag) typeStruct).map Prod.fst =
      some typeDirstruct → tagTy e.tag = typeDirstruct ∧ tagSize e.tag = 16) :
    FindsChild child count' ((tagOp e.tag e.data).apply r)
      (s.step (mkTag typeMovestate 0 0x3ff) (mkTag typeDirstruct 0 16)
        (fun _ data => fsParentMatch child data) e).besttag := by
  have htype := tagType1_of_valid hvalid
  have hmatch := matches_dirstruct_iff e.tag
  rw [FetchScan.step]
  by_cases hcrc : tagType1 e.tag = typeCrc
  · have hty : tagTy e.tag / 2 ^ 8 = 5 := by
      rw [htype, typeCrc] at hcrc
      omega
    rw [if_pos hcrc]
    have hle := hk.le_of_not_splice (by omega)
    exact H.put (by omega) hle (fun h => by rw [h.1, typeDirstruct] at hty; omega) hdir _
  · rw [if_neg hcrc]
    by_cases hsplice : tagTy e.tag / 2 ^ 8 = 4
    · have hnomatch : ¬ (mkTag typeMovestate 0 0x3ff &&& e.tag =
          mkTag typeMovestate 0 0x3ff &&& mkTag typeDirstruct 0 16) := by
        intro h
        have := (hmatch.mp h).1
        rw [this, typeDirstruct] at hsplice
        omega
      simp only [hnomatch, ↓reduceIte]
      rw [FetchScan.modify_splice s hvalid hsplice]
      rcases hk.splice hsplice with ⟨hty, _, rfl⟩ | ⟨hty, hid, rfl⟩
      · exact H.create hty hlt' _
      · exact H.delete hty hvalid (hdelete hty) hid hlt _
    · have hle := hk.le_of_not_splice hsplice
      have hbest : (s.modify e).besttag = s.besttag := by
        by_cases hname : tagTy e.tag / 2 ^ 8 = 0
        · rw [FetchScan.modify_name s hvalid hname]
        · exact (FetchScan.modify_other s hvalid hname hsplice).2
      by_cases hm : tagTy e.tag = typeDirstruct ∧ tagSize e.tag = 16
      · simp only [hmatch.mpr hm, ↓reduceIte, hbest, matchBesttag]
        have hkey : typeKey (tagTy e.tag) = typeStruct := by rw [hm.1]; rfl
        rcases fsParentMatch_eq child e.data with ⟨heq, hshares⟩ | hlt
        · rw [if_pos heq]
          have hid := hk.id_lt (by rw [hm.1]; decide)
          refine ⟨fun _ => hid.le, fun _ => ⟨hm.1, hm.2, e.data, ?_, hshares⟩⟩
          rw [tagOp_apply hsplice, hkey, if_pos ⟨by rw [hm.1]; decide, rfl, rfl⟩,
            if_neg (by rw [hm.2]; decide), hm.1]
        · rw [hlt, if_neg (by decide)]
          split
          · exact ⟨fun h => absurd rfl h, fun h => absurd h (by decide)⟩
          · rw [if_neg fun h => by cases h.1]
            have hsame : tagTy e.tag = tagTy s.besttag → tagId e.tag ≠ tagId s.besttag := by
              intro hty hid
              refine ‹¬ _› ?_
              rw [← BitVec.toNat_inj, and_movestate_toNat, and_movestate_toNat, hty, hid]
            refine ⟨fun h => (H.le h).trans hle, fun hv => ?_⟩
            have hbest' := (H.found hv).1
            exact (H.put hsplice hle (fun h => hsame (h.1.trans hbest'.symm) h.2.2) hdir _).found hv
      · have hnomatch := mt hmatch.mp hm
        simp only [hnomatch, ↓reduceIte, hbest]
        exact H.put hsplice hle (fun h => hm ⟨h.1, h.2.1⟩) hdir _

/-- **The best tag** of the scan of `lfs_fs_parent` is the reference to the child. -/
theorem findsChild_scan (child : BlockPair) (hcount : logCount log = some count)
    (hdelete : ∀ e ∈ log, tagTy e.tag = typeDelete → tagSize e.tag = 0)
    (hdir : ∀ n (h : n < log.length), typeKey (tagTy log[n].tag) = typeStruct →
      (replayLog (log.take n) (tagId log[n].tag) typeStruct).map Prod.fst = some typeDirstruct →
        tagTy log[n].tag = typeDirstruct ∧ tagSize log[n].tag = 16) :
    FindsChild child count (replayLog log)
      (log.foldl (FetchScan.step (mkTag typeMovestate 0 0x3ff) (mkTag typeDirstruct 0 16)
        fun _ data => fsParentMatch child data) {}).besttag := by
  induction log using List.reverseRecOn generalizing count with
  | nil => exact ⟨fun h => absurd rfl h, fun h => nomatch (show tagIsValid (-1#32) = true from h)⟩
  | append_singleton log e ih =>
    have hlt' := logCount_lt hcount
    obtain ⟨count, hlog, hvalid, he⟩ := (logCount_append_singleton log e _).mp hcount
    have hlast := hdir log.length (by simp)
    simp only [List.getElem_concat_length, List.take_left] at hlast
    have ih := ih hlog (fun a ha => hdelete a (List.mem_append_left _ ha)) fun n hn => by
      have h := hdir n (by rw [List.length_append]; omega)
      rwa [List.getElem_append_left hn, List.take_append_of_le_length hn.le] at h
    rw [List.foldl_append, replayLog_append_singleton]
    exact ih.step hvalid (tagCount_kind he) (logCount_lt hlog) hlt'
      (hdelete e (List.mem_append_right _ (.head _))) hlast

/-- What `lfs_fs_parent` gets from the pair where it stops. -/
structure ParentFound (dir : MetadataDir) (gdisk : GState) (child : BlockPair) (tag : Tag) :
    Prop where
  valid : tagIsValid tag = true
  ty : tagTy tag = typeDirstruct
  size : tagSize tag = 16
  id : tagId tag < dir.count
  names : gstateHasmovehere gdisk dir.pair = false →
    NamesChild (replayLog dir.log) child (tagId tag)

theorem sub_idShift (tag : Tag) : tag - mkTag 0 1 0 = tag + idShift (-1) := by
  rw [BitVec.sub_eq_add_neg]
  congr 1

theorem FindsChild.parentFound (H : FindsChild child count (replayLog log) besttag)
    (hcount : logCount log = some count)
    (hvalid : tagIsValid (syntheticMove gdisk pair besttag) = true) :
    ParentFound ⟨pair, log, count, split, tail⟩ gdisk child (syntheticMove gdisk pair besttag) := by
  unfold syntheticMove at hvalid ⊢
  split
  · rename_i hhere
    rw [if_pos hhere] at hvalid
    split
    · rw [if_pos ‹_›, tagIsValid_read] at hvalid
      cases hvalid
    · rw [if_neg ‹_›] at hvalid
      split
      · rename_i hlt
        rw [if_pos hlt, sub_idShift] at hvalid
        have hid := tagId_lt besttag
        have hmove := tagId_add_idShift besttag (d := -1) (by omega) (by omega)
        have hsame := sameButId_add_idShift besttag (d := -1) (by omega) (by omega)
        obtain ⟨hty, hsize, hnames⟩ := H.found (hsame.valid.symm.trans hvalid)
        have hlt := hnames.lt hcount
        rw [sub_idShift]
        exact ⟨hvalid, hsame.ty.trans hty, hsame.size.trans hsize, (by omega : _ < count),
          fun h => by rw [hhere] at h; cases h⟩
      · rw [if_neg ‹_›] at hvalid
        obtain ⟨hty, hsize, hnames⟩ := H.found hvalid
        exact ⟨hvalid, hty, hsize, hnames.lt hcount, fun _ => hnames⟩
  · rw [if_neg ‹_›] at hvalid
    obtain ⟨hty, hsize, hnames⟩ := H.found hvalid
    exact ⟨hvalid, hty, hsize, hnames.lt hcount, fun _ => hnames⟩

theorem dirFetchmatch_eq
    (h : dirFetchmatch dev blockCount gdisk pair fmask ftag cb = some (dir, res)) :
    dir.count = (dir.log.foldl (FetchScan.step fmask ftag cb) {}).count ∧
      ∀ tag, res = .tag tag → tagIsValid tag = true ∧
        tag = syntheticMove gdisk dir.pair
          (dir.log.foldl (FetchScan.step fmask ftag cb) {}).besttag := by
  rw [dirFetchmatch] at h
  split at h
  · cases h
  · split at h
    · cases h
    · simp only at h
      split at h
      · cases h
        exact ⟨rfl, fun tag htag => by cases htag; exact ⟨‹_›, rfl⟩⟩
      · split at h <;> cases h <;> exact ⟨rfl, fun tag htag => by cases htag⟩

theorem dirFetchmatch_count
    (h : dirFetchmatch dev blockCount gdisk pair fmask ftag cb = some (dir, res))
    (hlog : DirLog dir.log count) : dir.count = count :=
  (dirFetchmatch_eq h).1.trans (scan_count fmask ftag cb hlog.count_eq)

theorem fetchParent_found
    (h : fetchParent dev blockCount gdisk tail child = some (dir, .tag tag))
    (hlog : DirLog dir.log count) : ParentFound dir gdisk child tag := by
  obtain ⟨_, htag⟩ := dirFetchmatch_eq h
  obtain ⟨hvalid, htag⟩ := htag tag rfl
  have hcount := dirFetchmatch_count h hlog
  have hfinds := findsChild_scan child hlog.count_eq hlog.deletes hlog.dirstructs
  rw [htag] at hvalid ⊢
  obtain ⟨pair, log, _, split, tail⟩ := dir
  obtain rfl : _ = count := hcount
  exact hfinds.parentFound hlog.count_eq hvalid

theorem fsParent_found (h : fsParent dev blockCount gdisk child = .ok (dir, tag)) :
    ∃ tail, fetchParent dev blockCount gdisk tail child = some (dir, .tag tag) := by
  suffices hloop : ∀ cycles tail, fsParentLoop dev blockCount gdisk child cycles tail =
    .ok (dir, tag) →
      ∃ tail, fetchParent dev blockCount gdisk tail child = some (dir, .tag tag) from hloop _ _ h
  intro cycles
  induction cycles with
  | zero =>
    intro tail h
    rw [fsParentLoop] at h
    split at h <;> cases h
  | succ cycles ih =>
    intro tail h
    rw [fsParentLoop] at h
    split at h
    · cases h
    · split at h
      · cases h
      · split at h
        · cases h
          exact ⟨tail, ‹_›⟩
        · exact ih _ h
      · exact ih _ h

theorem fsPred_count (h : fsPred dev blockCount gdisk child = .ok pdir)
    (hlog : DirLog pdir.log count) : pdir.count = count := by
  suffices hloop : ∀ cycles dir, (∀ count, DirLog dir.log count → dir.count = count) →
      fsPredLoop dev blockCount gdisk child cycles dir = .ok pdir → pdir.count = count by
    refine hloop _ _ (fun count h => ?_) h
    have hcount := h.count_eq
    cases hcount
    rfl
  intro cycles
  induction cycles with
  | zero =>
    intro dir _ h
    rw [fsPredLoop] at h
    split at h <;> cases h
  | succ cycles ih =>
    intro dir hdir h
    rw [fsPredLoop] at h
    split at h
    · cases h
    · split at h
      · cases h
        exact hdir count hlog
      · split at h
        · cases h
        · rename_i next hfetch
          refine ih next (fun count hnext => ?_) h
          obtain ⟨⟨dir, res⟩, hmatch, rfl⟩ := Option.map_eq_some_iff.mp hfetch
          exact dirFetchmatch_count hmatch hnext

end LittleFs
