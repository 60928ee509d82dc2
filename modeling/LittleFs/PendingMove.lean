import LittleFs.DirFind

/-! A pending move hides the entry that is moved: `lfs_dir_get` shifts the ids before its scan and
`lfs_dir_fetchmatch` corrects its best tag behind the scan, as if the log ended with the delete tag
that completes the move. The number of entries is not corrected. -/

namespace LittleFs

open KeyedLog (Records)

/-- The log behind the commit that deletes entry `m`. -/
def deletedLog (log : List LogEntry) (m : Nat) (crc : LogEntry) : List LogEntry :=
  log ++ [⟨mkTag typeDelete m 0, []⟩, crc]

/-- The tag that closes a commit. -/
structure IsCrc (e : LogEntry) : Prop where
  valid : tagIsValid e.tag = true
  ty : tagTy e.tag / 2 ^ 8 = 5
  id : tagId e.tag = 0x3ff

theorem IsCrc.type {e : LogEntry} (H : IsCrc e) : tagType1 e.tag = typeCrc := by
  rw [tagType1_of_valid H.valid, H.ty]
  rfl

/-! ## The lookup by id -/

theorem zero_sub_id : (0#32 - mkTag 0 1 0 : Tag) = idShift (-1) := by decide

theorem dirGetLoop_delete (hmask : mask < 2 ^ 11) (hm : m < 2 ^ 10) (hid : tagId gtag < 0x3ff)
    (gsize : Nat) (tags : List LogEntry) :
    dirGetLoop (mkTag mask 0x3ff 0) gtag gsize (⟨mkTag typeDelete m 0, []⟩ :: tags) 0#32 =
      dirGetLoop (mkTag mask 0x3ff 0) gtag gsize tags
        (if m ≤ tagId gtag then idShift (-1) else 0#32) := by
  obtain ⟨hty, hidm, _⟩ := mkTag_fields (show typeDelete < 2 ^ 11 by decide) hm
    (show 0 < 2 ^ 10 by decide)
  have hvalid : tagIsValid (mkTag typeDelete m 0) = true := by
    rw [tagIsValid_iff, mkTag_toNat (by decide) hm (by decide), typeDelete]
    omega
  by_cases hle : m ≤ tagId gtag
  · have hshift : gtag - idShift (-1) = gtag + idShift 1 := by
      rw [BitVec.sub_eq_add_neg]
      congr 1
    have hmove := tagId_add_idShift gtag (d := 1) (by omega) (by omega)
    have hsplices : tagId (mkTag mask 0x3ff 0) ≠ 0 ∧ tagType1 (mkTag typeDelete m 0) = typeSplice ∧
        tagId (mkTag typeDelete m 0) ≤ tagId (gtag - 0#32) := by
      rw [hidm, tagType1_of_valid hvalid, hty, BitVec.sub_zero]
      exact ⟨tagId_mask_ne_zero hmask, rfl, hle⟩
    have hcreated : ¬ mkTag typeDelete m 0 =
        mkTag typeCreate 0 0 ||| (mkTag 0 0x3ff 0 &&& (gtag - 0#32)) := by
      rw [eq_or_id_iff (by decide), hty]
      exact fun h => absurd h.2.1 (by decide)
    have hgdiff : 0#32 + idShift (tagSplice (mkTag typeDelete m 0)) = idShift (-1) := by
      rw [tagSplice_delete hty, BitVec.zero_add]
    have hmatch : ¬ mkTag mask 0x3ff 0 &&& mkTag typeDelete m 0 =
        mkTag mask 0x3ff 0 &&& (gtag - idShift (-1)) := by
      rw [and_mask_eq_iff hmask, hidm, hshift]
      omega
    rw [if_pos hle, dirGetLoop]
    simp only [if_pos hsplices, hgdiff, if_neg hmatch]
    exact if_neg fun h => hcreated h.2
  · rw [if_neg hle, dirGetLoop_other hmask hvalid (by rw [hidm, BitVec.sub_zero]; omega), hidm,
      BitVec.sub_zero, if_neg (by omega)]

/-- **A lookup by id** with the move pending is that behind the delete. -/
theorem dirGet_pending {dir dir' : MetadataDir} (hmask : mask < 2 ^ 11) (hid : tagId gtag < 0x3ff)
    (hcrc : IsCrc crc) (hhere : gstateHasmovehere gdisk dir.pair = true)
    (hno : gstateHasmovehere gdisk' dir'.pair = false)
    (hlog : dir'.log = deletedLog dir.log (tagId gdisk.tag) crc) :
    dirGet gdisk dir (mkTag mask 0x3ff 0) gtag = dirGet gdisk' dir' (mkTag mask 0x3ff 0) gtag := by
  have hm := tagId_lt gdisk.tag
  have hgdiff : (if gstateHasmovehere gdisk dir.pair ∧ tagId (mkTag mask 0x3ff 0) ≠ 0 ∧
      tagId gdisk.tag ≤ tagId gtag then 0#32 - mkTag 0 1 0 else 0#32) =
      if tagId gdisk.tag ≤ tagId gtag then idShift (-1) else 0#32 := by
    rw [zero_sub_id]
    refine if_congr ?_ rfl rfl
    exact ⟨fun h => h.2.2, fun h => ⟨hhere, tagId_mask_ne_zero hmask, h⟩⟩
  have hreverse : dir'.log.reverse =
      crc :: ⟨mkTag typeDelete (tagId gdisk.tag) 0, []⟩ :: dir.log.reverse := by
    rw [hlog, deletedLog, List.reverse_append]
    rfl
  have hsplice : tagTy crc.tag / 2 ^ 8 = 4 → tagId (gtag - 0#32) < tagId crc.tag := fun h => by
    rw [hcrc.ty] at h
    cases h
  have hnone : ¬ (gstateHasmovehere gdisk' dir'.pair ∧ tagId (mkTag mask 0x3ff 0) ≠ 0 ∧
      tagId gdisk'.tag ≤ tagId gtag) := fun h => by
    rw [hno] at h
    cases h.1
  have hmiss : ¬ (mask &&& tagTy crc.tag = mask &&& tagTy (gtag - 0#32) ∧
      tagId crc.tag = tagId (gtag - 0#32)) := by
    rw [hcrc.id, BitVec.sub_zero]
    omega
  rw [dirGet, dirGet, hgdiff, if_neg hnone, hreverse,
    dirGetLoop_other hmask hcrc.valid hsplice, if_neg hmiss, dirGetLoop_delete hmask hm hid]

/-! ## The lookup by name -/

/-- The scan goes on over the delete tag as the synthetic move corrects the best tag. -/
theorem scan_deletedLog (hm : tagId gdisk.tag < 0x3ff) (hcrc : IsCrc crc)
    (hhere : gstateHasmovehere gdisk pair = true) (hlen : name.length < 2 ^ 10)
    (log : List LogEntry) :
    (findScan name (deletedLog log (tagId gdisk.tag) crc)).besttag =
      syntheticMove gdisk pair (findScan name log).besttag ∧
    (findScan name (deletedLog log (tagId gdisk.tag) crc)).count =
      (((findScan name log).count - 1 : Int) % 2 ^ 16).toNat := by
  obtain ⟨hty, hid, hsize⟩ := mkTag_fields (show typeDelete < 2 ^ 11 by decide)
    (show tagId gdisk.tag < 2 ^ 10 by omega) (show 0 < 2 ^ 10 by decide)
  have hvalid : tagIsValid (mkTag typeDelete (tagId gdisk.tag) 0) = true := by
    rw [tagIsValid_iff, mkTag_toNat (by decide) (by omega) (by decide), typeDelete]
    omega
  have htype : tagType1 (mkTag typeDelete (tagId gdisk.tag) 0) ≠ typeCrc := by
    rw [tagType1_of_valid hvalid, hty]
    decide
  have hname : ¬ mkTag 0x780 0 0 &&& mkTag typeDelete (tagId gdisk.tag) 0 =
      mkTag 0x780 0 0 &&& mkTag typeName 0 name.length := by
    rw [matches_name_iff hvalid hlen, hty]
    decide
  have hscan : findScan name (deletedLog log (tagId gdisk.tag) crc) =
      (findScan name log).modify ⟨mkTag typeDelete (tagId gdisk.tag) 0, []⟩ := by
    rw [findScan, deletedLog, List.foldl_append, List.foldl_cons, List.foldl_cons, List.foldl_nil,
      FetchScan.step, if_pos hcrc.type, FetchScan.step, if_neg htype]
    exact if_neg hname
  rw [hscan, FetchScan.modify_splice _ hvalid (by rw [hty]; rfl), tagSplice_delete hty]
  refine ⟨?_, rfl⟩
  generalize (findScan name log).besttag = besttag
  have hdelete := eq_or_id_iff (show typeDelete < 2 ^ 11 by decide)
    (mkTag typeDelete (tagId gdisk.tag) 0) besttag
  rw [hid] at hdelete
  change spliceBesttag (mkTag typeDelete (tagId gdisk.tag) 0) besttag = _
  rw [spliceBesttag, syntheticMove, if_pos hhere, hid, tagSplice_delete hty, sub_idShift]
  by_cases heq : tagId gdisk.tag = tagId besttag
  · rw [if_pos heq, if_pos (hdelete.mpr ⟨hvalid, hty, heq, hsize⟩)]
  · rw [if_neg heq, if_neg fun h => heq (hdelete.mp h).2.2.1]
    refine if_congr (and_congr_right fun _ => ?_) rfl rfl
    omega

/-! ## The place of a name -/

theorem tagId_ne_neg_one (h : tagId tag < 0x3ff) : tag ≠ -1#32 := by
  rintro rfl
  rw [tagId_neg_one] at h
  exact absurd h (by decide)

/-- A create or delete leaves the scan without a best tag, if it had none. -/
theorem FindsName.spliceBesttag_ne (H : FindsName name count deletes r besttag)
    (hkind : tagTy tag = typeCreate ∧ count + 1 < 0x3ff ∨
      tagTy tag = typeDelete ∧ tagIsValid tag = true ∧ tagSize tag = 0)
    (hid : tagId tag < 0x3ff) (hcount : count < 0x3ff) :
    spliceBesttag tag besttag ≠ -1#32 ↔ besttag ≠ -1#32 := by
  have hdelete := eq_or_id_iff (show typeDelete < 2 ^ 11 by decide) tag besttag
  rw [spliceBesttag]
  split
  · have hsame := (hdelete.mp ‹_›).2.2.1
    exact iff_of_true (tagId_ne_neg_one (by rw [tagId_read, ← hsame]; exact hid))
      (tagId_ne_neg_one (by rw [← hsame]; exact hid))
  · split
    · obtain ⟨hnot, hle⟩ := (‹_ ∧ _› : besttag ≠ -1#32 ∧ tagId tag ≤ tagId besttag)
      have hlimit := (H.limit hnot).1
      refine iff_of_true (tagId_ne_neg_one ?_) hnot
      rcases hkind with ⟨hty, hlt⟩ | ⟨hty, hvalid, hsize⟩
      · have hmove := tagId_add_idShift besttag (d := 1) (by omega) (by omega)
        rw [tagSplice_create hty]
        omega
      · have hne : tagId tag ≠ tagId besttag := fun h =>
          ‹¬ _› (hdelete.mpr ⟨hvalid, hty, h, hsize⟩)
        have hmove := tagId_add_idShift besttag (d := -1) (by omega) (by omega)
        rw [tagSplice_delete hty]
        omega
    · exact Iff.rfl

/-- A name leaves the scan with a best tag, unless there is none yet and it sorts before the one
that is looked for. -/
theorem FindsName.matchBesttag_ne (H : FindsName name count deletes r besttag)
    (hvalid : tagIsValid tag = true) (hlen : data.length = tagSize tag)
    (hfresh : r (tagId tag) typeName = none) (hbefore : 0 < deletes → tagId tag < count)
    (hlt : tagId tag < 0x3ff) :
    matchBesttag (dirFindMatch name tag data) tag besttag ≠ -1#32 ↔
      besttag ≠ -1#32 ∨ nameKey name ≤ nameKey data := by
  have hne := H.ne hfresh hbefore hlt
  have hdiff : ¬ mkTag typeMovestate 0x3ff 0 &&& tag = mkTag typeMovestate 0x3ff 0 &&& besttag := by
    rw [and_mask_eq_iff (by decide)]
    exact fun h => hne h.2
  have hcmp := dirFindMatch_nameKey name hlen
  rw [matchBesttag, if_neg hdiff]
  cases hres : dirFindMatch name tag data with
  | eq =>
    rw [hres] at hcmp
    have hcmp : data = name := hcmp
    rw [if_pos rfl, hcmp]
    exact iff_of_true (ne_neg_one_of_valid hvalid) (.inr (le_refl _))
  | lt =>
    rw [hres] at hcmp
    have hcmp : nameKey data < nameKey name := hcmp
    rw [if_neg (by decide), if_neg fun h => by cases h.1]
    exact ⟨.inl, fun h => h.resolve_right (not_le_of_gt hcmp)⟩
  | gt =>
    rw [hres] at hcmp
    have hcmp : nameKey name < nameKey data := hcmp
    rw [if_neg (by decide)]
    refine iff_of_true ?_ (.inr hcmp.le)
    by_cases hle : tagId tag ≤ tagId besttag
    · rw [if_pos ⟨rfl, hle⟩]
      exact tagId_ne_neg_one (by rw [tagId_read]; exact hlt)
    · rw [if_neg fun h => hle h.2]
      rintro rfl
      rw [tagId_neg_one] at hle
      exact hle hlt.le

/-- The scan has a best tag as soon as it has come to a name that does not sort before the one it
looks for. -/
theorem findScan_besttag_ne (hlen : name.length < 2 ^ 10) (H : NameLog log count) :
    (findScan name log).besttag ≠ -1#32 ↔
      ∃ e ∈ log, tagTy e.tag < 0x80 ∧ nameKey name ≤ nameKey e.data := by
  induction log using List.reverseRecOn generalizing count with
  | nil => exact ⟨fun h => absurd rfl h, fun ⟨_, h, _⟩ => (List.not_mem_nil h).elim⟩
  | append_singleton log e ih =>
    obtain ⟨c, hlog, hdelete, hname, _, hnamed⟩ := H.of_append
    obtain ⟨c', hentries, hvalid, hkind, _, hbefore⟩ := H.entries.of_append
    obtain rfl : c = c' := Option.some.inj (hlog.entries.count_eq.symm.trans hentries.count_eq)
    have hF := findsName_scan hlen hlog
    have hlt := logCount_lt hentries.count_eq
    have hlt' := logCount_lt H.entries.count_eq
    have htype := tagType1_of_valid hvalid
    have hmatch := matches_name_iff hvalid hlen
    have hstep : findScan name (log ++ [e]) = (findScan name log).step (mkTag 0x780 0 0)
        (mkTag typeName 0 name.length) (dirFindMatch name) e := by
      rw [findScan, List.foldl_append]
      rfl
    simp only [List.mem_append, List.mem_singleton, or_and_right, exists_or, exists_eq_left]
    rw [← ih hlog, hstep, FetchScan.step]
    by_cases hfile : tagTy e.tag < 0x80
    · have hcrc : tagType1 e.tag ≠ typeCrc := by
        rw [htype, typeCrc]
        omega
      have hbest : ((findScan name log).modify e).besttag = (findScan name log).besttag := by
        rw [FetchScan.modify_name _ hvalid (by omega)]
      obtain ⟨hdata, _, hfresh⟩ := hname (by simp only [typeFrom]; omega)
      have hid : tagId e.tag < 0x3ff := by
        cases hkind with
        | create hty => rw [hty] at hfile; exact absurd hfile (by decide)
        | delete hty => rw [hty] at hfile; exact absurd hfile (by decide)
        | name => omega
        | value _ _ hid => omega
        | other hty => simp only [typeCrc] at hty; omega
      simp only [hcrc, hmatch.mpr hfile, ↓reduceIte, hbest]
      rw [hF.matchBesttag_ne hvalid hdata hfresh (hbefore (by simp only [typeFrom]; omega)) hid]
      simp only [hfile, true_and]
    · have hkeep : ((findScan name log).modify e).besttag ≠ -1#32 ↔
          (findScan name log).besttag ≠ -1#32 := by
        by_cases hsplice : tagTy e.tag / 2 ^ 8 = 4
        · rw [FetchScan.modify_splice _ hvalid hsplice]
          rcases hkind.splice hsplice with ⟨hty, hid, rfl⟩ | ⟨hty, hid, _⟩
          · exact hF.spliceBesttag_ne (.inl ⟨hty, hlt'⟩) (by omega) hlt
          · exact hF.spliceBesttag_ne (.inr ⟨hty, hvalid, hdelete hty⟩) (by omega) hlt
        · by_cases hn : tagTy e.tag / 2 ^ 8 = 0
          · rw [FetchScan.modify_name _ hvalid hn]
          · rw [(FetchScan.modify_other _ hvalid hn hsplice).2]
      simp only [hfile, false_and, or_false, mt hmatch.mp hfile, ↓reduceIte]
      split
      · exact Iff.rfl
      · exact hkeep

/-! ## The two lookups -/

def FetchResult.found : FetchResult → Option Tag
  | .tag t => some t
  | .noent => none
  | .ok => none

/-- What a lookup of a name says: the tag that it found, and the id. -/
def lookupName (dev : Device) (blockCount : Nat) (gdisk : GState) (pair : BlockPair)
    (name : List UInt8) : Option (Option Tag) × Option Nat :=
  ((dirFetchmatch dev blockCount gdisk pair (mkTag 0x780 0 0) (mkTag typeName 0 name.length)
      (dirFindMatch name)).map (·.2.found),
    dirFetchmatchId dev blockCount gdisk pair (mkTag 0x780 0 0) (mkTag typeName 0 name.length)
      (dirFindMatch name))

/-- With the move of `gdisk` pending, the lookups in a pair with this log are those behind the
delete of the entry. -/
structure LooksDeleted (log : List LogEntry) (crc : LogEntry) (blockCount : Nat) (gdisk : GState)
    (pair pair' : BlockPair) (name : List UInt8) : Prop where
  get : ∀ mask < 2 ^ 11, ∀ gtag, tagId gtag < 0x3ff → ∀ dir dir' : MetadataDir,
    dir.pair = pair' → dir.log = log → dir'.log = deletedLog log (tagId gdisk.tag) crc →
    dirGet gdisk dir (mkTag mask 0x3ff 0) gtag = dirGet {} dir' (mkTag mask 0x3ff 0) gtag
  find : lookupName (fun _ => some (pair', log)) blockCount gdisk pair name =
    lookupName (fun _ => some (pair', deletedLog log (tagId gdisk.tag) crc)) blockCount {} pair name

theorem hasmovehere_none (pair : BlockPair) : gstateHasmovehere {} pair = false := rfl

section

variable {log : List LogEntry} {count : Nat} {gdisk : GState} {name : List UInt8} {crc : LogEntry}

theorem lookupName_eq (hblocks : pair.1 < blockCount ∧ pair.2 < blockCount) :
    lookupName (fun _ => some (pair', log)) blockCount gdisk pair name =
      let besttag := syntheticMove gdisk pair' (findScan name log).besttag
      (some (if tagIsValid besttag then some besttag else none),
        some (min (tagId besttag) (findScan name log).count)) := by
  have hlt : ¬ (pair.1 ≥ blockCount ∨ pair.2 ≥ blockCount) := by omega
  rw [lookupName, dirFetchmatch, dirFetchmatchId, if_neg hlt, if_neg hlt]
  refine Prod.ext ?_ rfl
  change Option.map _ (if tagIsValid (syntheticMove gdisk pair' (findScan name log).besttag)
    then some _ else if _ then some _ else some _) = some (if tagIsValid
      (syntheticMove gdisk pair' (findScan name log).besttag) then some _ else none)
  split
  · rfl
  · split <;> rfl

/-- The corrected best tag is at one of the entries that are left, if there is one at all. -/
theorem FindsName.syntheticMove_id (H : FindsName name count deletes r besttag)
    (hhere : gstateHasmovehere gdisk pair = true) (hm : tagId gdisk.tag < count)
    (hlt : count < 0x3ff) :
    tagId (syntheticMove gdisk pair besttag) < count ↔ besttag ≠ -1#32 := by
  rw [syntheticMove, if_pos hhere]
  by_cases hnot : besttag = -1#32
  · subst hnot
    rw [tagId_neg_one, if_neg (by omega), if_neg fun h => h.1 rfl, tagId_neg_one]
    exact iff_of_false (by omega) (not_not.mpr rfl)
  · refine iff_of_true ?_ hnot
    have hle := (H.limit hnot).1
    by_cases heq : tagId gdisk.tag = tagId besttag
    · rw [if_pos heq, tagId_read]
      omega
    · rw [if_neg heq]
      by_cases hgt : tagId gdisk.tag < tagId besttag
      · have hmove := tagId_add_idShift besttag (d := -1) (by omega) (by omega)
        rw [if_pos ⟨hnot, hgt⟩, sub_idShift]
        omega
      · rw [if_neg fun h => hgt h.2]
        omega

/-- **A pending move looks like a delete** to a lookup of a name if and only if the log has a name
that does not sort before it: the id of a name behind all others counts the moved entry. -/
theorem looksDeleted_iff (hlog : NameLog log count) (hname : name.length < 2 ^ 10)
    (hblocks : pair.1 < blockCount ∧ pair.2 < blockCount) (hcrc : IsCrc crc)
    (hhere : gstateHasmovehere gdisk pair' = true) (hm : tagId gdisk.tag < count) :
    LooksDeleted log crc blockCount gdisk pair pair' name ↔
      ∃ e ∈ log, tagTy e.tag < 0x80 ∧ nameKey name ≤ nameKey e.data := by
  have hlt := logCount_lt hlog.entries.count_eq
  have hF := findsName_scan hname hlog
  obtain ⟨hbest, hcount⟩ := scan_deletedLog (show tagId gdisk.tag < 0x3ff by omega) hcrc hhere hname
    log
  have hscan : (findScan name log).count = count := scan_count _ _ _ hlog.entries.count_eq
  have hnone : ∀ besttag, syntheticMove {} pair' besttag = besttag := fun besttag => by
    rw [syntheticMove, hasmovehere_none]
    rfl
  have hfind : lookupName (fun _ => some (pair', log)) blockCount gdisk pair name =
      lookupName (fun _ => some (pair', deletedLog log (tagId gdisk.tag) crc)) blockCount {} pair
        name ↔ (findScan name log).besttag ≠ -1#32 := by
    rw [lookupName_eq hblocks, lookupName_eq hblocks]
    dsimp only
    rw [hnone, hbest, hcount, hscan, Prod.mk.injEq, Option.some.injEq, Option.some.injEq,
      and_iff_right rfl, ← hF.syntheticMove_id hhere hm hlt]
    omega
  rw [← findScan_besttag_ne hname hlog, ← hfind]
  exact ⟨LooksDeleted.find, fun h => ⟨fun mask hmask gtag hid dir dir' hpair hdir hdir' =>
    dirGet_pending hmask hid hcrc (hpair ▸ hhere) rfl (by rw [hdir', hdir]), h⟩⟩

end

/-- The move of entry 1 out of the pair. -/
def pendingMove : GState := ⟨mkTag typeDelete 1 0, (0, 1)⟩

def commitTag : LogEntry := ⟨mkTag typeCrc 0x3ff 4, [0, 0, 0, 0]⟩

theorem commitTag_isCrc : IsCrc commitTag := ⟨by decide, by decide, by decide⟩

/-- Entries `a` and `b`, of which `a` is moved, and the name `aa`. -/
theorem looksDeleted_superblock :
    LooksDeleted superblockLog commitTag 2 pendingMove (0, 1) (0, 1) [97, 97] :=
  (looksDeleted_iff superblockLog_nameLog (by decide) ⟨by decide, by decide⟩ commitTag_isCrc
    (by decide) (by decide)).mpr (by decide)

/-- The place of `c` is behind `b`, and without `a` it is still 3. -/
theorem not_looksDeleted :
    ¬ ∀ (log : List LogEntry) (count : Nat) (crc : LogEntry) (gdisk : GState)
      (pair : BlockPair) (name : List UInt8), NameLog log count → Named (replayLog log) count →
      name.length < 2 ^ 10 → pair.1 < 2 ∧ pair.2 < 2 → IsCrc crc →
      gstateHasmovehere gdisk pair = true → tagId gdisk.tag < count →
      LooksDeleted log crc 2 gdisk pair pair name := by
  intro h
  have hlooks := h superblockLog 3 commitTag pendingMove (0, 1) [99] superblockLog_nameLog
    (by decide) (by decide) ⟨by decide, by decide⟩ commitTag_isCrc (by decide) (by decide)
  exact absurd hlooks.find (by decide)

end LittleFs
