import LittleFs.CommitFetch
import LittleFs.DirSplit

/-! Whether a split that has passed the size test of `lfs_dir_splittingcompact` fits into a block of
its own: the test holds its size against `block_size` less a reserve and half of `metadata_max`,
`lfs_dir_commit_attribute` against `metadata_max` less the place of a checksum. -/

namespace LittleFs

/-! ## The records of a compaction -/

/-- What `lfs_dir_commit_size` adds up. -/
def recordsSize (entries : List LogEntry) : Nat := (entries.map fun e => tagDsize e.tag).sum

theorem recordsSize_append (entries entries' : List LogEntry) :
    recordsSize (entries ++ entries') = recordsSize entries + recordsSize entries' := by
  rw [recordsSize, List.map_append, List.sum_append, recordsSize, recordsSize]

theorem recordsSize_cons (e : LogEntry) (entries : List LogEntry) :
    recordsSize (e :: entries) = tagDsize e.tag + recordsSize entries := rfl

/-- The measurements of the halving loop. -/
def measureRecords (log : List LogEntry) (attrs : List Attr) (split stop : Nat) : Except Int Nat :=
  .ok (recordsSize (compactTags log attrs split stop))

def tailRecord (tail : BlockPair × Bool) : LogEntry :=
  ⟨mkTag (typeTail + tail.2.toNat) 0x3ff 16, pairToLe64 tail.1⟩

def gstateRecord (delta : GState) : LogEntry :=
  ⟨mkTag typeMovestate 0x3ff 24, gstateToLe64 delta⟩

/-- What `lfs_dir_compact` writes of the entries, with a tail and a record of the global state. -/
def compactRecords (log : List LogEntry) (attrs : List Attr) (begin stop : Nat)
    (tail : Option (BlockPair × Bool)) (delta : Option GState) : List LogEntry :=
  compactTags log attrs begin stop ++ tail.toList.map tailRecord ++ delta.toList.map gstateRecord

/-- The compaction of any directory writes records of this kind. -/
theorem compactEntries_records (h : compactEntries fs dir attrs begin stop = some entries) :
    ∃ tail delta, entries = compactRecords dir.log attrs begin stop tail delta := by
  rw [compactEntries, Option.map_eq_some_iff] at h
  obtain ⟨gs, hgs, rfl⟩ := h
  rw [compactGstate, Option.map_eq_some_iff] at hgs
  obtain ⟨delta, -, rfl⟩ := hgs
  refine ⟨if pairIsnull dir.tail then none else some (dir.tail, dir.split),
    if gstateIszero delta then none else some delta, ?_⟩
  rw [compactRecords]
  congr 1
  · congr 1
    split <;> rfl
  · split <;> rfl

theorem tagDsize_mkTag {type id size : Nat} (ht : type < 2 ^ 11) (hi : id < 2 ^ 10)
    (hs : size < 0x3ff) : tagDsize (mkTag type id size) = 4 + size := by
  have hsize := (mkTag_fields ht hi (by omega : size < 2 ^ 10)).2.2
  rw [tagDsize_eq, hsize, if_neg (by omega)]

theorem tagDsize_tailRecord (tail : BlockPair × Bool) : tagDsize (tailRecord tail).tag = 20 := by
  have htype : typeTail + tail.2.toNat < 2 ^ 11 := by
    have := tail.2.toNat_lt
    simp only [typeTail]
    omega
  exact tagDsize_mkTag htype (by decide) (by decide)

theorem tagDsize_gstateRecord (delta : GState) : tagDsize (gstateRecord delta).tag = 28 :=
  tagDsize_mkTag (by decide) (by decide) (by decide)

theorem recordsSize_compactRecords (log : List LogEntry) (attrs : List Attr) (begin stop : Nat)
    (tail : Option (BlockPair × Bool)) (delta : Option GState) :
    recordsSize (compactRecords log attrs begin stop tail delta) ≤
      recordsSize (compactTags log attrs begin stop) + 48 := by
  have htail : recordsSize (tail.toList.map tailRecord) ≤ 20 := by
    cases tail with
    | none => exact Nat.zero_le 20
    | some tail => exact Nat.le_of_eq (tagDsize_tailRecord tail)
  have hdelta : recordsSize (delta.toList.map gstateRecord) ≤ 28 := by
    cases delta with
    | none => exact Nat.zero_le 28
    | some delta => exact Nat.le_of_eq (tagDsize_gstateRecord delta)
  rw [compactRecords, recordsSize_append, recordsSize_append]
  omega

/-! ## Running out of space -/

/-- `lfs_dir_commit_attribute` returns `LFS_ERR_NOSPC` for one of the records. -/
def Refused (cfg : DiskConfig) (c : Commit) (entries : List LogEntry) : Prop :=
  ∃ before e after c', entries = before ++ e :: after ∧
    before.foldlM (Commit.attribute cfg cfg.commitEnd) c = some c' ∧
    cfg.commitEnd < c'.offset + tagDsize e.tag

theorem foldlM_attribute_offset
    (h : entries.foldlM (Commit.attribute cfg stop) c = some c') :
    c'.offset = c.offset + recordsSize entries := by
  induction entries generalizing c with
  | nil =>
    cases h
    rfl
  | cons e entries ih =>
    rw [List.foldlM_cons, Option.bind_eq_bind, Option.bind_eq_some_iff] at h
    obtain ⟨c₁, hadd, hrest⟩ := h
    rw [ih hrest, (Commit.adds_of_attribute hadd).offset, recordsSize_cons, Nat.add_assoc]

/-- No record is refused when there is room for all of them. -/
theorem not_refused (h : c.offset + recordsSize entries ≤ cfg.commitEnd) :
    ¬ Refused cfg c entries := by
  rintro ⟨before, e, after, c', rfl, hbefore, hfull⟩
  rw [recordsSize_append, recordsSize_cons] at h
  rw [foldlM_attribute_offset hbefore] at hfull
  omega

/-- The caller gives all the data that the tags of its records announce. -/
def HasData (e : LogEntry) : Prop := tagDsize e.tag - 4 ≤ e.data.length

instance : DecidablePred HasData := fun _ => inferInstanceAs (Decidable (_ ≤ _))

theorem refused_of_lt (hend : cfg.commitEnd ≤ cfg.blockSize) (hdata : ∀ e ∈ entries, HasData e)
    (hne : entries ≠ []) (h : cfg.commitEnd < c.offset + recordsSize entries) :
    Refused cfg c entries := by
  induction entries generalizing c with
  | nil => exact absurd rfl hne
  | cons e entries ih =>
    by_cases hfull : cfg.commitEnd < c.offset + tagDsize e.tag
    · exact ⟨[], e, entries, c, rfl, rfl, hfull⟩
    obtain ⟨he, hentries⟩ := List.forall_mem_cons.mp hdata
    obtain ⟨c₁, hadd⟩ : ∃ c₁, c.attribute cfg cfg.commitEnd e = some c₁ := by
      rw [Commit.attribute, if_neg (by omega), if_neg (Nat.not_lt.mpr he)]
      exact ⟨_, rfl⟩
    have hoffset := (Commit.adds_of_attribute hadd).offset
    rw [recordsSize_cons] at h
    have hrest : entries ≠ [] := by
      rintro rfl
      exact hfull h
    have hlt : cfg.commitEnd < c₁.offset + recordsSize entries := by omega
    obtain ⟨before, e', after, c', rfl, hbefore, hfull'⟩ := ih hentries hrest hlt
    refine ⟨e :: before, e', after, c', rfl, ?_, hfull'⟩
    rw [List.foldlM_cons, hadd]
    exact hbefore

/-! ## Attributes of any size -/

def fillUser (size : Nat) : UserAttribute := ⟨0, List.replicate size 0⟩

/-- One user attribute of the entry 0, of the given size. -/
def fillAttr (size : Nat) : Attr := ⟨mkTag fromUserattrs 0 1, .userattrs [fillUser size]⟩

def fillRecord (size : Nat) : LogEntry := ⟨(fillUser size).tag 0, (fillUser size).buffer⟩

theorem fillUser_length : (fillUser size).buffer.length = size := List.length_replicate

theorem fillUser_tag (h : size < 0x3ff) :
    tagTy ((fillUser size).tag 0) = typeUserattr ∧ tagSize ((fillUser size).tag 0) = size := by
  have hlen : (fillUser size).buffer.length < 2 ^ 10 := by
    rw [fillUser_length]
    omega
  obtain ⟨hty, -, hsize⟩ := UserAttribute.tag_fields (i := 0) (by decide) hlen
  exact ⟨hty, hsize.trans fillUser_length⟩

theorem tagDsize_fillRecord (h : size < 0x3ff) : tagDsize (fillRecord size).tag = 4 + size := by
  rw [fillRecord, tagDsize_eq, (fillUser_tag h).2, if_neg (Nat.ne_of_lt h)]

theorem fillUser_kept (h : size < 0x3ff) :
    filterUserattrs 0 [fillUser size] (mkTag fromUserattrs 0 1) = mkTag fromUserattrs 0 1 := by
  have hlen : ∀ a ∈ [fillUser size], a.buffer.length < 0x3ff :=
    List.forall_mem_singleton.mpr (fillUser_length.symm ▸ h)
  rcases filterUserattrs_eq (Nat.two_pow_pos 10) hlen (mkTag fromUserattrs 0 1) with
    heq | ⟨-, a, ha, hs⟩
  · exact heq
  · obtain rfl := List.mem_singleton.mp ha
    have hother : ¬ (typeKey typeUserattr = typeKey (tagTy (mkTag fromUserattrs 0 1)) ∨
        tagSize (mkTag fromUserattrs 0 1) = 0x3ff ∨ typeUserattr = typeDelete) := by decide
    rw [Supersedes, (fillUser_tag h).1] at hs
    exact absurd (hs.imp And.right (Or.imp_right And.left)) hother

/-- Lists of user attributes leave each other alone. -/
theorem filterScan_fill {sizes : List Nat} (h : ∀ size ∈ sizes, size < 0x3ff) :
    filterScan (sizes.map fillAttr) (mkTag fromUserattrs 0 1) = mkTag fromUserattrs 0 1 := by
  induction sizes with
  | nil => rfl
  | cons size sizes ih =>
    obtain ⟨hsize, hsizes⟩ := List.forall_mem_cons.mp h
    have hkept := fillUser_kept hsize
    calc
      filterScan ((size :: sizes).map fillAttr) (mkTag fromUserattrs 0 1) =
          filterScan (sizes.map fillAttr)
            (filterUserattrs 0 [fillUser size] (mkTag fromUserattrs 0 1)) := by
        have hnoop : ¬ fromUserattrs = fromNoop := by decide
        have hmove : ¬ fromUserattrs = fromMove := by decide
        have hfrom : tagType3 (mkTag fromUserattrs 0 1) = fromUserattrs := by decide
        have hsize : tagSize (mkTag fromUserattrs 0 1) = 1 := by decide
        have hid : tagId (mkTag fromUserattrs 0 1) = 0 := by decide
        simp only [List.map_cons, filterScan, fillAttr, hnoop, hmove, hfrom, hsize, hid, if_false,
          if_true, List.take_succ_cons, List.take_zero]
      _ = filterScan (sizes.map fillAttr) (mkTag fromUserattrs 0 1) := by rw [hkept]
      _ = mkTag fromUserattrs 0 1 := ih hsizes

theorem compactTags_fill {sizes : List Nat} (h : ∀ size ∈ sizes, size < 0x3ff) :
    compactTags [] (sizes.map fillAttr) 0 2 = sizes.map fillRecord := by
  rw [compactTags, dirTraverse, List.map_nil, List.nil_append]
  induction sizes with
  | nil => rfl
  | cons size sizes ih =>
    obtain ⟨-, hsizes⟩ := List.forall_mem_cons.mp h
    have hkept := filterScan_fill hsizes
    have hpass : ¬ mkTag typeMovestate 0 0 &&& mkTag typeSplice 0x3ff 0 &&&
      mkTag fromUserattrs 0 1 ≠
        mkTag typeMovestate 0 0 &&& mkTag typeSplice 0x3ff 0 &&& mkTag typeName 0 0 := by decide
    have hrange : ¬ (tagId (mkTag typeSplice 0x3ff 0) ≠ 0 ∧
        ¬ (tagId (mkTag fromUserattrs 0 1) ≥ 0 ∧ tagId (mkTag fromUserattrs 0 1) < 2)) := by decide
    rw [List.map_cons, List.map_cons, traverseLoop, ih hsizes]
    simp only [fillAttr, hpass, hkept, hrange, ite_self, if_false]
    rfl

/-- Records of user attributes have any total from 4 on. -/
theorem exists_sizes (h : 4 ≤ total) :
    ∃ sizes : List Nat, (∀ size ∈ sizes, size < 0x3ff) ∧ recordsSize (sizes.map fillRecord) =
      total := by
  induction total using Nat.strong_induction_on with
  | _ total ih =>
    by_cases hsmall : total < 4 + 0x3ff
    · have hsize : total - 4 < 0x3ff := by omega
      refine ⟨[total - 4], fun size hmem => List.mem_singleton.mp hmem ▸ hsize, ?_⟩
      rw [List.map_singleton, recordsSize_cons, tagDsize_fillRecord hsize]
      change 4 + (total - 4) + 0 = total
      omega
    · obtain ⟨sizes, hsizes, hsum⟩ := ih (total - 1000) (by omega) (by omega)
      refine ⟨996 :: sizes, List.forall_mem_cons.mpr ⟨by decide, hsizes⟩, ?_⟩
      rw [List.map_cons, recordsSize_cons, tagDsize_fillRecord (by decide), hsum]
      omega

/-! ## The reserve -/

/-- The settings that `lfs_init` accepts, as far as they matter here. -/
structure DiskConfig.Accepted (cfg : DiskConfig) : Prop where
  writeSize : 0 < cfg.writeSize
  dvd : cfg.writeSize ∣ cfg.blockSize
  blockSize : 0 < cfg.blockSize ∧ cfg.blockSize < 2 ^ 64
  metadataMax : cfg.metadataMax ≤ cfg.blockSize

/-- What passes the size test leaves room for the revision count, a tail and a record of the global
state. No record is shorter than 4 bytes. -/
def DiskConfig.SplitRoom (cfg : DiskConfig) : Prop :=
  4 + (if cfg.splitLimit < 4 then 0 else cfg.splitLimit) + 48 ≤ cfg.commitEnd

instance : DecidablePred DiskConfig.SplitRoom := fun _ => inferInstanceAs (Decidable (_ ≤ _))

/-- Whatever the loop takes for small enough is compacted without running out of space. -/
def DiskConfig.SplitsFit (cfg : DiskConfig) : Prop :=
  ∀ log attrs begin stop split tail delta base revision,
    findSplit cfg (measureRecords log attrs) stop begin = .ok split → 1 < stop - split →
    ¬ Refused cfg (compactStart base revision) (compactRecords log attrs split stop tail delta)

/-- The loop leaves a range of several entries for its size only. -/
theorem findSplit_fits (h : findSplit cfg size stop begin = .ok split) (hmany : 1 < stop - split) :
    ∃ measured, size split stop = .ok measured ∧ cfg.splitFits split stop measured = true := by
  fun_induction findSplit cfg size stop begin with
  | case1 => cases h
  | case2 split' _ measured hsize hfits =>
    cases h
    exact ⟨measured, hsize, hfits⟩
  | case3 _ _ _ _ _ ih => exact ih h
  | case4 split' hfew =>
    cases h
    exact absurd hmany hfew

theorem recordsSize_le_of_limit (h : recordsSize entries ≤ limit) :
    recordsSize entries ≤ if limit < 4 then 0 else limit := by
  cases entries with
  | nil => exact Nat.zero_le _
  | cons e entries =>
    have hge := tagDsize_ge e.tag
    rw [recordsSize_cons] at h ⊢
    rw [if_neg (by omega)]
    exact h

theorem DiskConfig.SplitRoom.splitsFit {cfg : DiskConfig} (H : cfg.SplitRoom) : cfg.SplitsFit := by
  intro log attrs begin stop split tail delta base revision h hmany
  obtain ⟨measured, hmeasured, hfits⟩ := findSplit_fits h hmany
  cases hmeasured
  have hsize := recordsSize_le_of_limit (of_decide_eq_true hfits).2
  have hrecords := recordsSize_compactRecords log attrs split stop tail delta
  refine not_refused (Nat.le_trans ?_ H)
  change 4 + _ ≤ _
  omega

theorem alignup64_le (h : 0 < alignment) (hlt : a + alignment ≤ 2 ^ 64) :
    alignup64 a alignment ≤ a + alignment - 1 := by
  have hmod : (a + alignment + (2 ^ 64 - 1)) % 2 ^ 64 = a + alignment - 1 := by omega
  rw [alignup64, hmod]
  exact Nat.sub_le ..

/-- Below 16 bytes the end of a commit wraps around, and nothing is refused. -/
theorem DiskConfig.Accepted.splitRoom_or {cfg : DiskConfig} (H : cfg.Accepted) :
    cfg.SplitRoom ∨ cfg.commitEnd ≤ cfg.blockSize := by
  obtain ⟨hpos, hlt⟩ := H.blockSize
  have hwrite := Nat.le_of_dvd hpos H.dvd
  have hwritePos := H.writeSize
  have hmax := H.metadataMax
  rw [DiskConfig.SplitRoom, DiskConfig.splitLimit, DiskConfig.commitEnd]
  obtain ⟨m, hm, hm0, hmB⟩ : ∃ m,
      (if cfg.metadataMax ≠ 0 then cfg.metadataMax else cfg.blockSize) = m ∧
      0 < m ∧ m ≤ cfg.blockSize := by
    refine ⟨_, rfl, ?_⟩
    split <;> omega
  rw [hm]
  by_cases hsmall : m < 16
  · left
    have hend : (m + 2 ^ 64 - 16) % 2 ^ 64 = m + 2 ^ 64 - 16 := Nat.mod_eq_of_lt (by omega)
    rw [hend]
    have hlimit : min ((cfg.blockSize + 2 ^ 64 - 72) % 2 ^ 64) (alignup64 (m / 2) cfg.writeSize) ≤
        2 ^ 64 - 73 := by
      by_cases hblock : 72 ≤ cfg.blockSize
      · exact Nat.le_trans (Nat.min_le_left ..) (by omega)
      · have halign := alignup64_le (a := m / 2) hwritePos (by omega)
        exact Nat.le_trans (Nat.min_le_right ..) (by omega)
    split <;> omega
  · right
    omega

/-- There are attributes that measure as much as the test allows. -/
theorem exists_attrs (limit : Nat) :
    ∃ attrs, recordsSize (compactTags [] attrs 0 2) = (if limit < 4 then 0 else limit) ∧
      ∀ e ∈ compactTags [] attrs 0 2, HasData e := by
  by_cases hsmall : limit < 4
  · refine ⟨[], ?_, fun e he => by cases he⟩
    rw [if_pos hsmall]
    rfl
  · obtain ⟨sizes, hsizes, hsum⟩ := exists_sizes (Nat.le_of_not_lt hsmall)
    refine ⟨sizes.map fillAttr, ?_, ?_⟩
    · rw [compactTags_fill hsizes, hsum, if_neg hsmall]
    · rw [compactTags_fill hsizes]
      intro e he
      obtain ⟨size, hmem, rfl⟩ := List.mem_map.mp he
      rw [HasData, tagDsize_fillRecord (hsizes size hmem), fillRecord, fillUser_length]
      omega

/-- **What passes the size test fits exactly when the reserve is enough.** -/
theorem splitsFit_iff {cfg : DiskConfig} (H : cfg.Accepted) : cfg.SplitsFit ↔ cfg.SplitRoom := by
  refine ⟨fun hfit => ?_, DiskConfig.SplitRoom.splitsFit⟩
  rcases H.splitRoom_or with hroom | hend
  · exact hroom
  by_contra hroom
  obtain ⟨attrs, hsize, hdata⟩ := exists_attrs cfg.splitLimit
  have hpasses : cfg.splitFits 0 2 (recordsSize (compactTags [] attrs 0 2)) = true := by
    rw [DiskConfig.splitFits, decide_eq_true_iff, hsize]
    exact ⟨by decide, by split <;> omega⟩
  have hfind : findSplit cfg (measureRecords [] attrs) 2 0 = .ok 0 := by
    rw [findSplit, if_pos (by decide), measureRecords]
    exact if_pos hpasses
  refine hfit [] attrs 0 2 0 (some ((0, 0), true)) (some {}) (fun _ => 0) 0#32 hfind (by decide) ?_
  refine refused_of_lt hend ?_ (fun h => by cases (List.append_eq_nil_iff.mp h).2) ?_
  · intro e he
    rcases List.mem_append.mp he with he | he
    · rcases List.mem_append.mp he with he | he
      · exact hdata e he
      · rw [List.mem_singleton.mp he]
        decide
    · rw [List.mem_singleton.mp he]
      decide
  · rw [compactRecords, recordsSize_append, recordsSize_append, hsize]
    rw [DiskConfig.SplitRoom] at hroom
    change cfg.commitEnd < 4 + ((if cfg.splitLimit < 4 then 0 else cfg.splitLimit) + 20 + 28)
    omega

theorem splitsFit_default : DiskConfig.SplitsFit ⟨4096, 128, 16, 0⟩ :=
  (splitsFit_iff ⟨by decide, by decide, by decide, by decide⟩).mpr (by decide +kernel)

/-- The compaction of a directory, with what there is of a tail and of a global state. -/
theorem DiskConfig.SplitRoom.compactEntries_fit {cfg : DiskConfig} (H : cfg.SplitRoom)
    (hfind : findSplit cfg (measureRecords dir.log attrs) stop begin = .ok split)
    (hmany : 1 < stop - split) (h : compactEntries fs dir attrs split stop = some entries) :
    ¬ Refused cfg (compactStart base revision) entries := by
  obtain ⟨tail, delta, rfl⟩ := compactEntries_records h
  exact H.splitsFit _ _ _ _ _ _ _ _ _ hfind hmany

/-- Metadata that may fill its blocks leaves enough of them free. -/
theorem splitRoom_of_whole {cfg : DiskConfig} (hblock : 72 ≤ cfg.blockSize ∧ cfg.blockSize < 2 ^ 64)
    (h : cfg.metadataMax = 0 ∨ cfg.metadataMax = cfg.blockSize) : cfg.SplitRoom := by
  have hwhole : (if cfg.metadataMax ≠ 0 then cfg.metadataMax else cfg.blockSize) =
    cfg.blockSize := by
    rcases h with h | h <;> rw [h]
    · rfl
    · exact ite_self _
  have hlimit : cfg.splitLimit ≤ cfg.blockSize - 72 :=
    Nat.le_trans (Nat.min_le_left ..) (by omega)
  have hend : cfg.commitEnd = cfg.blockSize - 16 := by
    rw [DiskConfig.commitEnd, hwhole]
    omega
  rw [DiskConfig.SplitRoom, hend]
  split <;> omega

/-- Two files of 230 bytes each. -/
def twoFiles : List LogEntry :=
  [⟨mkTag typeCreate 0 0, []⟩, ⟨mkTag typeReg 0 1, [97]⟩,
    ⟨mkTag typeInlinestruct 0 230, List.replicate 230 1⟩,
    ⟨mkTag typeCreate 1 0, []⟩, ⟨mkTag typeReg 1 1, [98]⟩,
    ⟨mkTag typeInlinestruct 1 230, List.replicate 230 2⟩]

/-- The half of 512 bytes is rounded up to all of them where they are one program unit. -/
theorem twoFiles_refused : ¬ ∀ cfg : DiskConfig, cfg.Accepted → cfg.SplitsFit := by
  intro hclaim
  have hfit := hclaim ⟨4096, 128, 512, 512⟩ ⟨by decide, by decide, by decide, by decide⟩
  have hfind : findSplit ⟨4096, 128, 512, 512⟩ (measureRecords twoFiles []) 2 0 = .ok 0 := by
    decide +kernel
  refine hfit twoFiles [] 0 2 0 (some ((6, 7), true)) none (fun _ => 0xff) 1#32 hfind (by decide) ?_
  exact refused_of_lt (by decide) (by decide +kernel) (by decide +kernel) (by decide +kernel)

end LittleFs
