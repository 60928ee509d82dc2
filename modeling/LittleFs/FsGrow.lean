import LittleFs.DirGet

/-! `lfs_fs_rawgrow`: the block counts of the mounted state are raised first, since the commit of
the superblock runs under them, and no failure exit puts them back. -/

namespace LittleFs

/-! ## The state -/

/-- The fields of `lfs_t` that `lfs_fs_rawgrow` reads or changes, with what is on the device. -/
structure FsState where
  blockCount : Nat
  /-- `lfs->cfg->block_count`. -/
  cfgBlockCount : Nat
  root : BlockPair
  gdisk : GState
  dev : Device

/-- Both counts are set. -/
def FsState.setBlockCount (s : FsState) (blockCount : Nat) : FsState :=
  { s with blockCount, cfgBlockCount := blockCount }

/-- What a call of `lfs_dir_commit` answers and leaves: the content of the device and the sizes
that the `allocate_block` callback of its allocations passes to `lfs_fs_grow`. -/
structure CommitAnswer where
  err : Int
  dev : Device
  grown : List Nat

/-- What the device answers during the call. -/
structure GrowAnswers where
  /-- The reads of `lfs_dir_fetch`. -/
  fetch : Int := errOk
  /-- The reads of `lfs_dir_get`. -/
  get : Int := errOk
  commit : FsState → MetadataDir → List LogEntry → CommitAnswer

/-! ## The call -/

/-- A nested `lfs_fs_grow`, as far as the counts are concerned. -/
def FsState.nestedGrow (s : FsState) (blockCount : Nat) : FsState :=
  if blockCount > s.blockCount then s.setBlockCount blockCount else s

/-- `lfs_dir_commit` on the root. -/
def fsRawgrowCommit (a : GrowAnswers) (s : FsState) (root : MetadataDir) (attrs : List LogEntry) :
    Int × FsState :=
  let c := a.commit s root attrs
  (c.err, { c.grown.foldl FsState.nestedGrow s with dev := c.dev })

/-- `superblock.block_count = block_count` on the bytes of an `lfs_superblock_t`: a 32-bit version
in eight bytes, the block size, and then the block count. -/
def setSuperblockCount (superblock : List UInt8) (blockCount : Nat) : List UInt8 :=
  superblock.take 16 ++ toLe 8 blockCount ++ superblock.drop 24

/-- The attribute that the commit writes: as many bytes of the struct as the tag says. -/
def superblockAttr (tag : Tag) (superblock : List UInt8) (blockCount : Nat) : LogEntry :=
  ⟨tag, (setSuperblockCount superblock blockCount).take (tagSize tag)⟩

/-- `lfs_fs_rawgrow`. -/
def fsRawgrow (a : GrowAnswers) (s : FsState) (blockCount : Nat) : Int × FsState :=
  if blockCount > s.blockCount then
    let s := s.setBlockCount blockCount
    -- fetch the root
    if a.fetch ≠ errOk then (a.fetch, s)
    else match dirFetch s.dev s.blockCount s.gdisk s.root with
      | none => (errCorrupt, s)
      | some root =>
        -- update the superblock
        if a.get ≠ errOk then (a.get, s)
        else match dirGet s.gdisk root (mkTag 0x7ff 0x3ff 0) (mkTag typeSuperblock 0 48) with
          | .error err => (err, s)
          | .ok (tag, superblock) =>
            if tag.toInt < 0 then (tag.toInt, s)
            else fsRawgrowCommit a s root [superblockAttr tag superblock s.blockCount]
  else (errOk, s)

/-- The block count that `lfs_raw_mount` adopts with a configured `block_size`, or its error. -/
def mountBlockCount (cfgBlockCount superblockCount : Nat) : Except Int Nat :=
  let blockCount := if cfgBlockCount = 0 then 2 ^ 64 - 1 else cfgBlockCount
  if superblockCount ≠ blockCount then
    if cfgBlockCount ≠ 0 ∨ superblockCount > blockCount then .error errInval
    else .ok superblockCount
  else .ok blockCount

/-! ## The counts -/

variable {s : FsState} {a : GrowAnswers} {n : Nat}

/-- Both counts have reached `n`. -/
structure FsState.Raised (s : FsState) (n : Nat) : Prop where
  blockCount : n ≤ s.blockCount
  cfgBlockCount : n ≤ s.cfgBlockCount

theorem FsState.setBlockCount_raised (s : FsState) (n : Nat) : (s.setBlockCount n).Raised n :=
  ⟨Nat.le_refl n, Nat.le_refl n⟩

theorem FsState.Raised.nestedGrow (H : s.Raised n) (blockCount : Nat) :
    (s.nestedGrow blockCount).Raised n := by
  unfold FsState.nestedGrow
  split
  · have hle : n ≤ blockCount := H.blockCount.trans (Nat.le_of_lt ‹_›)
    exact ⟨hle, hle⟩
  · exact H

theorem FsState.Raised.foldl (H : s.Raised n) (grown : List Nat) :
    (grown.foldl FsState.nestedGrow s).Raised n := by
  induction grown generalizing s with
  | nil => exact H
  | cons blockCount grown ih => exact ih (H.nestedGrow blockCount)

theorem FsState.Raised.commit (H : s.Raised n) (a : GrowAnswers) (root : MetadataDir)
    (attrs : List LogEntry) : (fsRawgrowCommit a s root attrs).2.Raised n :=
  have h := H.foldl (a.commit s root attrs).grown
  ⟨h.blockCount, h.cfgBlockCount⟩

/-- On every exit the counts are the new ones. -/
theorem fsRawgrow_raised (hn : s.blockCount < n) : (fsRawgrow a s n).2.Raised n := by
  have H := s.setBlockCount_raised n
  simp only [fsRawgrow, gt_iff_lt, hn, ↓reduceIte]
  split
  · exact H
  · split
    · exact H
    · split
      · exact H
      · split
        · exact H
        · split
          · exact H
          · exact H.commit a _ _

theorem dirGetLoop_error {gmask gtag gdiff : Tag} {tags : List LogEntry}
    (h : dirGetLoop gmask gtag gsize tags gdiff = .error err) : err = errNoent := by
  induction tags generalizing gdiff with
  | nil => exact (Except.error.inj h).symm
  | cons e tags ih =>
    obtain ⟨moved, hmoved⟩ : ∃ moved, (if tagId gmask ≠ 0 ∧ tagType1 e.tag = typeSplice ∧
        tagId e.tag ≤ tagId (gtag - gdiff) then gdiff + idShift (tagSplice e.tag) else gdiff) =
      moved := ⟨_, rfl⟩
    rw [dirGetLoop] at h
    simp only [hmoved] at h
    split at h
    · exact (Except.error.inj h).symm
    · split at h
      · split at h
        · exact (Except.error.inj h).symm
        · exact absurd h (by simp only [reduceCtorEq, not_false_eq_true])
      · exact ih h

/-! ## The exits -/

/-- No failure exit is taken: the device reads the root, the root has a record of the superblock,
and its commit succeeds. -/
structure GrowAnswers.Completes (a : GrowAnswers) (s : FsState) (n : Nat) : Prop where
  fetch : a.fetch = errOk
  get : a.get = errOk
  commit : ∃ root tag superblock, dirFetch s.dev n s.gdisk s.root = some root ∧
    dirGet s.gdisk root (mkTag 0x7ff 0x3ff 0) (mkTag typeSuperblock 0 48) = .ok (tag, superblock) ∧
    0 ≤ tag.toInt ∧
    (a.commit (s.setBlockCount n) root [superblockAttr tag superblock n]).err = errOk

theorem fsRawgrow_ok_iff (hn : s.blockCount < n) :
    (fsRawgrow a s n).1 = errOk ↔ a.Completes s n := by
  constructor
  · intro h
    simp only [fsRawgrow, gt_iff_lt, hn, ↓reduceIte] at h
    split at h
    · exact absurd h ‹_›
    rename_i hfetch
    split at h
    · exact absurd (show errCorrupt = errOk from h) (by decide)
    rename_i root hroot
    split at h
    · exact absurd h ‹_›
    rename_i hget
    split at h
    · rename_i hrecord
      exact absurd ((dirGetLoop_error hrecord).symm.trans h) (by decide)
    rename_i tag superblock hrecord
    split at h
    · rename_i hneg
      exact absurd h (Int.ne_of_lt hneg)
    rename_i hpos
    exact ⟨Decidable.not_not.mp hfetch, Decidable.not_not.mp hget, root, tag, superblock, hroot,
      hrecord, Int.not_lt.mp hpos, h⟩
  · rintro ⟨hfetch, hget, root, tag, superblock, hroot, hrecord, hpos, hcommit⟩
    have hroot : dirFetch (s.setBlockCount n).dev (s.setBlockCount n).blockCount
        (s.setBlockCount n).gdisk (s.setBlockCount n).root = some root := hroot
    have hrecord : dirGet (s.setBlockCount n).gdisk root (mkTag 0x7ff 0x3ff 0)
        (mkTag typeSuperblock 0 48) = .ok (tag, superblock) := hrecord
    simp only [fsRawgrow, gt_iff_lt, hn, ↓reduceIte, hfetch, hget, hroot, hrecord, ne_eq,
      not_true_eq_false, Int.not_lt.mpr hpos]
    exact hcommit

/-- A failed grow changes neither count. -/
def FailsUnchanged (a : GrowAnswers) (s : FsState) (n : Nat) : Prop :=
  (fsRawgrow a s n).1 ≠ errOk →
    (fsRawgrow a s n).2.blockCount = s.blockCount ∧
      (fsRawgrow a s n).2.cfgBlockCount = s.cfgBlockCount

/-- **The counts after a failed grow.** They are the old ones only when no exit fails. -/
theorem fsRawgrow_failsUnchanged_iff (hn : s.blockCount < n) :
    FailsUnchanged a s n ↔ a.Completes s n := by
  constructor
  · intro h
    refine (fsRawgrow_ok_iff hn).mp (Decidable.by_contra fun herr => ?_)
    have hcount := (h herr).1
    have hraised := (fsRawgrow_raised (a := a) hn).blockCount
    omega
  · exact fun H herr => absurd ((fsRawgrow_ok_iff hn).mpr H) herr

/-- After a failed grow the next mount with the same configuration refuses the superblock, which
has the old count still. -/
theorem fsRawgrow_failed_mount (hn : s.blockCount < n) :
    mountBlockCount (fsRawgrow a s n).2.cfgBlockCount s.blockCount = .error errInval := by
  have hraised := (fsRawgrow_raised (a := a) hn).cfgBlockCount
  obtain ⟨count, hcount⟩ : ∃ count, (fsRawgrow a s n).2.cfgBlockCount = count := ⟨_, rfl⟩
  rw [hcount] at hraised ⊢
  have hpos : count ≠ 0 := by omega
  have hne : s.blockCount ≠ count := by omega
  simp only [mountBlockCount, hpos, ↓reduceIte, ne_eq, hne, not_false_eq_true, true_or]

/-- A freshly formatted root. -/
def formattedRoot : MetadataDir :=
  ⟨(0, 1), [⟨mkTag typeCreate 0 0, []⟩, ⟨mkTag typeSuperblock 0 8, "littlefs".toUTF8.toList⟩],
    1, false, (blockNull, blockNull)⟩

/-- Eight blocks with the root in the first two. -/
def eightBlocks : FsState where
  blockCount := 8
  cfgBlockCount := 8
  root := (0, 1)
  gdisk := {}
  dev pair := if pair = (0, 1) then some ((0, 1), formattedRoot.log) else none

/-- Answers without an error: the commit succeeds and leaves `dev`. -/
def cleanAnswers : GrowAnswers where
  commit s _ _ := ⟨errOk, s.dev, []⟩

theorem fsRawgrow_failsUnchanged_sixteen :
    eightBlocks.blockCount < 16 ∧ FailsUnchanged cleanAnswers eightBlocks 16 := by
  refine ⟨by decide, (fsRawgrow_failsUnchanged_iff (by decide)).mpr ⟨rfl, rfl, ?_⟩⟩
  exact ⟨formattedRoot, mkTag typeSuperblock 0 8, "littlefs".toUTF8.toList ++ List.replicate 40 0,
    by decide +kernel, by decide +kernel, by decide +kernel, rfl⟩

/-- The device fails to read the root: both counts stay at sixteen. -/
theorem fsRawgrow_readError :
    (fsRawgrow { cleanAnswers with fetch := errIo } eightBlocks 16).1 = errIo ∧
      (fsRawgrow { cleanAnswers with fetch := errIo } eightBlocks 16).2.blockCount = 16 ∧
      ¬ FailsUnchanged { cleanAnswers with fetch := errIo } eightBlocks 16 := by
  refine ⟨by decide, by decide, fun h => ?_⟩
  have hcount := (h (by decide)).1
  exact absurd hcount (by decide)

end LittleFs
