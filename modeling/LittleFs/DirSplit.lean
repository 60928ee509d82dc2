import LittleFs.CommitWrite
import LittleFs.Lib.Segments
import LittleFs.Relocate

/-! `lfs_dir_splittingcompact`: entries are cut off the back of a directory by repeated halving and
moved to tail pairs of their own until the rest is small enough to be compacted in place.

What the traversals measure, whether a tail pair can be had and how much of the device is in use
are left open. -/

namespace LittleFs

/-! ## The size of a split -/

/-- The most that a split may measure, in 64 bits. -/
def DiskConfig.splitLimit (cfg : DiskConfig) : Nat :=
  min ((cfg.blockSize + 2 ^ 64 - 72) % 2 ^ 64)
    (alignup64 ((if cfg.metadataMax ≠ 0 then cfg.metadataMax else cfg.blockSize) / 2)
      cfg.writeSize)

/-- The test that ends the halving, for the entries from `split` up to `stop`. -/
def DiskConfig.splitFits (cfg : DiskConfig) (split stop size : Nat) : Bool :=
  stop - split < 0xff ∧ size ≤ cfg.splitLimit

/-- The inner loop: the start of the last split. -/
def findSplit (cfg : DiskConfig) (size : Nat → Nat → Except Int Nat) (stop split : Nat) :
    Except Int Nat :=
  if 1 < stop - split then
    match size split stop with
    | .error err => .error err
    | .ok measured =>
      if cfg.splitFits split stop measured then .ok split
      else findSplit cfg size stop (split + (stop - split) / 2)
  else .ok split
termination_by stop - split

/-! ## The splits -/

/-- `lfs_dir_needs_relocation`. -/
def dirNeedsRelocation (blockCycles revision : BitVec 32) : Bool :=
  0 < blockCycles.toInt ∧ (revision + 1#32) % ((blockCycles + 1#32) ||| 1#32) = 0#32

/-- A call of `lfs_dir_compact`: the entries from `begin` up to `stop`, written into `pair` with the
tail that the directory has at the time. -/
structure Compacted where
  pair : BlockPair
  begin : Nat
  stop : Nat
  tail : BlockPair
  split : Bool
  deriving DecidableEq, Repr

def Compacted.range (c : Compacted) : Nat × Nat := (c.begin, c.stop)

/-- The directory that is split, `lfs->root`, where the entries end that it still has, and the tails
that `lfs_dir_split` has written, the last one first. -/
structure Splitting where
  dir : FetchedDir
  root : BlockPair
  stop : Nat
  tails : List Compacted := []
  deriving DecidableEq, Repr

/-- `lfs_dir_split` when the tail has been written into `pair`. -/
def Splitting.dirSplit (s : Splitting) (split : Nat) (pair : BlockPair) : Splitting where
  dir := { s.dir with tail := pair, split := true }
  -- update root if needed
  root := if pairCmp s.dir.pair s.root = false ∧ split = 0 then pair else s.root
  stop := split
  tails := ⟨pair, split, s.stop, s.dir.tail, s.dir.split⟩ :: s.tails

/-- What is left open of a compaction. -/
structure SplitOracle where
  /-- `lfs_dir_traverse` with `lfs_dir_commit_size`. -/
  size : Nat → Nat → Except Int Nat
  /-- What `lfs_dir_split` returns, and the pair that it has written. -/
  dirSplit : Nat → Nat → Except Int BlockPair
  /-- `lfs_fs_rawsize`. -/
  rawsize : Int

theorem findSplit_bounds (h : findSplit cfg size stop begin = .ok split) :
    begin ≤ split ∧ (split = begin ∨ split < stop) := by
  fun_induction findSplit cfg size stop begin with
  | case1 => cases h
  | case2 | case4 => exact ⟨Nat.le_of_eq (Except.ok.inj h), .inl (Except.ok.inj h).symm⟩
  | case3 begin hlt measured hsize hfits ih =>
    obtain ⟨hle, hor⟩ := ih h
    exact ⟨by omega, .inr (by omega)⟩

/-- The outer loop. -/
def splitLoop (cfg : DiskConfig) (o : SplitOracle) (begin : Nat) (s : Splitting) :
    Except Int Splitting :=
  match _h : findSplit cfg o.size s.stop begin with
  | .error err => .error err
  | .ok split =>
    -- no split needed
    if _hsplit : split = begin then .ok s
    else match o.dirSplit split s.stop with
      | .ok pair => splitLoop cfg o begin (s.dirSplit split pair)
      | .error err =>
        -- we can't allocate a new block, try to compact with degraded performance
        if err = errNospc then .ok s else .error err
termination_by s.stop - begin
decreasing_by
  have hbounds := findSplit_bounds ‹_›
  change split - begin < s.stop - begin
  omega

/-- The expansion of the superblock. -/
def expandSuperblock (cfg : DiskConfig) (blockCycles : BitVec 32) (o : SplitOracle) (begin : Nat)
    (s : Splitting) : Except Int Splitting :=
  if dirNeedsRelocation blockCycles s.dir.revision = true ∧ pairCmp s.dir.pair (0, 1) = false then
    if o.rawsize < 0 then .error o.rawsize
    -- do we have extra space?
    else if o.rawsize.toNat < cfg.blockCount / 2 then
      match o.dirSplit begin s.stop with
      | .ok pair => .ok (s.dirSplit begin pair)
      -- welp, we tried
      | .error err => if err = errNospc then .ok s else .error err
    else .ok s
  else .ok s

/-- `lfs_dir_splittingcompact` up to the compaction of the directory itself. -/
def dirSplittingcompact (cfg : DiskConfig) (blockCycles : BitVec 32) (o : SplitOracle)
    (dir : FetchedDir) (root : BlockPair) (begin stop : Nat) : Except Int Splitting :=
  match splitLoop cfg o begin ⟨dir, root, stop, []⟩ with
  | .error err => .error err
  | .ok s => expandSuperblock cfg blockCycles o begin s

/-- All the calls of `lfs_dir_compact`, in the order of their entries. -/
def Splitting.compactions (s : Splitting) (begin : Nat) : List Compacted :=
  ⟨s.dir.pair, begin, s.stop, s.dir.tail, s.dir.split⟩ :: s.tails

/-! ## The chain of the tails -/

/-- The pairs follow each other by hard tails from `next` on, and behind the last of them comes
`last`. -/
def HardTails (last : BlockPair × Bool) : (next : BlockPair × Bool) → List Compacted → Prop
  | next, [] => next = last
  | next, c :: cs => next = (c.pair, true) ∧ HardTails last (c.tail, c.split) cs

theorem HardTails.isChain (h : HardTails last (c.tail, c.split) cs) :
    (c :: cs).IsChain fun c c' => c.tail = c'.pair ∧ c.split = true := by
  induction cs generalizing c with
  | nil => exact .singleton c
  | cons c' cs ih => exact .cons_cons (Prod.mk.inj h.1) (ih h.2)

theorem HardTails.getLast (h : HardTails last (c.tail, c.split) cs) :
    ∃ c' ∈ (c :: cs).getLast?, (c'.tail, c'.split) = last := by
  induction cs generalizing c with
  | nil => exact ⟨c, rfl, h⟩
  | cons c' cs ih =>
    obtain ⟨c'', hlast, heq⟩ := ih h.2
    exact ⟨c'', by rwa [List.getLast?_cons_cons], heq⟩

/-- What the splits keep of a compaction of the entries up to `stop`. -/
structure Splitting.Inv (prev : FetchedDir) (last : Nat) (s : Splitting) : Prop where
  pair : s.dir.pair = prev.pair
  tails : HardTails (prev.tail, prev.split) (s.dir.tail, s.dir.split) s.tails
  ranges : Segments.Consecutive s.stop last (s.tails.map Compacted.range)

theorem Splitting.Inv.dirSplit {s : Splitting} (H : s.Inv prev last) (hle : split ≤ s.stop)
    (pair : BlockPair) : (s.dirSplit split pair).Inv prev last where
  pair := H.pair
  tails := ⟨rfl, H.tails⟩
  ranges := H.ranges.cut hle

theorem Splitting.Inv.splitLoop {s : Splitting} (H : s.Inv prev last) (hle : begin ≤ s.stop)
    (h : splitLoop cfg o begin s = .ok s') : s'.Inv prev last ∧ begin ≤ s'.stop := by
  fun_induction LittleFs.splitLoop cfg o begin s with
  | case1 => cases h
  | case2 | case4 =>
    cases h
    exact ⟨H, hle⟩
  | case3 s split hsplit hne pair hok ih =>
    have hbounds := findSplit_bounds hsplit
    exact ih (H.dirSplit (by omega) pair) hbounds.1 h
  | case5 => cases h

theorem Splitting.Inv.expandSuperblock {s : Splitting} (H : s.Inv prev last) (hle : begin ≤ s.stop)
    (h : expandSuperblock cfg blockCycles o begin s = .ok s') :
    s'.Inv prev last ∧ begin ≤ s'.stop := by
  rw [LittleFs.expandSuperblock] at h
  split at h
  · split at h
    · cases h
    · split at h
      · split at h
        · cases h
          exact ⟨H.dirSplit hle _, Nat.le_refl _⟩
        · split at h
          · cases h
            exact ⟨H, hle⟩
          · cases h
      · cases h
        exact ⟨H, hle⟩
  · cases h
    exact ⟨H, hle⟩

theorem dirSplittingcompact_inv (hle : begin ≤ stop)
    (h : dirSplittingcompact cfg blockCycles o dir root begin stop = .ok s) :
    s.Inv dir stop ∧ begin ≤ s.stop := by
  have H : (Splitting.mk dir root stop []).Inv dir stop := ⟨rfl, rfl, rfl⟩
  rw [dirSplittingcompact] at h
  split at h
  · cases h
  · rename_i s' hloop
    obtain ⟨H', hle'⟩ := H.splitLoop hle hloop
    exact H'.expandSuperblock hle' h

/-! ## The partition -/

/-- The compactions divide the entries of the directory from `begin` up to `stop`, and the pairs
stand in its place in the list of all metadata pairs. -/
structure Splitting.Partitions (s : Splitting) (prev : FetchedDir) (begin last : Nat) : Prop where
  /-- The number of the compactions that hold an entry. -/
  holding : ∀ id, Segments.holding id ((s.compactions begin).map Compacted.range) =
    if begin ≤ id ∧ id < last then 1 else 0
  increasing : (s.compactions begin).Pairwise fun c c' => c.stop ≤ c'.begin
  hardTails : (s.compactions begin).IsChain fun c c' => c.tail = c'.pair ∧ c.split = true
  first : ∃ c ∈ (s.compactions begin).head?, c.pair = prev.pair
  continues : ∃ c ∈ (s.compactions begin).getLast?, c.tail = prev.tail ∧ c.split = prev.split

theorem Splitting.Inv.partitions {s : Splitting} (H : s.Inv prev last) (hle : begin ≤ s.stop) :
    s.Partitions prev begin last := by
  have hranges : Segments.Consecutive begin last ((s.compactions begin).map Compacted.range) :=
    H.ranges.cut hle
  obtain ⟨c, hlast, heq⟩ :=
    H.tails.getLast (c := ⟨s.dir.pair, begin, s.stop, s.dir.tail, s.dir.split⟩)
  exact {
    holding := hranges.holding_eq
    increasing := List.pairwise_map.mp hranges.pairwise
    hardTails := H.tails.isChain
    first := ⟨_, rfl, H.pair⟩
    continues := ⟨c, hlast, Prod.mk.inj heq⟩ }

/-- Nothing fails but for want of space for a tail pair. -/
structure SplitOracle.OnlyNospc (o : SplitOracle) : Prop where
  size : ∀ split stop, ∃ measured, o.size split stop = .ok measured
  dirSplit : ∀ split stop err, o.dirSplit split stop = .error err → err = errNospc
  rawsize : 0 ≤ o.rawsize

theorem findSplit_ok (cfg : DiskConfig)
    (h : ∀ split stop, ∃ measured, size split stop = .ok measured)
    (stop begin : Nat) : ∃ split, findSplit cfg size stop begin = .ok split := by
  fun_induction findSplit cfg size stop begin with
  | case1 begin _ err herr =>
    obtain ⟨measured, hok⟩ := h begin stop
    rw [herr] at hok
    cases hok
  | case2 | case4 => exact ⟨_, rfl⟩
  | case3 _ _ _ _ _ ih => exact ih

theorem SplitOracle.OnlyNospc.splitLoop {o : SplitOracle} (H : o.OnlyNospc) (cfg : DiskConfig)
    (begin : Nat) (s : Splitting) : ∃ s', splitLoop cfg o begin s = .ok s' := by
  fun_induction LittleFs.splitLoop cfg o begin s with
  | case1 s err herr =>
    obtain ⟨split, hok⟩ := findSplit_ok cfg H.size s.stop begin
    rw [herr] at hok
    cases hok
  | case2 | case4 => exact ⟨_, rfl⟩
  | case3 _ _ _ _ _ _ ih => exact ih
  | case5 s split _ _ err herr hne => exact absurd (H.dirSplit split s.stop err herr) hne

theorem SplitOracle.OnlyNospc.expandSuperblock {o : SplitOracle} (H : o.OnlyNospc) (s : Splitting) :
    ∃ s', expandSuperblock cfg blockCycles o begin s = .ok s' := by
  rw [LittleFs.expandSuperblock]
  split
  · rw [if_neg (Int.not_lt.mpr H.rawsize)]
    split
    · split
      · exact ⟨_, rfl⟩
      · rename_i err herr
        rw [if_pos (H.dirSplit begin s.stop err herr)]
        exact ⟨_, rfl⟩
    · exact ⟨_, rfl⟩
  · exact ⟨_, rfl⟩

/-- **Splitting partitions the directory.** However the sizes of its parts measure and wherever no
tail pair can be had, the loops end, and the pairs written divide its entries among themselves. -/
theorem dirSplittingcompact_partitions (cfg : DiskConfig) (blockCycles : BitVec 32)
    (o : SplitOracle) (dir : FetchedDir) (root : BlockPair) (hle : begin ≤ stop) :
    (∀ s, dirSplittingcompact cfg blockCycles o dir root begin stop = .ok s →
      s.Partitions dir begin stop) ∧
    (o.OnlyNospc → ∃ s, dirSplittingcompact cfg blockCycles o dir root begin stop = .ok s) := by
  constructor
  · intro s h
    obtain ⟨H, hstop⟩ := dirSplittingcompact_inv hle h
    exact H.partitions hstop
  · intro H
    obtain ⟨s, hs⟩ := H.splitLoop cfg begin ⟨dir, root, stop, []⟩
    rw [dirSplittingcompact, hs]
    exact H.expandSuperblock s

/-- Entries of 100 bytes each, and no tail pair for those behind the fourth. -/
def sixEntries : SplitOracle where
  size split stop := .ok (100 * (stop - split))
  dirSplit split _ := if split = 2 then .error errNospc else .ok (2 * split, 2 * split + 1)
  rawsize := 10

def sixDir : FetchedDir :=
  ⟨(4, 5), 7#32, 64, 0xffffffff#32, 6, true, true, (12, 13), []⟩

theorem dirSplittingcompact_six :
    ∃ s, dirSplittingcompact ⟨512, 100, 16, 0⟩ 100#32 sixEntries sixDir (2, 3) 0 6 = .ok s ∧
      (s.compactions 0).map Compacted.range = [(0, 4), (4, 6)] ∧ s.Partitions sixDir 0 6 := by
  have hrun : dirSplittingcompact ⟨512, 100, 16, 0⟩ 100#32 sixEntries sixDir (2, 3) 0 6 =
      .ok ⟨{ sixDir with tail := (8, 9), split := true }, (2, 3), 4,
        [⟨(8, 9), 4, 6, (12, 13), true⟩]⟩ := by
    decide +kernel
  exact ⟨_, hrun, rfl, (dirSplittingcompact_partitions _ _ _ _ _ (Nat.zero_le 6)).1 _ hrun⟩

/-- What a commit writes by compaction holds every entry. -/
theorem dirSplittingcompact_covers
    (h : dirSplittingcompact cfg blockCycles o dir root 0 stop = .ok s) :
    Covers ((s.compactions 0).map Compacted.range) stop := by
  obtain ⟨H, hle⟩ := dirSplittingcompact_inv (Nat.zero_le stop) h
  intro id
  exact (and_iff_right (Nat.zero_le id)).symm.trans ((H.ranges.cut hle).mem_iff id)

end LittleFs
