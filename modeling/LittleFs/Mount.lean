import LittleFs.AppendFetch
import LittleFs.DirFind

/-! `lfs_raw_mount` on any device content: the search for the block size, the walk over the tail
list from the pair `{0, 1}` on, and what it takes over from the superblocks on the way.

The number of pairs is bounded by the block count, so a list that comes back to itself is not
mounted. -/

namespace LittleFs

/-! ## Device content -/

/-- A block as a fetch reads it: its revision, and the committed tags if there are any. -/
structure DiskBlock where
  revision : BitVec 32
  log : Option (List LogEntry)

/-- `lfs_dir_fetchmatch` up to the tags: the block of the newer revision is tried first. -/
def blocksDevice (blocks : Nat → DiskBlock) : Device := fun pair =>
  let first := if scmpGt (blocks pair.2).revision (blocks pair.1).revision then pair.swap else pair
  match (blocks first.1).log with
  | some log => some (first, log)
  -- failed, try the other block?
  | none => (blocks first.2).log.map fun log => (first.swap, log)

/-- A fetch of the pair in the order that a fetch has left it in. -/
theorem blocksDevice_idem {blocks : Nat → DiskBlock} {pair pair' : BlockPair}
    (h : blocksDevice blocks pair = some (pair', log)) :
    blocksDevice blocks pair' = some (pair', log) := by
  obtain ⟨first, hfirst⟩ : ∃ first, (if scmpGt (blocks pair.2).revision (blocks pair.1).revision
    then pair.swap else pair) = first := ⟨_, rfl⟩
  have hrecent : scmpGt (blocks first.2).revision (blocks first.1).revision = false := by
    rw [← hfirst]
    split
    · exact scmpGt_asymm ‹_›
    · exact Bool.eq_false_of_not_eq_true ‹_›
  simp only [blocksDevice, hfirst] at h
  cases hlog : (blocks first.1).log with
  | some log' =>
    rw [hlog] at h
    cases h
    simp only [blocksDevice, hrecent, Bool.false_eq_true, ↓reduceIte, hlog]
  | none =>
    rw [hlog] at h
    obtain ⟨log', hlog', heq⟩ := Option.map_eq_some_iff.mp h
    cases heq
    by_cases hswap : scmpGt (blocks first.1).revision (blocks first.2).revision = true
    · simp only [blocksDevice, Prod.snd_swap, Prod.fst_swap, hswap, ↓reduceIte, Prod.swap_swap,
        hlog, hlog', Option.map_some]
    · simp only [blocksDevice, Prod.snd_swap, Prod.fst_swap, hswap, Bool.false_eq_true, ↓reduceIte,
        hlog']

/-! ## Superblocks -/

/-- What `lfs_raw_mount` reads of `lfs_t` after `lfs_init` and of the configuration. The sizes of
the blocks that it tries do not overflow. -/
structure MountConfig where
  /-- `lfs->cfg->block_size`, 0 when it is not known. -/
  blockSize : Nat
  /-- `lfs->cfg->block_count`, 0 when it is not known. -/
  blockCount : Nat
  eraseSize : Nat
  nameMax : Nat
  fileMaxSize : Nat
  attrMax : Nat
  eraseSize_pos : 0 < eraseSize
  blockCount_lt : blockCount < 2 ^ 64

/-- `lfs_superblock_t`. -/
structure Superblock where
  version : Nat
  blockSize : Nat
  blockCount : Nat
  nameMax : Nat
  fileMaxSize : Nat
  attrMax : Nat

/-- `lfs_superblock_fromle64`. -/
def superblockFromLe64 (bytes : List UInt8) : Superblock where
  version := fromLe (bytes.take 4)
  blockSize := fromLe ((bytes.drop 8).take 8)
  blockCount := fromLe ((bytes.drop 16).take 8)
  nameMax := fromLe ((bytes.drop 24).take 8)
  fileMaxSize := fromLe ((bytes.drop 32).take 8)
  attrMax := fromLe ((bytes.drop 40).take 8)

/-- The fields of `lfs_t` that the mount sets, and the limit of its search. -/
structure MountState where
  blockSize : Nat
  /-- `block_size_limit`. -/
  sizeLimit : Nat
  blockCount : Nat
  root : BlockPair := (blockNull, blockNull)
  gstate : GState := {}
  nameMax : Nat
  fileMaxSize : Nat
  attrMax : Nat
  deriving DecidableEq

/-- How a pass over the tail list ends. -/
inductive PassEnd where
  | done
  | failed (err : Int)
  | nextBlockSize
  | nextMount

/-- The limit that a superblock stores: 0 keeps the present one, a larger one is not supported. -/
def adoptLimit (limit stored : Nat) : Option Nat :=
  if stored ≠ 0 then if stored > limit then none else some stored else some limit

/-- The checks of a superblock. -/
def checkSuperblock (cfg : MountConfig) (s : MountState) (b : Superblock) (pair : BlockPair) :
    Except (PassEnd × MountState) MountState :=
  if b.blockSize ≠ s.blockSize then
    if cfg.blockSize ≠ 0 ∨ b.blockSize % cfg.eraseSize ≠ 0 ∨ b.blockSize < s.blockSize then
      .error (.failed errInval, s)
    -- remount with correct block_size
    else .error (.nextMount, { s with blockSize := b.blockSize })
  else if b.blockCount ≠ s.blockCount ∧ (cfg.blockCount ≠ 0 ∨ b.blockCount > s.blockCount) then
    .error (.failed errInval, s)
  -- check version
  else if b.version / 2 ^ 16 % 2 ^ 16 ≠ 2 ∨ b.version % 2 ^ 16 > 0 then .error (.failed errInval, s)
  else match adoptLimit s.nameMax b.nameMax, adoptLimit s.fileMaxSize b.fileMaxSize,
      adoptLimit s.attrMax b.attrMax with
    | some nameMax, some fileMaxSize, some attrMax =>
      -- update root
      .ok { s with blockCount := b.blockCount, nameMax, fileMaxSize, attrMax, root := pair }
    | _, _, _ => .error (.failed errInval, s)

/-- The superblock of a pair that has one. -/
def readSuperblock (cfg : MountConfig) (s : MountState) (dir : MetadataDir) :
    Except (PassEnd × MountState) MountState :=
  match dirGet {} dir (mkTag typeMovestate 0x3ff 0) (mkTag typeInlinestruct 0 48) with
  | .error err => .error (if err = errCorrupt then .nextBlockSize else .failed err, s)
  | .ok (tag, data) =>
    if tag.toInt < 0 then .error (.failed tag.toInt, s)
    else checkSuperblock cfg s (superblockFromLe64 data) dir.pair

/-! ## The passes -/

def littlefsName : List UInt8 := [108, 105, 116, 116, 108, 101, 102, 115]

def FetchResult.hasSuperblock : FetchResult → Bool
  | .tag found => found != 0#32 && !tagIsDelete found
  | _ => false

/-- What a pass does at one pair. -/
def mountDir (cfg : MountConfig) (s : MountState) (dir : MetadataDir) (res : FetchResult) :
    Except (PassEnd × MountState) MountState :=
  -- has superblock?
  match if res.hasSuperblock then readSuperblock cfg s dir else .ok s with
  | .error e => .error e
  | .ok s =>
    -- has gstate?
    match dirGetgstate {} dir s.gstate with
    | none => .error (.failed errIo, s)
    -- we found a valid superblock, set block_size_limit so block_size will no longer change
    | some gstate => .ok { s with gstate, sizeLimit := s.blockSize }

/-- The walk over the tail list; `none` when the fuel runs out. -/
def mountPass (dev : Device) (cfg : MountConfig) :
    (fuel cycle : Nat) → (tail : BlockPair) → MountState → Option (PassEnd × MountState)
  | 0, _, _, _ => none
  | fuel + 1, cycle, tail, s =>
    if pairIsnull tail then some (.done, s)
    -- loop detected
    else if cycle ≥ s.blockCount / 2 then some (.failed errCorrupt, s)
    else match dirFetchmatch dev s.blockCount {} tail (mkTag typeMovestate 0x3ff 0)
        (mkTag typeSuperblock 0 8) (dirFindMatch littlefsName) with
      | none => some (.nextBlockSize, s)
      | some (_, .noent) => some (.failed errNoent, s)
      | some (dir, res) =>
        match mountDir cfg s dir res with
        | .error e => some e
        | .ok s => mountPass dev cfg fuel (cycle + 1) dir.tail s

/-- `block_count` at the beginning of a pass. -/
def passBlockCount (cfg : MountConfig) (blockSize : Nat) : Nat :=
  if cfg.blockCount = 0 then 2 ^ 64 - 1
  else if cfg.blockSize = 0 then cfg.blockCount / (blockSize / cfg.eraseSize)
  else cfg.blockCount

/-- The loop at `next_block_size`: the next block size, if the limit lets one. -/
def nextBlockSize (cfg : MountConfig) (limit : Nat) :
    (fuel blockSize : Nat) → Option (Option Nat)
  | 0, _ => none
  | fuel + 1, blockSize =>
    let blockSize := blockSize + cfg.eraseSize
    if blockSize > limit then some none
    -- skip block_sizes that aren't a factor
    else if cfg.blockCount ≠ 0 ∧ cfg.blockCount % (blockSize / cfg.eraseSize) ≠ 0 then
      nextBlockSize cfg limit fuel blockSize
    else some (some blockSize)

/-- The search for the correct block size. What a block holds depends on the size it is read
with. -/
def mountSearch (image : Nat → Nat → DiskBlock) (cfg : MountConfig) :
    (fuel : Nat) → MountState → Option (Except Int MountState)
  | 0, _ => none
  | fuel + 1, s =>
    let s := { s with blockCount := passBlockCount cfg s.blockSize }
    match mountPass (blocksDevice (image s.blockSize)) cfg fuel 0 (0, 1) s with
    | none => none
    | some (.done, s) => some (.ok s)
    | some (.failed err, _) => some (.error err)
    | some (.nextMount, s) => mountSearch image cfg fuel s
    | some (.nextBlockSize, s) =>
      match nextBlockSize cfg s.sizeLimit fuel s.blockSize with
      | none => none
      | some none => some (.error errInval)
      | some (some blockSize) => mountSearch image cfg fuel { s with blockSize }

/-- The state in which the search begins. -/
def mountStart (cfg : MountConfig) : MountState where
  blockSize := if cfg.blockSize = 0 then cfg.eraseSize else cfg.blockSize
  sizeLimit :=
    if cfg.blockSize = 0 then
      -- make sure this doesn't overflow
      if cfg.blockCount = 0 ∨ cfg.blockCount / 2 > (2 ^ 64 - 1) / cfg.eraseSize then 2 ^ 64 - 1
      else cfg.blockCount / 2 * cfg.eraseSize
    else cfg.blockSize
  blockCount := cfg.blockCount
  nameMax := cfg.nameMax
  fileMaxSize := cfg.fileMaxSize
  attrMax := cfg.attrMax

/-- `lfs_raw_mount`; the state has the global state of the disk. -/
def rawMount (image : Nat → Nat → DiskBlock) (cfg : MountConfig) (fuel : Nat) :
    Option (Except Int MountState) :=
  match mountSearch image cfg fuel (mountStart cfg) with
  | some (.ok s) =>
    -- found superblock?
    if pairIsnull s.root then some (.error errInval)
    else
      let tag := s.gstate.tag + if tagIsValid s.gstate.tag then 0#32 else 1#32
      some (.ok { s with gstate := { s.gstate with tag } })
  | r => r

/-! ## The tail list -/

/-- The tail that a fetch of this log finds. -/
def logTail (log : List LogEntry) : BlockPair := (log.foldl FetchScan.modify {}).tail

theorem FetchScan.modify_tail {s s' : FetchScan} (h : s.tail = s'.tail) (e : LogEntry) :
    (s.modify e).tail = (s'.modify e).tail := by
  unfold modify
  split
  · exact h
  · split
    · exact h
    · split
      · rfl
      · exact h

theorem FetchScan.step_modify_tail (fmask ftag : Tag) (cb : Tag → List UInt8 → Cmp)
    (s : FetchScan) (e : LogEntry) : (s.step fmask ftag cb e).tail = (s.modify e).tail := by
  unfold step
  split
  · rename_i hcrc
    unfold modify
    rw [hcrc, if_neg (by decide), if_neg (by decide), if_neg (by decide)]
  · dsimp only
    split <;> rfl

theorem scan_logTail (fmask ftag : Tag) (cb : Tag → List UInt8 → Cmp) (log : List LogEntry) :
    (log.foldl (FetchScan.step fmask ftag cb) {}).tail = logTail log := by
  suffices ∀ s s' : FetchScan, s.tail = s'.tail →
      (log.foldl (FetchScan.step fmask ftag cb) s).tail = (log.foldl FetchScan.modify s').tail from
    this {} {} rfl
  induction log with
  | nil => exact fun _ _ h => h
  | cons e log ih =>
    intro s s' h
    rw [List.foldl_cons, List.foldl_cons]
    exact ih _ _ ((FetchScan.step_modify_tail fmask ftag cb s e).trans (FetchScan.modify_tail h e))

variable {dev : Device} {blockCount : Nat} {gdisk : GState} {pair : BlockPair} {dir : MetadataDir}
  {res : FetchResult} {cfg : MountConfig} {s s' : MountState}

/-- A fetch that finds a directory. -/
theorem dirFetchmatch_found {fmask ftag : Tag} {cb : Tag → List UInt8 → Cmp}
    (h : dirFetchmatch dev blockCount gdisk pair fmask ftag cb = some (dir, res)) :
    (pair.1 < blockCount ∧ pair.2 < blockCount) ∧ dev pair = some (dir.pair, dir.log) ∧
      dir.tail = logTail dir.log := by
  unfold dirFetchmatch at h
  split at h
  · cases h
  rename_i hrange
  refine ⟨by omega, ?_⟩
  cases hdev : dev pair with
  | none =>
    rw [hdev] at h
    cases h
  | some p =>
    rw [hdev] at h
    dsimp only at h
    have hdir : dir = ⟨p.1, p.2, (p.2.foldl (FetchScan.step fmask ftag cb) {}).count,
        (p.2.foldl (FetchScan.step fmask ftag cb) {}).split,
        (p.2.foldl (FetchScan.step fmask ftag cb) {}).tail⟩ := by
      split at h
      · exact (Prod.mk.inj (Option.some.inj h)).1.symm
      · split at h
        · exact (Prod.mk.inj (Option.some.inj h)).1.symm
        · exact (Prod.mk.inj (Option.some.inj h)).1.symm
    rw [hdir]
    exact ⟨rfl, scan_logTail fmask ftag cb p.2⟩

/-- The tail list from this pair on comes to the null pair. -/
inductive ListEnds (dev : Device) : BlockPair → Prop where
  | null {tail : BlockPair} : pairIsnull tail = true → ListEnds dev tail
  | next {tail pair' : BlockPair} {log : List LogEntry} : dev tail = some (pair', log) →
      ListEnds dev (logTail log) → ListEnds dev tail

/-- A change of the mount that keeps the block count in bounds and sets the root to this pair
only. -/
structure MountState.Moves (s s' : MountState) (pair : BlockPair) : Prop where
  blockCount : s'.blockCount ≤ s.blockCount
  root : s'.root = s.root ∨ s'.root = pair
  blockSize : s'.blockSize = s.blockSize

/-- The end of a pass at a superblock. With a configured block size there is no other one to try. -/
structure MountState.Stops (cfg : MountConfig) (s : MountState) (e : PassEnd × MountState) :
    Prop where
  notDone : e.1 ≠ .done
  fixed : cfg.blockSize ≠ 0 →
    e.1 ≠ .nextMount ∧ e.2.blockSize = s.blockSize ∧ e.2.sizeLimit = s.sizeLimit

theorem MountState.Stops.failed (err : Int) (hsize : s'.blockSize = s.blockSize)
    (hlimit : s'.sizeLimit = s.sizeLimit) : s.Stops cfg (.failed err, s') :=
  ⟨fun h => (by cases h), fun _ => ⟨fun h => (by cases h), hsize, hlimit⟩⟩

theorem checkSuperblock_stops {b : Superblock} (h : checkSuperblock cfg s b pair = .error e) :
    s.Stops cfg e := by
  unfold checkSuperblock at h
  split at h
  · split at h
    · cases h
      exact .failed errInval rfl rfl
    · rename_i hnot
      cases h
      exact ⟨fun h => (by cases h), fun hsize => absurd (.inl hsize) hnot⟩
  split at h
  · cases h
    exact .failed errInval rfl rfl
  split at h
  · cases h
    exact .failed errInval rfl rfl
  split at h
  · cases h
  · cases h
    exact .failed errInval rfl rfl

theorem readSuperblock_stops (h : readSuperblock cfg s dir = .error e) : s.Stops cfg e := by
  unfold readSuperblock at h
  split at h
  · cases h
    split
    · exact ⟨fun h => (by cases h), fun _ => ⟨fun h => (by cases h), rfl, rfl⟩⟩
    · exact .failed _ rfl rfl
  · split at h
    · cases h
      exact .failed _ rfl rfl
    · exact checkSuperblock_stops h

theorem checkSuperblock_moves {b : Superblock} (h : checkSuperblock cfg s b pair = .ok s') :
    s.Moves s' pair ∧ s'.sizeLimit = s.sizeLimit := by
  unfold checkSuperblock at h
  split at h
  · split at h <;> cases h
  split at h
  · cases h
  rename_i hcount
  split at h
  · cases h
  split at h
  · cases h
    refine ⟨⟨?_, .inr rfl, rfl⟩, rfl⟩
    by_contra hgt
    change ¬ b.blockCount ≤ s.blockCount at hgt
    exact hcount ⟨by omega, .inr (by omega)⟩
  · cases h

theorem readSuperblock_moves (h : readSuperblock cfg s dir = .ok s') :
    s.Moves s' dir.pair ∧ s'.sizeLimit = s.sizeLimit := by
  unfold readSuperblock at h
  split at h
  · cases h
  · split at h
    · cases h
    · exact checkSuperblock_moves h

theorem mountDir_cases (cfg : MountConfig) (s : MountState) (dir : MetadataDir)
    (res : FetchResult) :
    (∃ s', mountDir cfg s dir res = .ok s' ∧ s.Moves s' dir.pair ∧ s'.sizeLimit = s.blockSize) ∨
    ∃ e, mountDir cfg s dir res = .error e ∧ s.Stops cfg e := by
  obtain ⟨r, hr⟩ : ∃ r, (if res.hasSuperblock then readSuperblock cfg s dir else .ok s) = r :=
    ⟨_, rfl⟩
  unfold mountDir
  rw [hr]
  cases r with
  | error e =>
    refine .inr ⟨e, rfl, ?_⟩
    split at hr
    · exact readSuperblock_stops hr
    · cases hr
  | ok s₁ =>
    obtain ⟨hmoves, hlimit⟩ : s.Moves s₁ dir.pair ∧ s₁.sizeLimit = s.sizeLimit := by
      split at hr
      · exact readSuperblock_moves hr
      · cases hr
        exact ⟨⟨Nat.le_refl _, .inl rfl, rfl⟩, rfl⟩
    dsimp only
    cases dirGetgstate {} dir s₁.gstate with
    | none => exact .inr ⟨_, rfl, .failed errIo hmoves.blockSize hlimit⟩
    | some gstate =>
      exact .inl ⟨_, rfl, ⟨hmoves.blockCount, hmoves.root, hmoves.blockSize⟩, hmoves.blockSize⟩

/-- **A mounted list ends.** So does the rest of the list behind the root. -/
theorem mountPass_done {tail : BlockPair}
    (h : mountPass dev cfg fuel cycle tail s = some (.done, s')) :
    ListEnds dev tail ∧ s'.blockCount ≤ s.blockCount ∧ (s'.root = s.root ∨
      ∃ pair log, dev pair = some (s'.root, log) ∧ ListEnds dev (logTail log)) := by
  induction fuel generalizing cycle tail s with
  | zero => cases h
  | succ fuel ih =>
    unfold mountPass at h
    split at h
    · cases h
      exact ⟨.null ‹_›, Nat.le_refl _, .inl rfl⟩
    split at h
    · cases h
    split at h
    · cases h
    · cases h
    · rename_i dir res _ hfetch
      obtain ⟨-, hdev, htail⟩ := dirFetchmatch_found hfetch
      rcases mountDir_cases cfg s dir res with ⟨s₁, hdir, hmoves, -⟩ | ⟨e, hdir, hstops⟩
      · rw [hdir] at h
        obtain ⟨hends, hcount, hroot⟩ := ih h
        rw [htail] at hends
        refine ⟨.next hdev hends, hcount.trans hmoves.blockCount, ?_⟩
        rcases hroot with hroot | hroot
        · rcases hmoves.root with hold | hnew
          · exact .inl (hroot.trans hold)
          · rw [← hnew, ← hroot] at hdev
            exact .inr ⟨tail, dir.log, hdev, hends⟩
        · exact .inr hroot
      · rw [hdir] at h
        exact absurd (congrArg Prod.fst (Option.some.inj h)) hstops.notDone

/-- With a configured block size a pass ends without another size to try. -/
theorem mountPass_fixed (hsize : cfg.blockSize ≠ 0) {tail : BlockPair}
    (h : mountPass dev cfg fuel cycle tail s = some (e, s')) (hlimit : s.sizeLimit = s.blockSize) :
    e ≠ .nextMount ∧ s'.blockSize = s.blockSize ∧ s'.sizeLimit = s.blockSize := by
  induction fuel generalizing cycle tail s with
  | zero => cases h
  | succ fuel ih =>
    unfold mountPass at h
    split at h
    · cases h
      exact ⟨fun h => (by cases h), rfl, hlimit⟩
    split at h
    · cases h
      exact ⟨fun h => (by cases h), rfl, hlimit⟩
    split at h
    · cases h
      exact ⟨fun h => (by cases h), rfl, hlimit⟩
    · cases h
      exact ⟨fun h => (by cases h), rfl, hlimit⟩
    · rename_i dir res _ hfetch
      rcases mountDir_cases cfg s dir res with ⟨s₁, hdir, hmoves, hnew⟩ | ⟨r, hdir, hstops⟩
      · rw [hdir] at h
        obtain ⟨hnot, hblock, hlimit'⟩ := ih h (hnew.trans hmoves.blockSize.symm)
        exact ⟨hnot, hblock.trans hmoves.blockSize, hlimit'.trans hmoves.blockSize⟩
      · rw [hdir] at h
        obtain rfl : r = (e, s') := Option.some.inj h
        obtain ⟨hnot, hblock, hlimit'⟩ := hstops.fixed hsize
        exact ⟨hnot, hblock, hlimit'.trans hlimit⟩

theorem passBlockCount_lt (cfg : MountConfig) (blockSize : Nat) :
    passBlockCount cfg blockSize < 2 ^ 64 := by
  unfold passBlockCount
  split
  · decide
  · split
    · exact (Nat.div_le_self ..).trans_lt cfg.blockCount_lt
    · exact cfg.blockCount_lt

theorem nextBlockSize_limit (cfg : MountConfig) (fuel blockSize : Nat) :
    nextBlockSize cfg blockSize fuel blockSize = none ∨
      nextBlockSize cfg blockSize fuel blockSize = some none := by
  cases fuel with
  | zero => exact .inl rfl
  | succ fuel =>
    have := cfg.eraseSize_pos
    rw [nextBlockSize]
    exact .inr (if_pos (by omega))

/-- With a configured block size the search has one pass. -/
theorem mountSearch_fixed {image : Nat → Nat → DiskBlock} (hsize : cfg.blockSize ≠ 0)
    (hlimit : s.sizeLimit = s.blockSize) (h : mountSearch image cfg fuel s = some (.ok s')) :
    ∃ fuel, mountPass (blocksDevice (image s.blockSize)) cfg fuel 0 (0, 1)
      { s with blockCount := passBlockCount cfg s.blockSize } = some (.done, s') := by
  cases fuel with
  | zero => cases h
  | succ fuel =>
    unfold mountSearch at h
    dsimp only at h
    refine ⟨fuel, ?_⟩
    split at h
    · cases h
    · rename_i hpass
      cases h
      exact hpass
    · cases h
    · rename_i hpass
      exact absurd rfl (mountPass_fixed hsize hpass hlimit).1
    · rename_i s₁ hpass
      obtain ⟨-, hblock, hlimit'⟩ := mountPass_fixed hsize hpass hlimit
      rw [hlimit'.trans hblock.symm] at h
      rcases nextBlockSize_limit cfg fuel s₁.blockSize with hnext | hnext
      · rw [hnext] at h
        cases h
      · rw [hnext] at h
        cases h

/-- **The root of a mount.** With a configured block size the tail list from the root on ends. -/
theorem rawMount_root {image : Nat → Nat → DiskBlock} {m : MountState}
    (hsize : cfg.blockSize ≠ 0) (h : rawMount image cfg fuel = some (.ok m)) :
    ListEnds (blocksDevice (image m.blockSize)) m.root ∧ m.blockCount < 2 ^ 64 := by
  unfold rawMount at h
  split at h
  · rename_i s hsearch
    split at h
    · cases h
    rename_i hroot
    cases h
    have hstart : (mountStart cfg).sizeLimit = (mountStart cfg).blockSize := by
      simp only [mountStart, hsize, ↓reduceIte]
    obtain ⟨fuel, hpass⟩ := mountSearch_fixed hsize hstart hsearch
    have hblock := (mountPass_fixed hsize hpass hstart).2.1
    obtain ⟨-, hcount, hfound⟩ := mountPass_done hpass
    refine ⟨?_, hcount.trans_lt (passBlockCount_lt ..)⟩
    change ListEnds (blocksDevice (image s.blockSize)) s.root
    rw [hblock]
    rcases hfound with hnone | ⟨pair, log, hdev, hends⟩
    · have hnull : s.root = (blockNull, blockNull) := hnone
      rw [hnull] at hroot
      exact absurd rfl hroot
    · exact .next (blocksDevice_idem hdev) hends
  · rename_i hnot
    exact absurd h (hnot m)

end LittleFs
