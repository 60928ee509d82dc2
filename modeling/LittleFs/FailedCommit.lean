import LittleFs.CommitWrite
import LittleFs.Relocate

/-! What `lfs_dir_commit` has changed in memory when it fails: the tail pairs of its splits take the
global state and the root with them when they are written, before anything on disk refers to them.
What is on disk is compared through a mount, which follows the tails from the pair `{0, 1}` on. -/

namespace LittleFs

/-! ## The mount -/

/-- A metadata pair as a fetch finds it: whether it has the superblock entry, and what it stores of
the global state. -/
structure DiskPair where
  pair : BlockPair
  tail : BlockPair := (blockNull, blockNull)
  split : Bool := false
  superblock : Bool := false
  delta : GState := {}
  deriving DecidableEq, Repr

def fetchPairs (disk : List DiskPair) (pair : BlockPair) : Option DiskPair :=
  disk.find? fun p => pairSync p.pair pair

/-- The scan of `lfs_raw_mount` for superblocks and global updates. -/
def mountLoop (disk : List DiskPair) :
    (cycles : Nat) → (tail root : BlockPair) → GState → Except Int (BlockPair × GState)
  | cycles, tail, root, gstate =>
    if pairIsnull tail then .ok (root, gstate)
    else match cycles with
      -- loop detected
      | 0 => .error errCorrupt
      | cycles + 1 =>
        match fetchPairs disk tail with
        | none => .error errCorrupt
        | some p =>
          mountLoop disk cycles p.tail (if p.superblock then p.pair else root)
            (gstateXor gstate p.delta)

/-- The fields of `lfs_t` that a commit changes, and the pairs of the device, in any order. -/
structure Volume where
  states : GlobalStates := {}
  root : BlockPair
  blockCount : Nat
  disk : List DiskPair
  deriving DecidableEq, Repr

/-- `lfs_raw_mount` of superblocks that it accepts: `lfs->root` and `lfs->gdisk`. -/
def Volume.mount (v : Volume) : Except Int (BlockPair × GState) :=
  match mountLoop v.disk (v.blockCount / 2) (0, 1) (blockNull, blockNull) {} with
  | .error err => .error err
  | .ok (root, gstate) =>
    -- found superblock?
    if pairIsnull root then .error errInval
    else .ok (root, { gstate with tag := gstate.tag + if tagIsValid gstate.tag then 0 else 1 })

/-- The states are the same but for the number of orphans, which is not stored. -/
def SameGstate (a b : GState) : Prop :=
  a.tag &&& ~~~ mkTag 0 0 0x3ff = b.tag &&& ~~~ mkTag 0 0 0x3ff ∧ a.pair = b.pair

/-- A mount of the device finds the root and the state in memory. -/
def Volume.Mounted (v : Volume) : Prop :=
  ∃ root gdisk, v.mount = .ok (root, gdisk) ∧ pairSync root v.root = true ∧
    SameGstate gdisk v.states.gdisk

/-! ## The commit -/

/-- An error code. -/
def Failure := { err : Int // err < 0 }

/-- How the loop of `lfs_dir_compact` ends; `pair` is the one that it has written. -/
inductive CompactEnd where
  | failed (e : Failure)
  | written (relocated : Bool) (pair : BlockPair)

/-- How `lfs_dir_split` ends: without a pair for the tail, or with its compaction. -/
inductive SplitEnd where
  | alloc (e : Failure)
  | compact (pair : BlockPair) (last : CompactEnd)

/-- The expansion of the superblock: `lfs_fs_rawsize` fails, or the split. -/
inductive ExpandEnd where
  | size (e : Failure)
  | split (e : SplitEnd)

/-- How `lfs_dir_relocating_commit` goes. -/
inductive CommitEnd where
  /-- `lfs_fs_pred` fails. -/
  | lookup (e : Failure)
  /-- The directory is to be dropped. -/
  | dropped
  | appended
  /-- An error for which the commit does not fall back to a compaction. -/
  | appendFailed (e : Failure)
  | compacted (splits : List SplitEnd) (expand : Option ExpandEnd) (last : CompactEnd)

/-- A pair that has been written. -/
def Volume.store (v : Volume) (p : DiskPair) : Volume :=
  { v with disk := p :: v.disk.filter fun q => !pairSync q.pair p.pair }

/-- What `lfs_dir_compact` stores of the global state. -/
def compactDelta (s : GlobalStates) (relocated : Bool) (own : GState) : GState :=
  let delta := if relocated then {} else gstateXor s.gdisk s.gstate
  let delta := gstateXor delta s.gdelta
  gstateXor { delta with tag := delta.tag &&& ~~~ mkTag 0 0 0x3ff } own

/-- `lfs_dir_compact`. -/
def Volume.dirCompact (v : Volume) (dir : DiskPair) : CompactEnd → Int × Volume × DiskPair
  | .failed e => (e.val, v, dir)
  | .written relocated pair =>
    let dir := { dir with pair := pair, delta := compactDelta v.states relocated dir.delta }
    -- update gstate
    let gdisk := if relocated then v.states.gdisk else v.states.gstate
    let v := { v with states := { v.states with gdisk := gdisk, gdelta := {} } }
    (if relocated then okRelocated else errOk, v.store dir, dir)

/-- `lfs_dir_split`; `whole` says that the split starts at the first entry. -/
def Volume.dirSplit (v : Volume) (dir : DiskPair) (whole : Bool) :
    SplitEnd → Int × Volume × DiskPair
  | .alloc e => (e.val, v, dir)
  | .compact pair last =>
    let tail : DiskPair :=
      { pair := pair, tail := dir.tail, split := dir.split, superblock := whole && dir.superblock }
    let (res, v, tail) := v.dirCompact tail last
    if res < 0 then (res, v, dir)
    else
      -- update root if needed
      let v := if pairCmp dir.pair v.root = false ∧ whole then { v with root := tail.pair } else v
      (errOk, v, { dir with tail := tail.pair, split := true })

/-- The expansion of the superblock in `lfs_dir_splittingcompact`, and the compaction behind it. -/
def Volume.expand (v : Volume) (dir : DiskPair) (last : CompactEnd) :
    Option ExpandEnd → Int × Volume × DiskPair
  | none => v.dirCompact dir last
  | some (.size e) => (e.val, v, dir)
  | some (.split e) =>
    let (err, v, dir) := v.dirSplit dir true e
    if err ≠ errOk ∧ err ≠ errNospc then (err, v, dir)
    else v.dirCompact (if err = errOk then { dir with superblock := false } else dir) last

/-- `lfs_dir_splittingcompact`. -/
def Volume.splittingcompact (v : Volume) (dir : DiskPair) (expand : Option ExpandEnd)
    (last : CompactEnd) : List SplitEnd → Int × Volume × DiskPair
  | [] => v.expand dir last expand
  | e :: splits =>
    let (err, v, dir) := v.dirSplit dir false e
    if err ≠ errOk ∧ err ≠ errNospc then (err, v, dir)
    -- we can't allocate a new block, try to compact with degraded performance
    else if err ≠ errOk then v.expand dir last expand
    else v.splittingcompact dir expand last splits

def DiskPair.setTail (dir : DiskPair) : Option (BlockPair × Bool) → DiskPair
  | none => dir
  | some (tail, split) => { dir with tail := tail, split := split }

/-- `lfs_dir_relocating_commit` up to the fix-up of the open handles, for a commit that changes the
tail to the one given. -/
def Volume.relocatingCommit (v : Volume) (dir : DiskPair) (tail : Option (BlockPair × Bool))
    (e : CommitEnd) : Int × Volume × DiskPair :=
  let dir := dir.setTail tail
  match e with
  | .lookup e => (e.val, v, dir)
  | .dropped => (okDropped, v, dir)
  | .appended =>
    let delta := gstateXor (gstateXor v.states.gstate v.states.gdisk) v.states.gdelta
    let delta := { delta with tag := delta.tag &&& ~~~ mkTag 0 0 0x3ff }
    let dir := if gstateIszero delta then dir else { dir with delta := gstateXor delta dir.delta }
    let v := { v with states := { v.states with gdisk := v.states.gstate, gdelta := {} } }
    (errOk, v.store dir, dir)
  | .appendFailed e => (e.val, v, dir)
  | .compacted splits expand last => v.splittingcompact dir expand last splits

/-- How a commit goes until the pair's own commit is on disk. -/
inductive CommitRun where
  /-- The eviction of an inline file fails. -/
  | evict (e : Failure)
  | commit (e : CommitEnd)
  /-- The directory is dropped, but its state cannot be read. -/
  | dropState (e : Failure)
  /-- The directory is dropped by a commit to its predecessor. -/
  | drop (pdir : DiskPair) (e : CommitEnd)

/-- `lfs_dir_orphaning_commit` until the pair's own commit is on disk. -/
def Volume.commitToDisk (v : Volume) (dir : DiskPair) (tail : Option (BlockPair × Bool)) :
    CommitRun → Int × Volume
  | .evict e => (e.val, v)
  | .commit e =>
    let (state, v, _) := v.relocatingCommit dir tail e
    (state, v)
  | .dropState e =>
    let (_, v, _) := v.relocatingCommit dir tail .dropped
    (e.val, v)
  | .drop pdir e =>
    let (_, v, dir) := v.relocatingCommit dir tail .dropped
    -- steal state
    let v := { v with states := { v.states with gdelta := gstateXor v.states.gdelta dir.delta } }
    -- steal tail
    let (state, v, _) := v.relocatingCommit pdir (some (dir.tail, dir.split)) e
    (state, v)

/-! ## What a mount reads -/

theorem SameGstate.symm (h : SameGstate a b) : SameGstate b a := ⟨h.1.symm, h.2.symm⟩

theorem SameGstate.trans (h : SameGstate a b) (h' : SameGstate b c) : SameGstate a c :=
  ⟨h.1.trans h'.1, h.2.trans h'.2⟩

/-- A mount may fetch the pair. -/
def Referenced (disk : List DiskPair) (pair : BlockPair) : Prop :=
  pair = (0, 1) ∨ ∃ p ∈ disk, pair = p.tail

/-- The pairs that a mount fetches are the same. -/
def SameList (disk disk' : List DiskPair) : Prop :=
  ∀ pair, Referenced disk pair → fetchPairs disk' pair = fetchPairs disk pair

/-- Nothing refers to the pair. -/
def Unused (disk : List DiskPair) (pair : BlockPair) : Prop :=
  ∀ p, Referenced disk p → pairSync pair p = false

theorem referenced_tail (h : fetchPairs disk pair = some p) : Referenced disk p.tail :=
  .inr ⟨p, List.mem_of_find?_eq_some h, rfl⟩

theorem sync_of_fetch (h : fetchPairs disk pair = some p) : pairSync p.pair pair = true := by
  have hsync := List.find?_some h
  exact hsync

theorem SameList.mountLoop {disk disk' : List DiskPair} (h : SameList disk disk')
    (hreferenced : Referenced disk tail) :
    mountLoop disk' cycles tail root gstate = mountLoop disk cycles tail root gstate := by
  induction cycles generalizing tail root gstate with
  | zero => rw [LittleFs.mountLoop, LittleFs.mountLoop]
  | succ cycles ih =>
    rw [LittleFs.mountLoop, LittleFs.mountLoop, h tail hreferenced]
    split
    · rfl
    · cases hfetch : fetchPairs disk tail with
      | none => rfl
      | some p => exact ih (referenced_tail hfetch)

theorem SameList.mount {v v' : Volume} (h : SameList v.disk v'.disk)
    (hcount : v'.blockCount = v.blockCount) : v'.mount = v.mount := by
  rw [Volume.mount, Volume.mount, hcount, h.mountLoop (.inl rfl)]

/-- The root that a mount finds is a pair that it fetches. -/
theorem referenced_of_mountLoop {disk : List DiskPair} (hreferenced : Referenced disk tail)
    (h : mountLoop disk cycles tail root gstate = .ok (root', gstate')) :
    root' = root ∨ ∃ pair, Referenced disk pair ∧ pairSync root' pair = true := by
  induction cycles generalizing tail root gstate with
  | zero =>
    rw [mountLoop] at h
    split at h
    · cases h
      exact .inl rfl
    · cases h
  | succ cycles ih =>
    rw [mountLoop] at h
    split at h
    · cases h
      exact .inl rfl
    · cases hfetch : fetchPairs disk tail with
      | none =>
        rw [hfetch] at h
        cases h
      | some p =>
        rw [hfetch] at h
        rcases ih (referenced_tail hfetch) h with rfl | hroot
        · split
          · exact .inr ⟨tail, hreferenced, sync_of_fetch hfetch⟩
          · exact .inl rfl
        · exact .inr hroot

theorem referenced_of_mount {v : Volume} (h : v.mount = .ok (root, gdisk)) :
    ∃ pair, Referenced v.disk pair ∧ pairSync root pair = true := by
  rw [Volume.mount] at h
  split at h
  · cases h
  · rename_i root' gstate hloop
    split at h
    · cases h
    · rename_i hnull
      cases h
      refine (referenced_of_mountLoop (.inl rfl) hloop).resolve_left fun heq => hnull ?_
      rw [heq]
      decide

theorem pairSync_symm (h : pairSync paira pairb = true) : pairSync pairb paira = true := by
  rcases pairSync_cases h with rfl | rfl
  · exact pairSync_refl _
  · simp [pairSync]

theorem pairSync_trans (h : pairSync paira pairb = true) (h' : pairSync pairb pairc = true) :
    pairSync paira pairc = true := by
  rcases pairSync_cases h with rfl | rfl
  · exact h'
  · rcases pairSync_cases h' with rfl | rfl
    · simp [pairSync]
    · rw [Prod.swap_swap]
      exact pairSync_refl _

theorem SameList.store {v : Volume} (h : SameList disk v.disk) (hunused : Unused disk p.pair) :
    SameList disk (v.store p).disk := by
  intro pair hreferenced
  rw [← h pair hreferenced, fetchPairs, fetchPairs, Volume.store,
    List.find?_cons_of_neg (by rw [hunused pair hreferenced]; exact Bool.false_ne_true),
    List.find?_filter]
  refine congrArg (List.find? · v.disk) (funext fun q => ?_)
  refine Bool.eq_iff_iff.mpr (decide_eq_true_iff.trans (and_iff_right_of_imp fun hq => ?_))
  rw [Bool.not_eq_true', Bool.eq_false_iff]
  intro hsync
  have hpair := hunused pair hreferenced
  rw [pairSync_trans (pairSync_symm hsync) hq] at hpair
  cases hpair

/-! ## What a failed commit leaves -/

/-- `v'` has written pairs that nothing on the device of `v` refers to: `synced` says that one of
them took the changes of the global state, `moved` that the root has become one of them. -/
structure Unlinked (v v' : Volume) (synced moved : Bool) : Prop where
  blockCount : v'.blockCount = v.blockCount
  list : SameList v.disk v'.disk
  gstate : v'.states.gstate = v.states.gstate
  gdisk : v'.states.gdisk = if synced then v.states.gstate else v.states.gdisk
  root : if moved then Unused v.disk v'.root else v'.root = v.root

theorem Unlinked.refl (v : Volume) : Unlinked v v false false :=
  ⟨rfl, fun _ _ => rfl, rfl, rfl, rfl⟩

theorem Unlinked.mounted_iff {v v' : Volume} (h : Unlinked v v' synced moved) (H : v.Mounted) :
    v'.Mounted ↔ (synced = true → SameGstate v.states.gstate v.states.gdisk) ∧ moved = false := by
  obtain ⟨root, gdisk, hmount, hroot, hgdisk⟩ := H
  have hmount' := (h.list.mount h.blockCount).trans hmount
  have hsame : v'.Mounted ↔ pairSync root v'.root = true ∧ SameGstate gdisk v'.states.gdisk := by
    refine ⟨fun ⟨_, _, hm, hr, hg⟩ => ?_, fun hm => ⟨root, gdisk, hmount', hm⟩⟩
    cases hmount'.symm.trans hm
    exact ⟨hr, hg⟩
  rw [hsame, h.gdisk, and_comm]
  refine and_congr ?_ ?_
  · cases synced with
    | false => exact ⟨fun _ => nofun, fun _ => hgdisk⟩
    | true => exact ⟨fun hs _ => hs.symm.trans hgdisk, fun hs => hgdisk.trans (hs rfl).symm⟩
  · have hr := h.root
    cases moved with
    | false =>
      rw [show v'.root = v.root from hr]
      exact ⟨fun _ => rfl, fun _ => hroot⟩
    | true =>
      refine ⟨fun hsync => ?_, nofun⟩
      obtain ⟨pair, hreferenced, hpair⟩ := referenced_of_mount hmount
      have hunused := hr pair hreferenced
      rw [pairSync_trans (pairSync_symm hsync) hpair] at hunused
      cases hunused

theorem Unlinked.trans (h : Unlinked v v₁ synced false) (hlist : SameList v.disk v'.disk)
    (hcount : v'.blockCount = v₁.blockCount) (hgstate : v'.states.gstate = v₁.states.gstate)
    (hgdisk : v'.states.gdisk = if synced' then v₁.states.gstate else v₁.states.gdisk)
    (hroot : if moved then Unused v.disk v'.root else v'.root = v₁.root) :
    Unlinked v v' (synced || synced') moved := by
  refine ⟨hcount.trans h.blockCount, hlist, hgstate.trans h.gstate, ?_, ?_⟩
  · rw [hgdisk, h.gstate, h.gdisk]
    cases synced <;> cases synced' <;> rfl
  · rwa [show v₁.root = v.root from h.root] at hroot

/-! ## The condition -/

def SplitEnd.result : SplitEnd → Int
  | .alloc e | .compact _ (.failed e) => e.val
  | .compact _ (.written ..) => errOk

/-- The tail takes the changes of the global state. -/
def SplitEnd.syncs : SplitEnd → Bool
  | .compact _ (.written relocated _) => !relocated
  | _ => false

/-- The pair that the tail is written to. -/
def SplitEnd.tailPair : SplitEnd → Option BlockPair
  | .compact _ (.written _ pair) => some pair
  | _ => none

/-- A tail that is written before the splits end takes the changes of the global state. -/
def splitsSync : List SplitEnd → Bool
  | [] => false
  | e :: splits => if e.result = errOk then e.syncs || splitsSync splits else false

/-- The splits end without an error, or without a block for another one. -/
def splitsDone : List SplitEnd → Bool
  | [] => true
  | e :: splits => if e.result = errOk then splitsDone splits else e.result = errNospc

/-- Before it fails, the commit hands the changes of the global state to a pair of its own. -/
def CommitEnd.syncs : CommitEnd → Bool
  | .compacted splits (some (.split e)) _ =>
    splitsSync splits || (splitsDone splits && e.syncs)
  | .compacted splits _ _ => splitsSync splits
  | _ => false

/-- Before it fails, the commit has moved all entries of the directory to another pair. -/
def CommitEnd.expands : CommitEnd → Bool
  | .compacted splits (some (.split e)) _ => splitsDone splits && e.result = errOk
  | _ => false

/-- The pairs that the tails are written to. -/
def CommitEnd.tailPairs : CommitEnd → List BlockPair
  | .compacted splits (some (.split e)) _ => (splits ++ [e]).filterMap SplitEnd.tailPair
  | .compacted splits _ _ => splits.filterMap SplitEnd.tailPair
  | _ => []

/-- Nothing is handed over that a mount would miss. -/
def CommitEnd.Keeps (v : Volume) (dir : DiskPair) (e : CommitEnd) : Prop :=
  (e.syncs = true → SameGstate v.states.gstate v.states.gdisk) ∧
    ¬ (e.expands = true ∧ SharesBlock dir.pair v.root)

def CommitRun.Keeps (v : Volume) (dir : DiskPair) : CommitRun → Prop
  | .commit e => e.Keeps v dir
  | .drop pdir e => e.Keeps v pdir
  | _ => True

def CommitRun.tailPairs : CommitRun → List BlockPair
  | .commit e | .drop _ e => e.tailPairs
  | _ => []

/-! ## The steps of a compaction -/

theorem Volume.dirCompact_failed {v : Volume} (h : v.dirCompact dir last = (err, v', dir'))
    (herr : err < 0) : v' = v := by
  cases last with
  | failed e =>
    cases h
    rfl
  | written relocated pair =>
    cases relocated <;> cases h <;> cases herr

theorem Volume.dirSplit_failed {v : Volume} (h : e.result ≠ errOk) :
    v.dirSplit dir whole e = (e.result, v, dir) := by
  obtain e | ⟨pair, e | ⟨relocated, pair'⟩⟩ := e
  · rfl
  · rw [Volume.dirSplit, Volume.dirCompact]
    exact if_pos e.property
  · exact absurd rfl h

theorem Unlinked.dirSplit (h : Unlinked v v₁ synced false) (dir : DiskPair) (whole : Bool)
    (hresult : e.result = errOk)
    (hfresh : ∀ pair, e.tailPair = some pair → Unused v.disk pair) :
    ∃ v' dir', v₁.dirSplit dir whole e = (errOk, v', dir') ∧ dir'.pair = dir.pair ∧
      Unlinked v v' (synced || e.syncs) (whole && !pairCmp dir.pair v.root) := by
  obtain e | ⟨pair, e | ⟨relocated, pair'⟩⟩ := e
  · exact absurd hresult (Int.ne_of_lt e.property)
  · exact absurd hresult (Int.ne_of_lt e.property)
  · have hunused := hfresh pair' rfl
    have hres : ¬ (if relocated then okRelocated else errOk) < 0 := by cases relocated <;> decide
    have hroot : v₁.root = v.root := h.root
    rw [Volume.dirSplit, Volume.dirCompact]
    dsimp only
    rw [if_neg hres]
    refine ⟨_, _, rfl, rfl, ?_⟩
    rw [show (SplitEnd.compact pair (.written relocated pair')).syncs = !relocated from rfl]
    cases hmoved : (whole && !pairCmp dir.pair v.root) with
    | false =>
      rw [if_neg]
      · refine h.trans (h.list.store hunused) rfl rfl ?_ rfl
        cases relocated <;> rfl
      · intro hcond
        change pairCmp dir.pair v₁.root = false ∧ whole = true at hcond
        rw [hroot] at hcond
        rw [hcond.1, hcond.2] at hmoved
        cases hmoved
    | true =>
      obtain ⟨hwhole, hcmp⟩ : whole = true ∧ pairCmp dir.pair v.root = false := by
        simpa using hmoved
      rw [if_pos ⟨(congrArg (pairCmp dir.pair) hroot).trans hcmp, hwhole⟩]
      refine h.trans (h.list.store hunused) rfl rfl ?_ hunused
      cases relocated <;> rfl

theorem Unlinked.expand (h : Unlinked v v₁ synced false)
    (hfresh : ∀ e, grow = some (.split e) → ∀ pair, e.tailPair = some pair → Unused v.disk pair)
    (hrun : v₁.expand dir last grow = (err, v', dir')) (herr : err < 0) :
    Unlinked v v' (synced || (CommitEnd.compacted [] grow last).syncs)
      ((CommitEnd.compacted [] grow last).expands && !pairCmp dir.pair v.root) := by
  obtain _ | e | e := grow
  · obtain rfl := Volume.dirCompact_failed hrun herr
    rwa [show (CommitEnd.compacted [] none last).syncs = false from rfl, Bool.or_false]
  · cases hrun
    rwa [show (CommitEnd.compacted [] (some (.size e)) last).syncs = false from rfl, Bool.or_false]
  · have hsyncs : (CommitEnd.compacted [] (some (.split e)) last).syncs = e.syncs := Bool.false_or _
    rw [hsyncs]
    rw [Volume.expand] at hrun
    by_cases hresult : e.result = errOk
    · obtain ⟨v₂, dir₂, hsplit, hpair, hv₂⟩ := h.dirSplit dir true hresult
        (hfresh e rfl)
      rw [hsplit] at hrun
      dsimp only at hrun
      rw [if_neg (fun hne => hne.1 rfl)] at hrun
      obtain rfl := Volume.dirCompact_failed hrun herr
      have hexpands : (CommitEnd.compacted [] (some (.split e)) last).expands = true := by
        rw [CommitEnd.expands, hresult]
        rfl
      rwa [hexpands]
    · rw [Volume.dirSplit_failed hresult] at hrun
      dsimp only at hrun
      have hv' : v' = v₁ := by
        split at hrun
        · cases hrun
          rfl
        · exact Volume.dirCompact_failed hrun herr
      have hexpands : (CommitEnd.compacted [] (some (.split e)) last).expands = false := by
        simp [CommitEnd.expands, splitsDone, hresult]
      have hsync : e.syncs = false := by
        obtain e | ⟨pair, e | ⟨relocated, pair'⟩⟩ := e
        · rfl
        · rfl
        · exact absurd rfl hresult
      rwa [hexpands, hsync, Bool.or_false, hv']

theorem CommitEnd.compacted_cons (splits : List SplitEnd) (grow : Option ExpandEnd)
    (last : CompactEnd) (h : e.result = errOk) :
    (CommitEnd.compacted (e :: splits) grow last).syncs =
        (e.syncs || (CommitEnd.compacted splits grow last).syncs) ∧
      (CommitEnd.compacted (e :: splits) grow last).expands =
        (CommitEnd.compacted splits grow last).expands := by
  obtain _ | e' | e' := grow <;>
    simp [CommitEnd.syncs, CommitEnd.expands, splitsSync, splitsDone, h, Bool.or_assoc]

/-- A split without a block ends the splits. -/
theorem CommitEnd.compacted_nospc (splits : List SplitEnd) (grow : Option ExpandEnd)
    (last : CompactEnd) (hnospc : e.result = errNospc) :
    (CommitEnd.compacted (e :: splits) grow last).syncs =
        (CommitEnd.compacted [] grow last).syncs ∧
      (CommitEnd.compacted (e :: splits) grow last).expands =
        (CommitEnd.compacted [] grow last).expands := by
  have hne : ¬ errNospc = errOk := by decide
  obtain _ | e' | e' := grow <;>
    simp [CommitEnd.syncs, CommitEnd.expands, splitsSync, splitsDone, hnospc, hne]

theorem CommitEnd.compacted_error (splits : List SplitEnd) (grow : Option ExpandEnd)
    (last : CompactEnd) (h : e.result ≠ errOk) (hnospc : e.result ≠ errNospc) :
    (CommitEnd.compacted (e :: splits) grow last).syncs = false ∧
      (CommitEnd.compacted (e :: splits) grow last).expands = false := by
  obtain _ | e' | e' := grow <;>
    simp [CommitEnd.syncs, CommitEnd.expands, splitsSync, splitsDone, h, hnospc]

theorem CommitEnd.mem_tailPairs_cons (h : pair ∈ (CommitEnd.compacted splits grow last).tailPairs) :
    pair ∈ (CommitEnd.compacted (e :: splits) grow last).tailPairs := by
  have hmem : ∀ l : List SplitEnd, pair ∈ l.filterMap SplitEnd.tailPair →
      pair ∈ (e :: l).filterMap SplitEnd.tailPair := by
    intro l hl
    obtain ⟨e', he', hpair⟩ := List.mem_filterMap.mp hl
    exact List.mem_filterMap.mpr ⟨e', List.mem_cons_of_mem _ he', hpair⟩
  obtain _ | e' | e' := grow <;> exact hmem _ h

theorem CommitEnd.mem_tailPairs (h : e.tailPair = some pair) :
    pair ∈ (CommitEnd.compacted (e :: splits) grow last).tailPairs := by
  obtain _ | e' | e' := grow <;>
    exact List.mem_filterMap.mpr ⟨e, List.mem_cons_self, h⟩

theorem Unlinked.splittingcompact (h : Unlinked v v₁ synced false)
    (hfresh : ∀ pair ∈ (CommitEnd.compacted splits grow last).tailPairs, Unused v.disk pair)
    (hrun : v₁.splittingcompact dir grow last splits = (err, v', dir')) (herr : err < 0) :
    Unlinked v v' (synced || (CommitEnd.compacted splits grow last).syncs)
      ((CommitEnd.compacted splits grow last).expands && !pairCmp dir.pair v.root) := by
  have hgrow : ∀ e, grow = some (.split e) → ∀ pair, e.tailPair = some pair →
      Unused v.disk pair := by
    rintro e rfl pair hpair
    refine hfresh pair (List.mem_filterMap.mpr ⟨e, ?_, hpair⟩)
    exact List.mem_append_right _ (List.mem_singleton_self e)
  induction splits generalizing v₁ dir synced with
  | nil => exact h.expand hgrow hrun herr
  | cons e splits ih =>
    rw [Volume.splittingcompact] at hrun
    by_cases hresult : e.result = errOk
    · obtain ⟨v₂, dir₂, hsplit, hpair, hv₂⟩ := h.dirSplit dir false hresult
        fun pair hpair => hfresh pair (CommitEnd.mem_tailPairs hpair)
      rw [hsplit] at hrun
      dsimp only at hrun
      rw [if_neg (fun hne => hne.1 rfl), if_neg (fun hne => hne rfl)] at hrun
      obtain ⟨hsyncs, hexpands⟩ := CommitEnd.compacted_cons splits grow last hresult
      have hrest := ih hv₂ (fun pair hmem => hfresh pair (CommitEnd.mem_tailPairs_cons hmem)) hrun
      rwa [hpair, Bool.or_assoc, ← hsyncs, ← hexpands] at hrest
    · rw [Volume.dirSplit_failed hresult] at hrun
      dsimp only at hrun
      by_cases hnospc : e.result = errNospc
      · rw [if_neg (fun hne => hne.2 hnospc), if_pos hresult] at hrun
        obtain ⟨hsyncs, hexpands⟩ := CommitEnd.compacted_nospc splits grow last hnospc
        rw [hsyncs, hexpands]
        exact h.expand hgrow hrun herr
      · rw [if_pos ⟨hresult, hnospc⟩] at hrun
        cases hrun
        obtain ⟨hsyncs, hexpands⟩ := CommitEnd.compacted_error splits grow last hresult hnospc
        rwa [hsyncs, hexpands, Bool.or_false]

theorem Unlinked.relocatingCommit (h : Unlinked v v₁ false false)
    (hfresh : ∀ pair ∈ e.tailPairs, Unused v.disk pair)
    (hrun : v₁.relocatingCommit dir tail e = (err, v', dir')) (herr : err < 0) :
    Unlinked v v' e.syncs (e.expands && !pairCmp dir.pair v.root) := by
  have hpair : (dir.setTail tail).pair = dir.pair := by cases tail <;> rfl
  rw [← hpair]
  cases e with
  | lookup e | appendFailed e =>
    cases hrun
    exact h
  | dropped | appended =>
    cases hrun
    cases herr
  | compacted splits grow last => exact h.splittingcompact hfresh hrun herr

/-- When `lfs_dir_commit` fails before its commit is on disk, `lfs->root` and `lfs->gdisk` are what
a mount would find just when nothing was handed to a pair that it would miss. -/
theorem commitToDisk_mounted_iff {v v' : Volume} (H : v.Mounted) (run : CommitRun)
    (hfresh : ∀ pair ∈ run.tailPairs, Unused v.disk pair)
    (h : v.commitToDisk dir tail run = (err, v')) (herr : err < 0) :
    v'.Mounted ↔ run.Keeps v dir := by
  have hcmp : ∀ (e : CommitEnd) (pair : BlockPair),
      (e.expands && !pairCmp pair v.root) = false ↔
        ¬ (e.expands = true ∧ SharesBlock pair v.root) := by
    intro e pair
    rw [← pairCmp_eq_false, ← Bool.not_eq_true, Bool.and_eq_true, Bool.not_eq_true']
  cases run with
  | evict e | dropState e =>
    cases h
    exact iff_of_true H trivial
  | commit e =>
    rw [Volume.commitToDisk] at h
    generalize hrun : v.relocatingCommit dir tail e = r at h
    obtain ⟨state, v₁, dir₁⟩ := r
    cases h
    have hv' := (Unlinked.refl v).relocatingCommit hfresh hrun herr
    rw [hv'.mounted_iff H, hcmp]
    rfl
  | drop pdir e =>
    let v₀ : Volume := { v with states := { v.states with
      gdelta := gstateXor v.states.gdelta (dir.setTail tail).delta } }
    have hsteal : Unlinked v v₀ false false := ⟨rfl, fun _ _ => rfl, rfl, rfl, rfl⟩
    generalize hrun : v₀.relocatingCommit pdir
      (some ((dir.setTail tail).tail, (dir.setTail tail).split)) e = r
    have hr : v.commitToDisk dir tail (.drop pdir e) = (r.1, r.2.1) := by
      rw [← hrun]
      rfl
    obtain ⟨state, v₁, dir₁⟩ := r
    cases hr.symm.trans h
    have hv' := hsteal.relocatingCommit hfresh hrun herr
    rw [hv'.mounted_iff H, hcmp]
    rfl

/-- The root with an orphan that is not stored yet. -/
def orphanVolume : Volume :=
  { states := { gstate := ⟨0x80000001#32, (0, 0)⟩ }, root := (0, 1), blockCount := 16,
    disk := [{ pair := (0, 1), superblock := true }] }

/-- A commit to the root that splits it, to a tail at `pair`, and then fails. -/
def splitThenFail (relocated : Bool) (pair : BlockPair) : CommitRun :=
  .commit (.compacted [.compact (4, 5) (.written relocated pair)] none (.failed ⟨errIo, by decide⟩))

theorem orphanVolume_mounted : orphanVolume.Mounted :=
  ⟨(0, 1), {}, by decide +kernel, by decide, by decide, rfl⟩

theorem orphanVolume_unused (h : pairSync pair (0, 1) = false)
    (hnull : pairSync pair (blockNull, blockNull) = false) : Unused orphanVolume.disk pair := by
  rintro _ (rfl | ⟨p, hp, rfl⟩)
  · exact h
  · obtain rfl := List.mem_singleton.mp hp
    exact hnull

/-- A tail that was relocated leaves the state to the pair itself. -/
theorem commitToDisk_mounted_relocated :
    (orphanVolume.commitToDisk { pair := (0, 1), superblock := true } none
      (splitThenFail true (5, 6))).2.Mounted := by
  have hrun : orphanVolume.commitToDisk { pair := (0, 1), superblock := true } none
      (splitThenFail true (5, 6)) = (errIo, _) := rfl
  have hfresh : ∀ pair ∈ (splitThenFail true (5, 6)).tailPairs, Unused orphanVolume.disk pair := by
    intro pair hpair
    obtain rfl := List.mem_singleton.mp hpair
    exact orphanVolume_unused (by decide) (by decide)
  have hkeeps : (splitThenFail true (5, 6)).Keeps orphanVolume
      { pair := (0, 1), superblock := true } :=
    ⟨fun h => absurd h (by decide), fun h => absurd h.1 (by decide)⟩
  exact (commitToDisk_mounted_iff orphanVolume_mounted _ hfresh hrun (by decide)).mpr hkeeps

/-- A tail that is written in place takes the orphan with it. -/
theorem commitToDisk_mounted_fails :
    ¬ ∀ (v v' : Volume) (dir : DiskPair) (tail : Option (BlockPair × Bool)) (run : CommitRun)
      (err : Int), v.Mounted → (∀ pair ∈ run.tailPairs, Unused v.disk pair) →
      v.commitToDisk dir tail run = (err, v') → err < 0 → v'.Mounted := by
  intro h
  obtain ⟨root, gdisk, hmount, -, hgdisk⟩ := h orphanVolume _ { pair := (0, 1), superblock := true }
    none (splitThenFail false (5, 4)) _ orphanVolume_mounted
    (fun pair hpair => by
      obtain rfl := List.mem_singleton.mp hpair
      exact orphanVolume_unused (by decide) (by decide)) rfl (by decide)
  have hfound : (orphanVolume.commitToDisk { pair := (0, 1), superblock := true } none
      (splitThenFail false (5, 4))).2.mount = .ok ((0, 1), {}) := by decide +kernel
  cases hfound.symm.trans hmount
  exact absurd hgdisk.1 (by decide +kernel)

end LittleFs
