import LittleFs.FailedCommit

/-! The number of orphans in the global state against the orphans on disk, over every run of the
operations: `lfs_fs_preporphans` raises it before a commit that may fail, and `lfs_fs_deorphan`
lowers it by what it has found, at most.

Of the disk the tail list is kept, as `lfs_fs_deorphan` sees it: for the first pair of each
directory but the root, whether `lfs_fs_parent` finds a reference to it and whether the reference
agrees with the tail pointer. The later pairs of a split directory are walked over. An outdated
pair of a half-orphan may still refer to a directory that is an orphan; the reference agrees with
the tail pointer, the first pass goes past it, and in the second pass there are no such pairs.

A commit that relocates its pair takes effect with the commit that refers to the new pair, and the
global state that a commit has put into a pair which nothing refers to is not on disk yet. -/

namespace LittleFs

/-! ## The tail list -/

/-- The first pair of a directory. -/
inductive Head where
  /-- The reference in the parent agrees with the tail pointer. -/
  | synced
  /-- It does not: a half-orphan, left by a relocation. -/
  | half
  /-- There is no reference. -/
  | orphan
  deriving DecidableEq, Repr

def Head.bad : Head → Bool
  | .synced => false
  | _ => true

/-- The orphans and half-orphans. -/
def badHeads (heads : List Head) : Nat := heads.countP Head.bad

/-- What a commit does to the references and the tail pointers. -/
inductive Effect where
  | keep
  /-- The entry of the directory goes. -/
  | orphan (i : Nat)
  /-- The reference moves ahead of the tail pointer. -/
  | desync (i : Nat)
  /-- The tail pointer and the reference agree again. -/
  | sync (i : Nat)
  /-- The tail pointer skips the directory. -/
  | unlink (i : Nat)
  /-- The tail pointer takes in a new directory. -/
  | insert (i : Nat) (head : Head)
  deriving DecidableEq, Repr

def Effect.apply (heads : List Head) : Effect → List Head
  | .keep => heads
  | .orphan i => heads.set i .orphan
  | .desync i => heads.set i .half
  | .sync i => heads.set i .synced
  | .unlink i => heads.eraseIdx i
  | .insert i head => heads.take i ++ head :: heads.drop i

def applyEffects (heads : List Head) (effects : List Effect) : List Head :=
  effects.foldl Effect.apply heads

/-! ## The operations -/

/-- What an operation does next. -/
inductive Stage where
  | demove
  /-- `lfs_fs_deorphan(lfs, true)`. -/
  | deorphan
  /-- The reads and checks of the operation. -/
  | read
  /-- `lfs_fs_preporphans(lfs, +1)`. -/
  | raise
  /-- `lfs_fs_preporphans(lfs, -1)`. -/
  | lower
  | prepmove (id : BitVec 16) (pair : BlockPair)
  /-- The second commit of a rename. -/
  | endmove
  /-- `lfs_dir_commit`. -/
  | commit (e : Effect)
  /-- `lfs_dir_commit` to a new pair. -/
  | commitNew
  deriving DecidableEq, Repr

def forceStages : List Stage := [.demove, .deorphan]

/-- The operations; the numbers of the directories are those behind `lfs_fs_forceconsistency`. -/
inductive Operation where
  | forceconsistency
  /-- A commit to the entries of a file. -/
  | sync
  /-- The same behind `lfs_fs_forceconsistency`: a file is created or removed. -/
  | update
  /-- `lfs_dir_rawcreate`; `split` is `cwd.metadata.split`. -/
  | mkdir (i : Nat) (split : Bool)
  /-- `lfs_raw_remove` of a directory. -/
  | rmdir (i : Nat)
  /-- `lfs_raw_rename`, over the directory if there is one; `move` is the entry if it is moved to
  another pair. -/
  | rename (replaced : Option Nat) (move : Option (BitVec 16 × BlockPair))
  deriving DecidableEq, Repr

/-- `lfs_fs_pred` and `lfs_dir_drop` behind `lfs_fs_preporphans(lfs, -1)`. -/
def dropStages (i : Nat) : List Stage := [.lower, .read, .commit (.unlink i)]

def Operation.stages : Operation → List Stage
  | .forceconsistency => forceStages
  | .sync => [.commit .keep]
  | .update => forceStages ++ [.read, .commit .keep]
  | .mkdir i split => forceStages ++ [.read, .commitNew] ++
      -- current block not end of list?
      (if split then [.raise, .commit (.insert i .orphan), .lower, .commit (.sync i)]
      else [.commit (.insert i .synced)])
  | .rmdir i => forceStages ++ [.read, .raise, .commit (.orphan i)] ++ dropStages i
  | .rename replaced move => forceStages ++ [.read] ++
      (if replaced.isSome then [.raise] else []) ++
      (match move with
      | none => []
      | some (id, pair) => [.prepmove id pair]) ++
      [.commit (match replaced with
        | none => .keep
        | some i => .orphan i)] ++
      (if move.isSome then [.endmove] else []) ++
      match replaced with
      | none => []
      | some i => dropStages i

/-! ## The state -/

/-- The two passes of `lfs_fs_deorphan`. -/
inductive ScanPass where
  /-- Half-orphans. -/
  | half
  /-- Full orphans. -/
  | full
  deriving DecidableEq, Repr

/-- The loop of `lfs_fs_deorphan`; `pdir.tail` is the directory `i`. -/
structure OrphanScan where
  powerloss : Bool
  pass : ScanPass := .half
  i : Nat := 0
  found : BitVec 8 := 0#8
  deriving DecidableEq, Repr

/-- The loop of `lfs_dir_orphaning_commit`. -/
structure Relocating where
  /-- The directory whose first pair is relocated, unless this is the root or another pair. -/
  head : Option Nat
  /-- The pair is a new one. -/
  fresh : Bool := false
  /-- The commits in the relocated pairs. -/
  effects : List Effect
  orphans : Bool := false
  /-- Behind the commit to the parent, if there is one: `hasparent`. -/
  pred : Option Bool := none
  /-- The loop of `lfs_fs_deorphan` that has called it; `lfs_dir_commit` if there is none. -/
  caller : Option OrphanScan
  deriving DecidableEq, Repr

/-- The tail pointer that is written behind a commit to the parent. -/
def Relocating.tailEffect (r : Relocating) (hasparent : Bool) : Effect :=
  match r.head, hasparent with
  | some i, true => .sync i
  | _, _ => .keep

inductive Activity where
  | off
  /-- The last stage has returned. -/
  | ready (res : Int)
  | relocating (r : Relocating)
  | scanning (scan : OrphanScan)
  deriving DecidableEq, Repr

structure Session where
  gstate : GState := {}
  gdisk : GState := {}
  /-- What a mount finds. -/
  disk : GState := {}
  /-- The changes to it in pairs that nothing refers to yet. -/
  unlinked : GState := {}
  heads : List Head := []
  activity : Activity := .ready errOk
  /-- The stage that runs or has returned. -/
  stage : Option Stage := none
  todo : List Stage := []
  deriving DecidableEq, Repr

/-- How `lfs_dir_relocating_commit` goes; `taken` says that the tail of a split has been written,
with the changes to the global state. -/
inductive Reply where
  | ok
  /-- The pair has moved; it is the first one of the directory. -/
  | relocated (head : Option Nat) (taken : Bool)
  /-- It returns an error, behind the commit if that is written. -/
  | failed (err : Failure) (written : Bool) (taken : Bool)

/-- What happens next. -/
inductive Answer where
  | call (op : Operation)
  /-- The next commit, to this pair, unless the reads before it fail. -/
  | next (read : Option Failure) (pair : BlockPair) (reply : Reply)
  | powerloss
  | mount

/-- The part of the global state that is written: the number of orphans is left out. -/
def GState.stored (g : GState) : GState := { g with tag := g.tag &&& ~~~ mkTag 0 0 0x3ff }

namespace Session

/-! ## Commits -/

def done (s : Session) : Session := { s with activity := .ready errOk }

def fail (s : Session) (err : Failure) : Session :=
  { s with activity := .ready err.val, todo := [], unlinked := {} }

/-- `none` when the assertion of `lfs_fs_preporphans` fails. -/
def preporphans (s : Session) (orphans : BitVec 8) : Option Session :=
  (fsPreporphans s.gstate orphans).map fun gstate => { s with gstate }

/-- Fix a pending move in the pair. -/
def fixup (s : Session) (pair : BlockPair) : Session :=
  { s with gstate := fixupGstate s.gstate pair }

/-- The changes to the global state that a commit writes. -/
def delta (s : Session) : GState := (gstateXor s.gstate s.gdisk).stored

/-- A commit that is written to a pair of the tail list. -/
def write (s : Session) (effects : List Effect) : Session :=
  { s with
    heads := applyEffects s.heads effects
    disk := gstateXor s.disk (gstateXor s.unlinked s.delta)
    gdisk := s.gstate
    unlinked := {} }

/-- A pair is written that nothing refers to. -/
def take (s : Session) (taken : Bool) : Session :=
  if taken then { s with unlinked := gstateXor s.unlinked s.delta, gdisk := s.gstate } else s

def commit (s : Session) (effects : List Effect) (relocated : Option Nat → Relocating)
    (ok : Session → Session) : Reply → Session
  | .ok => ok (s.write effects)
  | .relocated head taken => { s.take taken with activity := .relocating (relocated head) }
  | .failed err written taken => (if written then s.write effects else s.take taken).fail err

/-- The start of `lfs_fs_deorphan`. -/
def deorphan (s : Session) (powerloss : Bool) : Session :=
  if gstateHasorphans s.gstate then { s with activity := .scanning { powerloss } } else s.done

/-- Behind `lfs_dir_orphaning_commit`: the rest of `lfs_dir_commit`, or the loop of
`lfs_fs_deorphan` goes on. -/
def committed (s : Session) (orphans : Bool) : Option OrphanScan → Session
  | none => if orphans then s.deorphan false else s.done
  | some scan =>
    let found := scan.found + 1#8
    -- did our commit create more orphans?
    if orphans then { s with activity := .scanning { powerloss := scan.powerloss, found } }
    else { s with activity := .scanning { scan with found } }

def dirOrphaningCommit (s : Session) (e : Effect) (caller : Option OrphanScan) :
    Reply → Session :=
  s.commit [e] (fun head => { head, effects := [e], caller }) (·.committed false caller)

/-- `lfs_dir_commit` to a pair outside the tail list. -/
def commitNew (s : Session) : Reply → Session
  | .ok => (s.take true).done
  | .relocated _ taken =>
    { s.take taken with
      activity := .relocating { head := none, fresh := true, effects := [], caller := none } }
  | .failed err written taken => (s.take (written || taken)).fail err

/-! ## The relocation loop -/

/-- `lfs_fs_parent` finds the parent of the first pair of the directory. -/
def hasParent (heads : List Head) : Option Nat → Bool
  | none => false
  | some i => heads[i]? = some .synced || heads[i]? = some .half

def relocateParent (s : Session) (r : Relocating) (pair : BlockPair) (reply : Reply) :
    Option Session :=
  match r.head, hasParent (applyEffects s.heads r.effects) r.head with
  | some i, true =>
    let effects := r.effects ++ [.desync i]
    -- note that if we have a parent, we must have a pred, so this will always create an orphan
    (s.preporphans 1#8).map fun s =>
      (s.fixup pair).commit effects (fun head => { r with head, effects, orphans := true })
        (fun s => { s with activity := .relocating { r with effects := [], pred := some true } })
        reply
  | _, _ => some { s with activity := .relocating { r with pred := some false } }

def relocatePred (s : Session) (r : Relocating) (hasparent : Bool) (pair : BlockPair)
    (reply : Reply) : Option Session :=
  let effects := r.effects ++ [r.tailEffect hasparent]
  (if gstateHasorphans s.gstate then
    -- next step, clean up orphans
    s.preporphans (if hasparent then -1#8 else 0#8)
  else some s).map fun s =>
    (s.fixup pair).commit effects (fun head => { r with head, effects, pred := none })
      (·.committed r.orphans r.caller) reply

def relocate (s : Session) (r : Relocating) (read : Option Failure) (pair : BlockPair)
    (reply : Reply) : Option Session :=
  match read with
  | some err => some (s.fail err)
  | none =>
    match r.pred with
    | none => s.relocateParent r pair reply
    | some hasparent =>
      -- if we can't find dir, it must be new
      if r.fresh then some (s.committed r.orphans r.caller)
      else s.relocatePred r hasparent pair reply

/-! ## `lfs_fs_deorphan` -/

/-- Mark orphans as fixed. -/
def endScan (s : Session) (scan : OrphanScan) : Option Session :=
  let getorphans := BitVec.ofNat 8 (tagSize s.gstate.tag)
  let fixed := min getorphans.toNat (scan.found.signExtend 64).toNat
  (s.preporphans (0#8 - BitVec.ofNat 8 fixed)).map done

def scan (s : Session) (scan : OrphanScan) (read : Option Failure) (pair : BlockPair)
    (reply : Reply) : Option Session :=
  match read with
  | some err => some (s.fail err)
  | none =>
    match s.heads[scan.i]?, scan.pass with
    | none, .half => some { s with activity := .scanning { scan with pass := .full, i := 0 } }
    | none, .full => s.endScan scan
    -- we have desynced
    | some .half, .half =>
      some ((s.fixup pair).dirOrphaningCommit (.sync scan.i) (some scan) reply)
    | some .orphan, .full =>
      if scan.powerloss then some (s.dirOrphaningCommit (.unlink scan.i) (some scan) reply)
      else some { s with activity := .scanning { scan with i := scan.i + 1 } }
    | _, _ => some { s with activity := .scanning { scan with i := scan.i + 1 } }

/-! ## Steps -/

/-- The reads before the commit have found the entry that it deletes. -/
def finds (s : Session) : Effect → Bool
  | .orphan i => hasParent s.heads (some i)
  | _ => true

def enter (s : Session) (stage : Stage) (read : Option Failure) (reply : Reply) :
    Option Session :=
  match stage with
  | .demove =>
    if gstateHasmove s.gdisk then
      match read with
      | some err => some (s.fail err)
      | none =>
        some ({ s with gstate := fsPrepmove s.gstate 0x3ff#16 (0, 0) }.dirOrphaningCommit .keep none
          reply)
    else some s.done
  | .deorphan => some (s.deorphan true)
  | .read =>
    match read with
    | some err => some (s.fail err)
    | none => some s.done
  | .raise => (s.preporphans 1#8).map done
  | .lower => (s.preporphans (-1#8)).map done
  | .prepmove id pair => some { s with gstate := fsPrepmove s.gstate id pair }.done
  | .endmove =>
    if gstateHasmove s.gstate then
      some ({ s with gstate := fsPrepmove s.gstate 0x3ff#16 (0, 0) }.dirOrphaningCommit .keep none
        reply)
    else some s.done
  | .commit e =>
    if s.finds e then some (s.dirOrphaningCommit e none reply) else none
  | .commitNew => some (s.commitNew reply)

def step (s : Session) : Answer → Option Session
  | .powerloss => some { s with activity := .off, todo := [] }
  | .mount =>
    match s.activity with
    | .off =>
      let tag := s.disk.tag + if tagIsValid s.disk.tag then 0#32 else 1#32
      let gstate := { s.disk with tag }
      some { gstate, gdisk := gstate, disk := s.disk, heads := s.heads }
    | _ => none
  | .call op =>
    match s.activity, s.todo with
    | .ready _, [] => some { s with activity := .ready errOk, stage := none, todo := op.stages }
    | _, _ => none
  | .next read pair reply =>
    match s.activity, s.todo with
    | .off, _ => none
    | .relocating r, _ => s.relocate r read pair reply
    | .scanning scan, _ => s.scan scan read pair reply
    | .ready _, [] => none
    | .ready _, stage :: todo =>
      { s with stage := some stage, todo }.enter stage read reply

end Session
end LittleFs
