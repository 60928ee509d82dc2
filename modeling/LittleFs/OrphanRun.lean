import LittleFs.OrphanBalance

/-! `lfs_fs_deorphan(lfs, true)` settles the orphan count, as long as no commit fails between
`lfs_fs_preporphans(lfs, +1)` and the disk: the count never exceeds the orphans there are. -/

namespace LittleFs

/-! ## The condition -/

/-- It adds an orphan. -/
def Effect.raises : Effect → Bool
  | .orphan _ | .desync _ => true
  | .insert _ head => head.bad
  | _ => false

def Reply.fails : Reply → Bool
  | .failed .. => true
  | _ => false

/-- It fails ahead of the commit or behind it. -/
def Reply.failsAt (written : Bool) : Reply → Bool
  | .failed _ w _ => w == written
  | _ => false

def Reply.taken : Reply → Bool
  | .failed _ _ taken => taken
  | _ => false

/-- The heads with the commits in the relocated pairs. -/
def Relocating.after (r : Relocating) (heads : List Head) : List Head :=
  applyEffects heads r.effects

/-- The orphans that the running loop has fixed. -/
def fixedBy : Option OrphanScan → Nat
  | none => 0
  | some scan => scan.found.toNat + 1

/-- The orphans there are, and those that the running loop has fixed. -/
def Session.orphansSeen (s : Session) : Nat :=
  match s.activity with
  | .scanning scan => badHeads s.heads + scan.found.toNat
  | .relocating r => badHeads (r.after s.heads) + fixedBy r.caller
  | _ => badHeads s.heads

/-- The next commit comes right behind `lfs_fs_preporphans(lfs, +1)`. -/
def leaveOrphan : List Stage → Bool
  | .commit e :: _ => e.raises
  | _ => false

/-- A failure forgets no raise of the count and no orphan that has been fixed. -/
def Session.KeepsCount (s : Session) (read : Option Failure) (reply : Reply) : Activity → Prop
  | .off => True
  | .ready _ => leaveOrphan s.todo = true → reply.failsAt false = false
  | .scanning scan =>
    (scan.found ≠ 0#8 → read = none ∧ reply.fails = false) ∧ reply.failsAt true = false
  | .relocating r =>
    (r.caller.isSome = true → read = none ∧ reply.fails = false) ∧
    (read.isSome = true ∨ reply.failsAt false = true →
      r.effects.any Effect.raises = false) ∧
    (r.pred = none → hasParent (r.after s.heads) r.head = true → reply.failsAt false = false) ∧
    -- a pair is not relocated again before its tail pointer has followed
    (r.pred = none → ∀ i ∈ r.head, (r.after s.heads)[i]? ≠ some .half)

/-- A failure forgets no change of the global state. -/
structure Session.KeepsState (s : Session) (read : Option Failure) (reply : Reply) : Prop where
  taken : reply.taken = false
  new : s.todo.head? = some .commitNew → reply.failsAt true = false
  unlinked : read.isSome = true ∨ reply.failsAt false = true → s.unlinked = {}

instance Session.decidableKeepsCount (s : Session) (read : Option Failure) (reply : Reply) :
    ∀ activity, Decidable (s.KeepsCount read reply activity)
  | .off => inferInstanceAs (Decidable True)
  | .ready _ => inferInstanceAs (Decidable (_ → _))
  | .scanning _ => inferInstanceAs (Decidable (_ ∧ _))
  | .relocating _ => inferInstanceAs (Decidable (_ ∧ _))

instance (s : Session) (read : Option Failure) (reply : Reply) :
    Decidable (s.KeepsState read reply) :=
  decidable_of_iff (reply.taken = false ∧
      (s.todo.head? = some .commitNew → reply.failsAt true = false) ∧
      (read.isSome = true ∨ reply.failsAt false = true → s.unlinked = {}))
    ⟨fun h => ⟨h.1, h.2.1, h.2.2⟩, fun h => ⟨h.taken, h.new, h.unlinked⟩⟩

/-- The condition on a step. -/
def Session.Calm (s : Session) : Answer → Prop
  | .next read _ reply =>
    s.orphansSeen < 128 ∧ s.KeepsCount read reply s.activity ∧ s.KeepsState read reply
  -- the flag on disk has an orphan behind it
  | .mount => tagIsValid s.disk.tag = false → 0 < badHeads s.heads
  | _ => True

instance (s : Session) : ∀ a, Decidable (s.Calm a)
  | .next .. => inferInstanceAs (Decidable (_ ∧ _))
  | .mount => inferInstanceAs (Decidable (_ → _))
  | .call _ => inferInstanceAs (Decidable True)
  | .powerloss => inferInstanceAs (Decidable True)

/-! ## The invariant -/

/-- Between two stages. -/
structure Session.Ready (s : Session) (n : Nat) : Prop where
  counts : s.gstate.Counts n
  le : (n : Int) ≤ badHeads s.heads + credit s.todo
  limit : ∀ k ∈ countLimit s.todo, n ≤ k
  ok : StagesOk s.todo

/-- In a stage that runs `lfs_fs_deorphan(lfs, true)` or a commit. -/
structure Within (todo : List Stage) (stage : Option Stage) (deorphan : Bool) : Prop where
  ok : StagesOk todo
  credit : credit todo = 0
  limit : deorphan = false → countLimit todo = none
  stage : deorphan = false → stage ≠ some .deorphan

structure Session.Scanning (s : Session) (scan : OrphanScan) (n : Nat) : Prop where
  counts : s.gstate.Counts n
  le : n ≤ badHeads s.heads + scan.found.toNat
  pending : scan.powerloss = true → n ≤ scan.found.toNat + scan.pending s.heads
  within : Within s.todo s.stage scan.powerloss

/-- The count is raised and the tail pointer has not followed. -/
def Relocating.raised (r : Relocating) : Bool := r.pred == some true

def callerPowerloss : Option OrphanScan → Bool
  | none => false
  | some scan => scan.powerloss

/-- The heads when the tail pointer has followed. -/
def Relocating.settled (r : Relocating) (heads : List Head) : List Head :=
  (r.tailEffect r.raised).apply (r.after heads)

structure Session.Relocates (s : Session) (r : Relocating) (n : Nat) : Prop where
  counts : s.gstate.Counts n
  le : n ≤ badHeads (r.after s.heads) + fixedBy r.caller
  half : r.raised = true → r.effects = [] ∧ ∃ i, r.head = some i ∧ s.heads[i]? = some .half
  pending : ∀ scan ∈ r.caller, scan.powerloss = true → r.orphans = false →
    n ≤ scan.found.toNat + 1 + scan.pending (r.settled s.heads) + r.raised.toNat
  fresh : r.fresh = true → r.head = none ∧ r.effects = [] ∧ r.caller = none
  within : Within s.todo s.stage (callerPowerloss r.caller)

def Session.Active (s : Session) : Activity → Prop
  | .off => True
  | .ready res => ∃ n, s.Ready n ∧ (res = errOk → s.stage = some .deorphan → n = 0)
  | .scanning scan => ∃ n, s.Scanning scan n
  | .relocating r => ∃ n, s.Relocates r n

structure Session.Inv (s : Session) : Prop where
  disk : OnDisk s.disk s.unlinked s.gdisk
  active : s.Active s.activity

theorem applyEffects_append (heads : List Head) (effects : List Effect) (e : Effect) :
    applyEffects heads (effects ++ [e]) = e.apply (applyEffects heads effects) := by
  rw [applyEffects, List.foldl_append]
  rfl

theorem Effect.gain_le_zero {e : Effect} (h : e.raises = false) : e.gain ≤ 0 := by
  unfold gain
  split
  · cases h
  · cases h
  all_goals decide

theorem Effect.apply_le {heads : List Head} {e : Effect} (h : e.raises = false) :
    badHeads (e.apply heads) ≤ badHeads heads := by
  cases e with
  | keep => exact Nat.le_refl _
  | orphan i | desync i => cases h
  | sync i =>
    rcases hi : heads[i]? with _ | old
    · rw [apply, List.set_eq_of_length_le (List.getElem?_eq_none_iff.mp hi)]
    · have := badHeads_set hi .synced
      simp only [apply, Head.bad, Bool.toNat_false] at this ⊢
      omega
  | unlink i =>
    rcases hi : heads[i]? with _ | old
    · rw [apply, List.eraseIdx_of_length_le (List.getElem?_eq_none_iff.mp hi)]
    · have := badHeads_eraseIdx hi
      rw [apply]
      omega
  | insert i head =>
    have hbad : head.bad = false := h
    rw [badHeads_insert, hbad]
    exact Nat.le_refl _

/-- What nothing refers to yet has fixed orphans at most. -/
theorem applyEffects_le {heads : List Head} {effects : List Effect}
    (h : effects.any Effect.raises = false) :
    badHeads (applyEffects heads effects) ≤ badHeads heads := by
  induction effects generalizing heads with
  | nil => exact Nat.le_refl _
  | cons e effects ih =>
    rw [List.any_cons, Bool.or_eq_false_iff] at h
    exact Nat.le_trans (ih h.2) (e.apply_le h.1)

theorem Relocating.tailEffect_false (r : Relocating) : r.tailEffect false = .keep := by
  obtain ⟨_ | i, _, _, _, _, _⟩ := r <;> rfl

theorem Relocating.tailEffect_true {r : Relocating} (h : r.head = some i) :
    r.tailEffect true = .sync i := by
  obtain ⟨_, _, _, _, _, _⟩ := r
  cases h
  rfl

theorem Relocating.settled_false {r : Relocating} (h : r.raised = false) (heads : List Head) :
    r.settled heads = r.after heads := by
  rw [settled, h, r.tailEffect_false]
  rfl

/-! ## The ends of a commit -/

namespace Session

variable {s : Session}

theorem write_disk (H : OnDisk s.disk s.unlinked s.gdisk) (effects : List Effect) :
    (s.write effects).disk = s.gstate.stored := H.write_eq s.gstate

theorem write_onDisk (H : OnDisk s.disk s.unlinked s.gdisk) (hcounts : s.gstate.Counts n)
    (effects : List Effect) : OnDisk (s.write effects).disk {} s.gstate := by
  rw [write_disk H]
  exact .synced hcounts

theorem take_onDisk (H : OnDisk s.disk s.unlinked s.gdisk) (taken : Bool) :
    OnDisk (s.take taken).disk (s.take taken).unlinked (s.take taken).gdisk := by
  rw [Session.take]
  split
  · exact H.take s.gstate
  · exact H

theorem done_inv (hdisk : OnDisk s.disk s.unlinked s.gdisk) (hcounts : s.gstate.Counts n)
    (hle : n ≤ badHeads s.heads) (H : Within s.todo s.stage powerloss)
    (hzero : powerloss = true → n = 0) : s.done.Inv := by
  refine ⟨hdisk, n, ⟨hcounts, ?_, fun k hk => ?_, H.ok⟩, fun _ hstage => ?_⟩
  · have hcredit := H.credit
    simp only [done]
    omega
  · cases powerloss with
    | true =>
      rw [hzero rfl]
      exact Nat.zero_le k
    | false =>
      rw [done, H.limit rfl] at hk
      cases hk
  · cases powerloss with
    | true => exact hzero rfl
    | false => exact absurd hstage (H.stage rfl)

theorem fail_inv (hdisk : OnDisk s.disk s.unlinked s.gdisk) (hunlinked : s.unlinked = {})
    (hcounts : s.gstate.Counts n) (hle : n ≤ badHeads s.heads) (err : Failure) :
    (s.fail err).Inv := by
  have hdisk : OnDisk s.disk {} s.gdisk := by rwa [hunlinked] at hdisk
  refine ⟨hdisk, n,
    ⟨hcounts, ?_, fun k hk => absurd hk (by simp [fail, countLimit]), trivial⟩, fun hres => ?_⟩
  · simp only [fail, credit]
    omega
  · have herr := err.property
    rw [hres] at herr
    exact absurd herr (by decide)

theorem deorphan_inv (hdisk : OnDisk s.disk s.unlinked s.gdisk) (hcounts : s.gstate.Counts n)
    (hle : n ≤ badHeads s.heads) (H : Within s.todo s.stage powerloss) :
    (s.deorphan powerloss).Inv := by
  rw [Session.deorphan]
  split
  · refine ⟨hdisk, n, hcounts, hle, fun _ => ?_, H⟩
    rw [OrphanScan.pending_start]
    exact Nat.le_add_left_of_le hle
  · rename_i horphans
    rw [hcounts.hasorphans] at horphans
    exact done_inv hdisk hcounts hle H fun _ => Nat.eq_zero_of_not_pos horphans

theorem committed_inv {orphans : Bool} (hdisk : OnDisk s.disk s.unlinked s.gdisk)
    (hcounts : s.gstate.Counts n)
    (hle : n ≤ badHeads s.heads + fixedBy caller) (hfew : fixedBy caller < 256)
    (hpending : ∀ scan ∈ caller, scan.powerloss = true → orphans = false →
      n ≤ scan.found.toNat + 1 + scan.pending s.heads)
    (H : Within s.todo s.stage (callerPowerloss caller)) : (s.committed orphans caller).Inv := by
  cases caller with
  | none =>
    simp only [committed]
    split
    · exact deorphan_inv hdisk hcounts hle H
    · exact done_inv hdisk hcounts hle H (absurd · (by decide))
  | some scan =>
    have hfound : (scan.found + 1#8).toNat = scan.found.toNat + 1 := by
      rw [BitVec.toNat_add]
      exact Nat.mod_eq_of_lt hfew
    simp only [committed]
    cases orphans with
    | true =>
      refine ⟨hdisk, n, hcounts, ?_, fun _ => ?_, H⟩
      · rw [hfound]
        exact hle
      · rw [OrphanScan.pending_start, hfound, Nat.add_comm]
        exact hle
    | false =>
      refine ⟨hdisk, n, hcounts, ?_, fun hpowerloss => ?_, H⟩
      · rw [hfound]
        exact hle
      · rw [hfound]
        exact hpending scan rfl hpowerloss rfl

/-- The ways that a commit goes. -/
theorem commit_inv {relocated : Option Nat → Relocating} {ok : Session → Session}
    (htaken : reply.taken = false) (hok : (ok (s.write effects)).Inv)
    (hrelocated : ∀ head taken,
      Session.Inv { s.take taken with activity := .relocating (relocated head) })
    (hunwritten : reply.failsAt false = true → ∀ err, (s.fail err).Inv)
    (hwritten : reply.failsAt true = true → ∀ err, ((s.write effects).fail err).Inv) :
    (s.commit effects relocated ok reply).Inv := by
  cases reply with
  | ok => exact hok
  | relocated head taken => exact hrelocated head taken
  | failed err written taken =>
    cases htaken
    cases written with
    | true => exact hwritten rfl err
    | false => exact hunwritten rfl err

theorem Relocates.start {e : Effect} {caller : Option OrphanScan} (hcounts : s.gstate.Counts n)
    (hle : n ≤ badHeads (e.apply s.heads) + fixedBy caller)
    (hpending : ∀ scan ∈ caller, scan.powerloss = true →
      n ≤ scan.found.toNat + 1 + scan.pending (e.apply s.heads))
    (H : Within s.todo s.stage (callerPowerloss caller)) (head : Option Nat) :
    s.Relocates { head, effects := [e], caller } n := by
  refine ⟨hcounts, hle, (absurd · Bool.false_ne_true), fun scan hscan hpowerloss _ => ?_,
    (absurd · Bool.false_ne_true), H⟩
  rw [Relocating.settled_false rfl]
  exact hpending scan hscan hpowerloss

theorem Relocates.take {r : Relocating} {activity : Activity} (H : s.Relocates r n) (taken : Bool) :
    Session.Relocates { s.take taken with activity } r n := by
  cases taken <;> exact ⟨H.counts, H.le, H.half, H.pending, H.fresh, H.within⟩

/-! ## Step lemmas -/

/-- A commit of `lfs_dir_commit`. -/
theorem dirOrphaningCommit_inv (hdisk : OnDisk s.disk s.unlinked s.gdisk)
    (hcounts : s.gstate.Counts n) (hle : n ≤ badHeads (e.apply s.heads))
    (htaken : reply.taken = false)
    (hunwritten : reply.failsAt false = true → s.unlinked = {} ∧ n ≤ badHeads s.heads)
    (H : Within s.todo s.stage false) : (s.dirOrphaningCommit e none reply).Inv := by
  have hnone : ∀ scan ∈ (none : Option OrphanScan), scan.powerloss = true →
      n ≤ scan.found.toNat + 1 + scan.pending (e.apply s.heads) := fun _ h => absurd h (by simp)
  refine commit_inv htaken ?_ (fun head taken => ?_) (fun hreply err => ?_) (fun _ err => ?_)
  · exact committed_inv (write_onDisk hdisk hcounts [e]) hcounts hle (by decide)
      (fun scan h hpowerloss _ => hnone scan h hpowerloss) H
  · have hle : n ≤ badHeads (e.apply s.heads) + fixedBy none := hle
    exact ⟨take_onDisk hdisk taken, n, (Relocates.start hcounts hle hnone H head).take taken⟩
  · exact fail_inv hdisk (hunwritten hreply).1 hcounts (hunwritten hreply).2 err
  · exact fail_inv (s := s.write [e]) (write_onDisk hdisk hcounts [e]) rfl hcounts hle err

/-- A commit that fixes an orphan. -/
theorem fix_inv {scan : OrphanScan} {e : Effect} (hdisk : OnDisk s.disk s.unlinked s.gdisk)
    (H : s.Scanning scan n) (hbad : badHeads (e.apply s.heads) + 1 = badHeads s.heads)
    (hpending : scan.pending (e.apply s.heads) + 1 = scan.pending s.heads)
    (hfew : badHeads s.heads + scan.found.toNat < 128)
    (hcalm : s.KeepsCount none reply (.scanning scan)) (hstate : s.KeepsState none reply) :
    (s.dirOrphaningCommit e (some scan) reply).Inv := by
  have hle : n ≤ badHeads (e.apply s.heads) + (scan.found.toNat + 1) := by
    have := H.le
    omega
  have hpending' : ∀ scan' ∈ some scan, scan'.powerloss = true →
      n ≤ scan'.found.toNat + 1 + scan'.pending (e.apply s.heads) := by
    intro _ hscan hpowerloss
    cases hscan
    have := H.pending hpowerloss
    omega
  refine commit_inv hstate.taken ?_ (fun head taken => ?_) (fun hreply err => ?_)
    (fun hreply err => ?_)
  · refine committed_inv (write_onDisk hdisk H.counts [e]) H.counts hle ?_
      (fun scan h hpowerloss _ => hpending' scan h hpowerloss) H.within
    simp only [fixedBy]
    omega
  · exact ⟨take_onDisk hdisk taken, n,
      (Relocates.start H.counts hle hpending' H.within head).take taken⟩
  · have hzero : scan.found = 0#8 := by
      by_contra hne
      have := (hcalm.1 hne).2
      cases reply with
      | failed => cases this
      | ok | relocated => cases hreply
    have hle := H.le
    rw [hzero] at hle
    exact fail_inv hdisk (hstate.unlinked (.inr hreply)) H.counts hle err
  · rw [hcalm.2] at hreply
    cases hreply

theorem endScan_inv {scan : OrphanScan} {s' : Session} (hdisk : OnDisk s.disk s.unlinked s.gdisk)
    (H : s.Scanning scan n) (hpending : scan.pending s.heads = 0)
    (hfew : badHeads s.heads + scan.found.toNat < 128) (h : s.endScan scan = some s') :
    s'.Inv := by
  simp only [endScan, preporphans, Option.map_map, Option.map_eq_some_iff] at h
  obtain ⟨gstate, hg, rfl⟩ := h
  have hn := H.le
  rw [H.counts.tagSize_eq] at hg
  have hfixed : min (BitVec.ofNat 8 n).toNat (scan.found.signExtend 64).toNat =
      min n scan.found.toNat := by
    have hmsb : scan.found.msb = false := by
      rw [BitVec.msb_eq_false_iff_two_mul_lt]
      omega
    rw [BitVec.signExtend_eq_setWidth_of_msb_false hmsb, BitVec.toNat_setWidth, BitVec.toNat_ofNat]
    omega
  rw [hfixed] at hg
  have hint := toInt_sub_ofNat (k := min n scan.found.toNat) (by omega)
  have hcounts : gstate.Counts (n - min n scan.found.toNat) :=
    H.counts.preporphans hg (by omega) (by omega)
  refine done_inv (s := { s with gstate }) hdisk hcounts (by simp only; omega) H.within
    fun hpowerloss => ?_
  have := H.pending hpowerloss
  omega

theorem move_inv {scan : OrphanScan} {pass : ScanPass} {i : Nat}
    (hdisk : OnDisk s.disk s.unlinked s.gdisk) (H : s.Scanning scan n)
    (hpending : scan.powerloss = true →
      OrphanScan.pending { scan with pass, i } s.heads = scan.pending s.heads) :
    Session.Inv { s with activity := .scanning { scan with pass, i } } :=
  ⟨hdisk, n, H.counts, H.le, fun hpowerloss => hpending hpowerloss ▸ H.pending hpowerloss,
    H.within⟩

theorem scan_inv {scan : OrphanScan} {read : Option Failure} {s' : Session}
    (hdisk : OnDisk s.disk s.unlinked s.gdisk) (H : s.Scanning scan n)
    (hfew : badHeads s.heads + scan.found.toNat < 128)
    (hcalm : s.KeepsCount read reply (.scanning scan)) (hstate : s.KeepsState read reply)
    (h : s.scan scan read pair reply = some s') : s'.Inv := by
  rcases read with _ | err
  swap
  · have hzero : scan.found = 0#8 := by
      by_contra hne
      cases (hcalm.1 hne).1
    have hle := H.le
    rw [hzero] at hle
    cases h
    exact fail_inv hdisk (hstate.unlinked (.inl rfl)) H.counts hle err
  have hnext : ∀ head, s.heads[scan.i]? = some head → head ≠ scan.pass.target →
      Session.Inv { s with activity := .scanning { scan with i := scan.i + 1 } } :=
    fun head hhead hne => move_inv hdisk H fun _ => OrphanScan.pending_next hhead hne
  rw [Session.scan] at h
  rcases hhead : s.heads[scan.i]? with _ | head <;> cases hpass : scan.pass <;>
    rw [hhead, hpass] at h <;> rw [hpass] at hnext
  · cases h
    exact move_inv hdisk H fun _ => OrphanScan.pending_pass hpass hhead
  · exact endScan_inv hdisk H (OrphanScan.pending_end hpass hhead) hfew h
  · cases head with
    | synced | orphan =>
      cases h
      exact hnext _ hhead (by decide)
    | half =>
      cases h
      exact fix_inv (s := s.fixup pair) (n := n) (e := .sync scan.i) hdisk
        ⟨H.counts.fixup pair, H.le, H.pending, H.within⟩ (badHeads_set hhead .synced)
        (OrphanScan.pending_sync hpass hhead) hfew hcalm
        ⟨hstate.taken, hstate.new, hstate.unlinked⟩
  · cases head with
    | synced | half =>
      cases h
      exact hnext _ hhead (by decide)
    | orphan =>
      dsimp only at h
      split at h
      · cases h
        exact fix_inv hdisk H (badHeads_eraseIdx hhead) (OrphanScan.pending_unlink hpass hhead)
          hfew hcalm hstate
      · rename_i hpowerloss
        cases h
        exact move_inv hdisk H fun h => absurd h hpowerloss

theorem caller_none {r : Relocating} {read : Option Failure}
    (hcalm : s.KeepsCount read reply (.relocating r))
    (hfails : read.isSome = true ∨ reply.fails = true) : r.caller = none := by
  by_contra hne
  obtain ⟨hread, hreply⟩ := hcalm.1 (Option.isSome_iff_ne_none.mpr hne)
  rw [hread, hreply] at hfails
  simp at hfails

theorem fails_of_failsAt (h : Reply.failsAt written reply = true) : reply.fails = true := by
  cases reply with
  | failed => rfl
  | ok | relocated => cases h

/-- The commit to the parent is not there yet, or never will be. -/
theorem Relocates.unwritten_le {r : Relocating} {read : Option Failure} (H : s.Relocates r n)
    (hcalm : s.KeepsCount read reply (.relocating r))
    (hfails : read.isSome = true ∨ reply.failsAt false = true) : n ≤ badHeads s.heads := by
  have hle := H.le
  rw [caller_none hcalm (hfails.imp_right fails_of_failsAt)] at hle
  exact Nat.le_trans hle (applyEffects_le (hcalm.2.1 hfails))

/-- The commit to the parent, behind the raise of the count. -/
theorem parentCommit_inv {r : Relocating} (hdisk : OnDisk s.disk s.unlinked s.gdisk)
    (hcounts : s.gstate.Counts (n + 1)) (hle : n ≤ badHeads (r.after s.heads) + fixedBy r.caller)
    (hpending : ∀ scan ∈ r.caller, scan.powerloss = true → r.orphans = false →
      n ≤ scan.found.toNat + 1 + scan.pending (r.after s.heads))
    (H : Within s.todo s.stage (callerPowerloss r.caller)) (hfresh : r.fresh = false)
    (hpred : r.pred = none) (hsynced : (r.after s.heads)[i]? = some .synced)
    (htaken : reply.taken = false) (hreply : reply.failsAt false = false)
    (hcaller : reply.fails = true → r.caller = none) :
    (s.commit (r.effects ++ [.desync i])
      (fun head => { r with head, effects := r.effects ++ [.desync i], orphans := true })
      (fun s => { s with
        activity := .relocating { r with head := some i, effects := [], pred := some true } })
      reply).Inv := by
  have hafter : applyEffects s.heads (r.effects ++ [.desync i]) =
      (r.after s.heads).set i .half := applyEffects_append _ _ _
  have hbad : badHeads (applyEffects s.heads (r.effects ++ [.desync i])) =
      badHeads (r.after s.heads) + 1 := by
    rw [hafter]
    exact badHeads_set hsynced .half
  have hlt := (List.getElem?_eq_some_iff.mp hsynced).1
  have hback : Effect.apply ((r.after s.heads).set i .half) (.sync i) = r.after s.heads := by
    rw [Effect.apply, List.set_set, ← (List.getElem?_eq_some_iff.mp hsynced).2,
      List.set_getElem_self]
  have hsettled : Relocating.settled { r with head := some i, effects := [], pred := some true }
      (applyEffects s.heads (r.effects ++ [.desync i])) = r.after s.heads := by
    rw [hafter]
    exact hback
  refine commit_inv htaken ?_ (fun head taken => ?_) (fun h _ => ?_) (fun h err => ?_)
  · refine ⟨write_onDisk hdisk hcounts (r.effects ++ [.desync i]), n + 1, hcounts, ?_,
      fun _ => ⟨rfl, i, rfl, ?_⟩, ?_, ?_, H⟩
    · show n + 1 ≤ badHeads (applyEffects s.heads (r.effects ++ [.desync i])) + fixedBy r.caller
      omega
    · show (applyEffects s.heads (r.effects ++ [.desync i]))[i]? = some .half
      rw [hafter, List.getElem?_set_self hlt]
    · intro scan hscan hpowerloss horphans
      have hle := hpending scan hscan hpowerloss horphans
      rw [← hsettled] at hle
      exact Nat.add_le_add_right hle 1
    · exact fun h => absurd (hfresh.symm.trans h) Bool.false_ne_true
  · have H : s.Relocates { r with head, effects := r.effects ++ [.desync i], orphans := true }
        (n + 1) := by
      refine ⟨hcounts, ?_, fun h => ?_, fun _ _ _ h => absurd h.symm Bool.false_ne_true,
        fun h => absurd (hfresh.symm.trans h) Bool.false_ne_true, H⟩
      · show n + 1 ≤ badHeads (applyEffects s.heads (r.effects ++ [.desync i])) + fixedBy r.caller
        omega
      · rw [Relocating.raised, hpred] at h
        exact absurd h (by decide)
    exact ⟨take_onDisk hdisk taken, n + 1, H.take taken⟩
  · rw [hreply] at h
    cases h
  · rw [hcaller (fails_of_failsAt h)] at hle
    refine fail_inv (s := s.write (r.effects ++ [.desync i])) (n := n + 1)
      (write_onDisk hdisk hcounts _) rfl hcounts ?_ err
    show n + 1 ≤ badHeads (applyEffects s.heads (r.effects ++ [.desync i]))
    rw [hbad]
    exact Nat.succ_le_succ hle

theorem relocateParent_inv {r : Relocating} {s' : Session}
    (hdisk : OnDisk s.disk s.unlinked s.gdisk) (H : s.Relocates r n) (hpred : r.pred = none)
    (hfew : badHeads (r.after s.heads) + fixedBy r.caller < 128)
    (hcalm : s.KeepsCount none reply (.relocating r)) (htaken : reply.taken = false)
    (h : s.relocateParent r pair reply = some s') : s'.Inv := by
  have hraised : r.raised = false := by
    rw [Relocating.raised, hpred]
    rfl
  have hpending := H.pending
  rw [hraised] at hpending
  simp only [Relocating.settled_false hraised] at hpending
  rw [relocateParent] at h
  cases hparent : hasParent (r.after s.heads) r.head with
  | false =>
    have hs' : s' = { s with activity := .relocating { r with pred := some false } } := by
      rw [Relocating.after] at hparent
      rw [hparent] at h
      cases hhead : r.head <;> rw [hhead] at h <;> exact (Option.some.inj h).symm
    subst hs'
    refine ⟨hdisk, n, H.counts, H.le, (absurd · Bool.false_ne_true), ?_, H.fresh, H.within⟩
    intro scan hscan hpowerloss horphans
    rw [Relocating.settled_false rfl]
    exact hpending scan hscan hpowerloss horphans
  | true =>
    obtain ⟨i, hi⟩ : ∃ i, r.head = some i := by
      cases hhead : r.head with
      | none =>
        rw [hhead] at hparent
        cases hparent
      | some i => exact ⟨i, rfl⟩
    have hsynced : (r.after s.heads)[i]? = some .synced := by
      have hne := hcalm.2.2.2 hpred i hi
      rw [hi, hasParent, Bool.or_eq_true, decide_eq_true_iff, decide_eq_true_iff] at hparent
      exact hparent.resolve_right hne
    have hfresh : r.fresh = false := by
      rw [Bool.eq_false_iff]
      intro hfresh
      have := (H.fresh hfresh).1
      rw [hi] at this
      cases this
    have hreply := hcalm.2.2.1 hpred hparent
    rw [Relocating.after] at hparent
    rw [hparent, hi] at h
    simp only [preporphans, Option.map_eq_some_iff] at h
    obtain ⟨_, ⟨gstate, hg, rfl⟩, rfl⟩ := h
    have hle := H.le
    have hcounts : gstate.Counts (n + 1) := H.counts.preporphans hg rfl (by omega)
    exact parentCommit_inv (s := Session.fixup { s with gstate } pair) hdisk (hcounts.fixup pair)
      hle hpending H.within hfresh hpred hsynced htaken hreply
      fun hfails => caller_none hcalm (.inr hfails)

/-- The count that the commit to the predecessor finds. -/
theorem lower_counts {s₁ : Session} {hasparent : Bool} (hcounts : s.gstate.Counts n)
    (hle : n ≤ 0x3ff)
    (h : (if gstateHasorphans s.gstate then
      s.preporphans (if hasparent then -1#8 else 0#8) else some s) = some s₁) :
    ∃ gstate m, s₁ = { s with gstate } ∧ gstate.Counts m ∧ m = n - hasparent.toNat := by
  split at h
  · rename_i horphans
    rw [hcounts.hasorphans] at horphans
    simp only [preporphans, Option.map_eq_some_iff] at h
    obtain ⟨gstate, hg, rfl⟩ := h
    refine ⟨gstate, _, rfl, hcounts.preporphans hg ?_ ?_, rfl⟩
    · cases hasparent with
      | true =>
        have hint : (-1#8).toInt = -1 := by decide
        simp only [if_true, hint, Bool.toNat_true]
        omega
      | false => simp
    · omega
  · rename_i horphans
    rw [hcounts.hasorphans] at horphans
    cases h
    obtain rfl : n = 0 := Nat.eq_zero_of_not_pos horphans
    exact ⟨s.gstate, 0, rfl, hcounts, (Nat.zero_sub _).symm⟩

theorem Relocates.badHeads_settled {r : Relocating} (H : s.Relocates r n) :
    badHeads (r.settled s.heads) + r.raised.toNat = badHeads (r.after s.heads) := by
  cases hraised : r.raised with
  | false =>
    rw [Relocating.settled_false hraised]
    rfl
  | true =>
    obtain ⟨heffects, i, hi, hhalf⟩ := H.half hraised
    have hafter : r.after s.heads = s.heads := by
      rw [Relocating.after, heffects]
      rfl
    rw [Relocating.settled, hraised, Relocating.tailEffect_true hi, hafter]
    exact badHeads_set hhalf .synced

theorem relocatePred_inv {r : Relocating} {s' : Session}
    (hdisk : OnDisk s.disk s.unlinked s.gdisk) (H : s.Relocates r n)
    (hpred : r.pred = some hasparent) (hfresh : r.fresh = false)
    (hfew : badHeads (r.after s.heads) + fixedBy r.caller < 128)
    (hcalm : s.KeepsCount none reply (.relocating r)) (hstate : s.KeepsState none reply)
    (h : s.relocatePred r hasparent pair reply = some s') : s'.Inv := by
  have hraised : r.raised = hasparent := by
    rw [Relocating.raised, hpred]
    cases hasparent <;> rfl
  have hle := H.le
  have hbad := H.badHeads_settled
  have hpending := H.pending
  have hsettled : applyEffects s.heads (r.effects ++ [r.tailEffect hasparent]) =
      r.settled s.heads := by
    rw [applyEffects_append, Relocating.settled, hraised]
    rfl
  rw [hraised] at hpending hbad
  simp only [relocatePred, Option.map_eq_some_iff] at h
  obtain ⟨s₁, hs₁, rfl⟩ := h
  obtain ⟨gstate, m, rfl, hcounts, hm⟩ := lower_counts H.counts (by omega) hs₁
  have hcounts := hcounts.fixup pair
  have hm_le : m ≤ badHeads (r.settled s.heads) + fixedBy r.caller := by omega
  have hm_pending : ∀ scan ∈ r.caller, scan.powerloss = true → r.orphans = false →
      m ≤ scan.found.toNat + 1 + scan.pending (r.settled s.heads) := by
    intro scan hscan hpowerloss horphans
    have := hpending scan hscan hpowerloss horphans
    omega
  rw [← hsettled] at hm_le hm_pending
  have hwrite := write_onDisk (s := Session.fixup { s with gstate } pair) hdisk hcounts
    (r.effects ++ [r.tailEffect hasparent])
  refine commit_inv hstate.taken ?_ (fun head taken => ?_) (fun hreply err => ?_)
    (fun hreply err => ?_)
  · exact committed_inv hwrite hcounts hm_le (by omega) hm_pending H.within
  · have H' : Session.Relocates (Session.fixup { s with gstate } pair)
        { r with head, effects := r.effects ++ [r.tailEffect hasparent], pred := none } m := by
      refine ⟨hcounts, hm_le, (absurd · Bool.false_ne_true), ?_,
        fun h => absurd (hfresh.symm.trans h) Bool.false_ne_true, H.within⟩
      intro scan hscan hpowerloss horphans
      rw [Relocating.settled_false rfl]
      exact hm_pending scan hscan hpowerloss horphans
    exact ⟨take_onDisk (s := Session.fixup { s with gstate } pair) hdisk taken, m, H'.take taken⟩
  · have hn := H.unwritten_le hcalm (.inr hreply)
    exact fail_inv (s := Session.fixup { s with gstate } pair) hdisk
      (hstate.unlinked (.inr hreply)) hcounts (Nat.le_trans (hm ▸ Nat.sub_le _ _) hn) err
  · rw [caller_none hcalm (.inr (fails_of_failsAt hreply))] at hm_le
    exact fail_inv (s := (Session.fixup { s with gstate } pair).write _) hwrite rfl hcounts hm_le
      err

theorem relocate_inv {r : Relocating} {read : Option Failure} {s' : Session}
    (hdisk : OnDisk s.disk s.unlinked s.gdisk) (H : s.Relocates r n)
    (hfew : badHeads (r.after s.heads) + fixedBy r.caller < 128)
    (hcalm : s.KeepsCount read reply (.relocating r)) (hstate : s.KeepsState read reply)
    (h : s.relocate r read pair reply = some s') : s'.Inv := by
  unfold relocate at h
  cases read with
  | some err =>
    cases h
    exact fail_inv hdisk (hstate.unlinked (.inl rfl)) H.counts (H.unwritten_le hcalm (.inl rfl)) err
  | none =>
    cases hpred : r.pred with
    | none =>
      rw [hpred] at h
      exact relocateParent_inv hdisk H hpred hfew hcalm hstate.taken h
    | some hasparent =>
      rw [hpred] at h
      simp only at h
      split at h
      · rename_i hfresh
        obtain ⟨_, heffects, hcaller⟩ := H.fresh hfresh
        have hle := H.le
        rw [Relocating.after, heffects] at hle
        cases h
        exact committed_inv hdisk H.counts hle (by omega)
          (fun _ hscan => absurd hscan (by rw [hcaller]; simp)) H.within
      · rename_i hfresh
        exact relocatePred_inv hdisk H hpred (by simpa using hfresh) hfew hcalm hstate h

theorem commitNew_inv (hdisk : OnDisk s.disk s.unlinked s.gdisk) (hcounts : s.gstate.Counts n)
    (hle : n ≤ badHeads s.heads) (htaken : reply.taken = false)
    (hwritten : reply.failsAt true = false)
    (hunlinked : reply.failsAt false = true → s.unlinked = {})
    (H : Within s.todo s.stage false) : (s.commitNew reply).Inv := by
  cases reply with
  | ok =>
    exact done_inv (s := s.take true) (take_onDisk hdisk true) hcounts hle H
      (absurd · Bool.false_ne_true)
  | relocated head taken =>
    have H : s.Relocates { head := none, fresh := true, effects := [], caller := none } n :=
      ⟨hcounts, hle, (absurd · Bool.false_ne_true), fun _ h => absurd h (by simp),
        fun _ => ⟨rfl, rfl, rfl⟩, H⟩
    exact ⟨take_onDisk hdisk taken, n, H.take taken⟩
  | failed err written taken =>
    cases htaken
    cases written with
    | true => cases hwritten
    | false => exact fail_inv hdisk (hunlinked rfl) hcounts hle err

/-! ## Every step -/

theorem ready_inv (hdisk : OnDisk s.disk s.unlinked s.gdisk) (H : s.Ready n)
    (hne : s.stage ≠ some .deorphan) : s.done.Inv :=
  ⟨hdisk, n, ⟨H.counts, H.le, H.limit, H.ok⟩, fun _ hstage => absurd hstage hne⟩

theorem badHeads_commit {n : Nat} {e : Effect} (hfinds : s.finds e = true)
    (hle : (n : Int) ≤ badHeads s.heads + e.gain) (hlimit : ∀ i, e = .orphan i → n ≤ 1) :
    n ≤ badHeads (e.apply s.heads) := by
  by_cases he : ∃ i, e = .orphan i
  · obtain ⟨i, rfl⟩ := he
    rw [finds, hasParent, Bool.or_eq_true, decide_eq_true_iff, decide_eq_true_iff] at hfinds
    have hpos : 0 < badHeads (Effect.apply s.heads (.orphan i)) := by
      rcases hfinds with h | h <;> exact badHeads_orphan_pos h
    exact Nat.le_trans (hlimit i rfl) hpos
  · have := e.gain_le s.heads fun i hi => he ⟨i, hi⟩
    omega

theorem enter_inv {stage : Stage} {todo : List Stage} {read : Option Failure} {s' : Session}
    (hdisk : OnDisk s.disk s.unlinked s.gdisk) (H : s.Ready n) (htodo : s.todo = stage :: todo)
    (hfew : badHeads s.heads < 128)
    (hcalm : leaveOrphan s.todo = true → reply.failsAt false = false)
    (hstate : s.KeepsState read reply)
    (h : Session.enter { s with stage := some stage, todo } stage read reply = some s') :
    s'.Inv := by
  obtain ⟨hcounts, hle, hlimit, hok⟩ := H
  rw [htodo] at hle hlimit hok hcalm
  obtain ⟨hprecedes, hok⟩ := hok
  have hcommit : Even todo → stage ≠ .deorphan → Within todo (some stage) false := fun heven hne =>
    ⟨hok, heven.credit, fun _ => heven.limit, fun _ => by simpa using hne⟩
  cases stage with
  | demove =>
    have heven : Even todo := hprecedes
    have hle : n ≤ badHeads s.heads := by
      have := heven.credit
      simp only [credit] at hle
      omega
    have hwithin := hcommit heven (by decide)
    simp only [enter] at h
    split at h
    · cases read with
      | some err =>
        cases h
        exact fail_inv (s := { s with stage := some .demove, todo }) hdisk
          (hstate.unlinked (.inl rfl)) hcounts hle err
      | none =>
        cases h
        exact dirOrphaningCommit_inv
          (s := { s with
            stage := some .demove, todo, gstate := fsPrepmove s.gstate 0x3ff#16 (0, 0) })
          hdisk (hcounts.prepmove _ _) hle hstate.taken
          (fun h => ⟨hstate.unlinked (.inr h), hle⟩) hwithin
    · cases h
      exact done_inv hdisk hcounts hle hwithin (absurd · Bool.false_ne_true)
  | deorphan =>
    have hcredit : LittleFs.credit todo = 0 := hprecedes
    cases h
    refine deorphan_inv hdisk hcounts ?_
      ⟨hok, hcredit, (absurd ·.symm Bool.false_ne_true), (absurd ·.symm Bool.false_ne_true)⟩
    simp only [credit] at hle ⊢
    omega
  | read =>
    have hcredit : LittleFs.credit todo ≤ 0 := hprecedes
    cases read with
    | some err =>
      cases h
      refine fail_inv (s := { s with stage := some .read, todo }) hdisk
        (hstate.unlinked (.inl rfl)) hcounts ?_ err
      simp only [credit] at hle ⊢
      omega
    | none =>
      cases h
      exact ready_inv hdisk ⟨hcounts, hle, hlimit, hok⟩ (by simp)
  | raise =>
    obtain ⟨hcredit, hone⟩ := hprecedes
    simp only [enter, preporphans, Option.map_eq_some_iff] at h
    obtain ⟨_, ⟨gstate, hg, rfl⟩, rfl⟩ := h
    simp only [credit] at hle
    have hcounts := hcounts.preporphans (m := n + 1) hg rfl (by omega)
    refine ready_inv hdisk ⟨hcounts, ?_, fun k hk => ?_, hok⟩ (by simp)
    · simp only
      omega
    · obtain rfl := hone k hk
      have := hlimit 0 (by simp only [countLimit, Option.mem_map]; exact ⟨1, hk, rfl⟩)
      omega
  | lower =>
    have hnone : countLimit todo = none := hprecedes
    simp only [enter, preporphans, Option.map_eq_some_iff] at h
    obtain ⟨_, ⟨gstate, hg, rfl⟩, rfl⟩ := h
    have hpos := preporphans_pos hg
    rw [hcounts.tagSize_eq] at hpos
    have hbound := hcounts.le
    have hint : (-1#8).toInt = -1 := by decide
    have hcounts := hcounts.preporphans (m := n - 1) hg (by rw [hint]; omega) (by omega)
    refine ready_inv hdisk ⟨hcounts, ?_, fun k hk => ?_, hok⟩ (by simp)
    · simp only [credit] at hle ⊢
      omega
    · rw [hnone] at hk
      cases hk
  | prepmove id pair =>
    cases h
    exact ready_inv hdisk ⟨hcounts.prepmove _ _, hle, hlimit, hok⟩ (by simp)
  | endmove =>
    have heven : Even todo := hprecedes
    have hle : n ≤ badHeads s.heads := by
      have := heven.credit
      simp only [credit] at hle
      omega
    have hwithin := hcommit heven (by decide)
    simp only [enter] at h
    split at h
    · cases h
      exact dirOrphaningCommit_inv
        (s := { s with
          stage := some .endmove, todo, gstate := fsPrepmove s.gstate 0x3ff#16 (0, 0) })
        hdisk (hcounts.prepmove _ _) hle hstate.taken
        (fun h => ⟨hstate.unlinked (.inr h), hle⟩) hwithin
    · cases h
      exact done_inv hdisk hcounts hle hwithin (absurd · Bool.false_ne_true)
  | commit e =>
    have heven : Even todo := hprecedes
    simp only [credit, heven.credit, Int.zero_add] at hle
    simp only [enter] at h
    split at h
    · rename_i hfinds
      cases h
      refine dirOrphaningCommit_inv hdisk hcounts (badHeads_commit hfinds hle fun i hi => ?_)
        hstate.taken (fun hunwritten => ⟨hstate.unlinked (.inr hunwritten), ?_⟩)
        (hcommit heven (by simp))
      · exact hlimit 1 (by rw [hi]; rfl)
      · have hraises : e.raises = false := by
          rw [Bool.eq_false_iff]
          intro hraises
          rw [hcalm hraises] at hunwritten
          cases hunwritten
        have := e.gain_le_zero hraises
        simp only
        omega
    · cases h
  | commitNew =>
    have heven : Even todo := hprecedes
    have hle : n ≤ badHeads s.heads := by
      have := heven.credit
      simp only [credit] at hle
      omega
    cases h
    exact commitNew_inv hdisk hcounts hle hstate.taken (hstate.new (by rw [htodo]; rfl))
      (fun h => hstate.unlinked (.inr h)) (hcommit heven (by decide))

/-- **Step lemma.** -/
theorem step_inv {s' : Session} (H : s.Inv) (hcalm : s.Calm a) (h : s.step a = some s') :
    s'.Inv := by
  obtain ⟨hdisk, hactive⟩ := H
  cases a with
  | powerloss =>
    cases h
    exact ⟨hdisk, trivial⟩
  | mount =>
    simp only [step] at h
    split at h
    · cases h
      obtain ⟨⟨g, m, hg, hstored⟩, -⟩ := hdisk
      have hcounts := hg.mount
      have hmounted := hg.mount_stored
      rw [← hstored] at hcounts hmounted
      refine ⟨⟨⟨_, _, hcounts, ?_⟩, ?_⟩, _, ⟨hcounts, ?_, fun k hk => ?_, trivial⟩,
        fun _ hstage => ?_⟩
      · exact hmounted.symm
      · exact (gstateXor_zero _).trans hmounted.symm
      · cases hv : tagIsValid s.disk.tag with
        | true => simp [credit]
        | false =>
          have := hcalm hv
          simp [credit]
          omega
      · cases hk
      · cases hstage
    · cases h
  | call op =>
    simp only [step] at h
    split at h
    · rename_i hact htodo
      cases h
      rw [hact] at hactive
      obtain ⟨n, H, _⟩ := hactive
      have hle := H.le
      rw [htodo] at hle
      obtain ⟨hok, heven⟩ := stagesOk_stages op
      refine ⟨hdisk, n, ⟨H.counts, ?_, fun k hk => ?_, hok⟩, fun _ hstage => ?_⟩
      · simp only [credit, heven.credit] at hle ⊢
        exact hle
      · rw [heven.limit] at hk
        cases hk
      · cases hstage
    · cases h
  | next read pair reply =>
    obtain ⟨hfew, hcalm, hstate⟩ := hcalm
    simp only [step] at h
    rw [orphansSeen] at hfew
    cases hact : s.activity with
    | off =>
      rw [hact] at h
      cases h
    | ready res =>
      rw [hact] at h hactive hfew hcalm
      obtain ⟨n, H, _⟩ := hactive
      cases htodo : s.todo with
      | nil =>
        rw [htodo] at h
        cases h
      | cons stage todo =>
        rw [htodo] at h
        exact enter_inv (s := { s with activity := .ready res }) hdisk
          ⟨H.counts, H.le, H.limit, H.ok⟩ htodo hfew hcalm
          ⟨hstate.taken, hstate.new, hstate.unlinked⟩ h
    | relocating r =>
      rw [hact] at h hactive hfew hcalm
      obtain ⟨n, H⟩ := hactive
      exact relocate_inv hdisk H hfew hcalm hstate h
    | scanning scan =>
      rw [hact] at h hactive hfew hcalm
      obtain ⟨n, H⟩ := hactive
      exact scan_inv hdisk H hfew hcalm hstate h

end Session

/-! ## Settling -/

/-- What `lfs_fs_deorphan(lfs, true)` should leave behind. -/
structure Session.Settled (s : Session) : Prop where
  hasorphans : gstateHasorphans s.gstate = false
  /-- A second call does no scan. -/
  again : s.deorphan true = s.done
  /-- The next commit clears the flag on disk. -/
  clears : ∀ effects, tagIsValid (s.write effects).disk.tag = true

/-- The last stage was `lfs_fs_deorphan(lfs, true)`, which has returned `LFS_ERR_OK`. -/
def Session.Deorphaned (s : Session) : Prop :=
  s.stage = some .deorphan ∧ s.activity = .ready errOk

theorem Session.Inv.settled {s : Session} (H : s.Inv) (hdeorphaned : s.Deorphaned) :
    s.Settled := by
  obtain ⟨hstage, hact⟩ := hdeorphaned
  obtain ⟨hdisk, hactive⟩ := H
  rw [hact] at hactive
  obtain ⟨n, H, hzero⟩ := hactive
  obtain rfl := hzero rfl hstage
  have hno : gstateHasorphans s.gstate = false := by
    rw [Bool.eq_false_iff, ne_eq, H.counts.hasorphans]
    exact Nat.lt_irrefl 0
  refine ⟨hno, ?_, fun effects => ?_⟩
  · rw [deorphan, hno]
    rfl
  · rw [write_disk hdisk]
    exact H.counts.stored_valid

theorem formatted_inv : Session.Inv {} :=
  ⟨.synced (g := {}) .zero, 0,
    ⟨.zero, Int.le_refl 0, fun _ h => absurd h (by simp [countLimit]), trivial⟩,
    fun _ h => absurd h (by simp)⟩

/-- **Deorphaning settles the count** in every run of calm steps from a formatted device. -/
theorem deorphan_settles {s : Session}
    (hrun : Run.Runs (fun s a s' => s.step a = some s') Session.Calm {} s)
    (hdeorphaned : s.Deorphaned) : s.Settled :=
  (hrun.invariant (I := Session.Inv) (fun _ _ _ H hcalm h => Session.step_inv H hcalm h)
    formatted_inv).settled hdeorphaned

/-- The next commit succeeds. -/
def nextOk : Answer := .next none (0, 1) .ok

/-- A directory is made, and the power is lost while it is removed. -/
def removalCut : List Answer :=
  .call (.mkdir 0 false) :: List.replicate 5 nextOk ++
    .call (.rmdir 0) :: List.replicate 5 nextOk ++
      .powerloss :: .mount :: .call .forceconsistency :: List.replicate 6 nextOk

theorem deorphan_settles_cut :
    Session.Settled {
      gdisk := ⟨0x80000001#32, (0, 0)⟩
      disk := ⟨0x80000000#32, (0, 0)⟩
      stage := some .deorphan } := by
  have hrun : Run.exec (fun s a => if Session.Calm s a then s.step a else none) {} removalCut =
      some {
        gdisk := ⟨0x80000001#32, (0, 0)⟩
        disk := ⟨0x80000000#32, (0, 0)⟩
        stage := some .deorphan } := by
    decide +kernel
  exact deorphan_settles (Run.Runs.of_exec hrun) ⟨rfl, rfl⟩

/-- The commit of the removal fails instead. -/
def removalFails : List Answer :=
  .call (.mkdir 0 false) :: List.replicate 5 nextOk ++
    .call (.rmdir 0) :: List.replicate 4 nextOk ++
      .next none (0, 1) (.failed ⟨errIo, errIo_neg⟩ false false) ::
        .call .forceconsistency :: List.replicate 6 nextOk

/-- There is no orphan, and the flag stays. -/
theorem deorphan_leaves_flag :
    ¬ ∀ s, Run.Runs (fun s a s' => s.step a = some s') (fun _ _ => True) {} s →
      Session.Deorphaned s → s.Settled := by
  intro h
  have hrun : Run.exec (fun s a => if True then Session.step s a else none) {} removalFails =
      some {
        gstate := ⟨0x80000001#32, (0, 0)⟩
        heads := [.synced]
        stage := some .deorphan } := by
    decide +kernel
  have hno := (h _ (Run.Runs.of_exec hrun) ⟨rfl, rfl⟩).hasorphans
  exact absurd hno (by decide)

end LittleFs
