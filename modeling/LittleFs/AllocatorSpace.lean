import LittleFs.AllocatorBounds
import LittleFs.AllocatorFixed

/-! When `lfs_alloc` gives up.

`ack` counts the blocks that have been looked at since the last `lfs_alloc_ack`, but the rest of the
window was filled before it: a block that a removal has freed in the meantime is still marked there
and counts as looked at.

With an `allocate_block` that does not enlarge the device only `LFS_ERR_NOSPC` ends the search:
after any other answer `lfs_alloc` acknowledges and calls itself again. -/

namespace LittleFs
namespace AllocState

variable {s s' : AllocState} {b c : Nat}

/-- The scan still comes to `b`, and the window does not mark it if it lies there. -/
def Findable (s : AllocState) (b : Nat) : Prop :=
  ∃ k < s.free.ack, s.position k = b ∧
    (s.free.i + k < s.free.size → Bitmap.get? s.free.buffer (s.free.i + k) = some false)

theorem Findable.hasFree (h : s.Findable b) (hb : b ∉ s.used) : s.HasFree := by
  obtain ⟨k, hk, rfl, hclear⟩ := h
  refine ⟨k, hk, ?_⟩
  split
  · exact hclear ‹_›
  · exact hb

theorem exists_position (h : 0 < s.blockCount) (hb : b < s.blockCount) :
    ∃ k < s.blockCount, s.position k = b := by
  have hmod := Nat.mod_lt (s.free.offset + s.free.i) h
  simp only [position, ← Nat.mod_add_mod (s.free.offset + s.free.i)]
  generalize (s.free.offset + s.free.i) % s.blockCount = start at hmod
  by_cases hle : start ≤ b
  · refine ⟨b - start, by omega, ?_⟩
    rw [Nat.add_sub_cancel' hle, Nat.mod_eq_of_lt hb]
  · refine ⟨b + s.blockCount - start, by omega, ?_⟩
    rw [Nat.add_sub_cancel' (by omega), Nat.add_mod_right, Nat.mod_eq_of_lt hb]

/-- An empty window behind which the whole device is looked at. -/
theorem findable_of_empty (hsize : s.free.size = 0) (hack : s.free.ack = s.blockCount)
    (hb : b < s.blockCount) : s.Findable b := by
  obtain ⟨k, hk, hpos⟩ := exists_position (s := s) (by omega) hb
  exact ⟨k, hack ▸ hk, hpos, fun hlt => by omega⟩

theorem Findable.of_scan (h : s.Findable b) (hend : s.free.i + n = s.free.size)
    (hbits : ∀ k < n, Bitmap.get? s.free.buffer (s.free.i + k) = some true) :
    (s.advanceBy n).Findable b := by
  obtain ⟨k, hk, hpos, hclear⟩ := h
  have hkn : n ≤ k := by
    refine Nat.le_of_not_lt fun hkn => ?_
    have := (hbits k hkn).symm.trans (hclear (by omega))
    cases this
  refine ⟨k - n, by simp only [advanceBy]; omega, ?_, fun hlt => ?_⟩
  · rw [position_advanceBy, Nat.add_sub_cancel' hkn, hpos]
  · simp only [advanceBy] at hlt
    omega

theorem Refill.findable (H : Refill s s') (h : s.Findable b) (hb : b ∉ s.used) :
    s'.Findable b := by
  obtain ⟨k, hk, hpos, _⟩ := h
  refine ⟨k, H.ack ▸ hk, (H.position k).trans hpos, fun hlt => ?_⟩
  rw [H.i, Nat.zero_add] at hlt ⊢
  refine H.clear k hlt ?_
  rwa [H.position, H.used, hpos]

/-- A block found by the scan is the only one it loses. -/
theorem Findable.of_found (h : s.Findable c) (hm : s.free.i + m ≤ s.free.size)
    (hbits : ∀ j < m, j ≠ k → Bitmap.get? s.free.buffer (s.free.i + j) = some true)
    (hne : c ≠ s.position k) : (s.advanceBy m).Findable c := by
  obtain ⟨l, hl, hpos, hclear⟩ := h
  have hml : m ≤ l := by
    refine Nat.le_of_not_lt fun hlm => ?_
    have hlk : l ≠ k := fun hlk => hne (hlk ▸ hpos.symm)
    have := (hbits l hlm hlk).symm.trans (hclear (by omega))
    cases this
  refine ⟨l - m, by simp only [advanceBy]; omega, ?_, fun hlt => ?_⟩
  · rw [position_advanceBy, Nat.add_sub_cancel' hml, hpos]
  · simp only [advanceBy, Nat.add_assoc, Nat.add_sub_cancel' hml] at hlt ⊢
    exact hclear hlt

theorem of_map_code {r : Except Stuck AllocState} {code err : Int}
    (h : r.map (fun s' => (code, s')) = .ok (err, s')) : r = .ok s' ∧ err = code := by
  cases r with
  | error _ => cases h
  | ok _ =>
    cases h
    exact ⟨rfl, rfl⟩

/-- A traversal fails with the error of the device. -/
theorem fsRawtraverse_error (h : fsRawtraverse s = .ok (err, s')) (herr : err ≠ errOk) :
    ∃ n e, some (n, e) ∈ s.faults ∧ err = Int.negSucc e := by
  rw [fsRawtraverse] at h
  split at h
  · rename_i n e faults hfaults
    exact ⟨n, e, hfaults ▸ .head _, (of_map_code h).2⟩
  · exact absurd (of_map_code h).2 herr
  · exact absurd (of_map_code h).2 herr

/-- How a call on a device of fixed size ends: it returns a block and still comes to every other
free block that it could come to before, or it has found no free block, or a traversal failed and
the window is dropped. -/
def Ends (s : AllocState) : Except Int Nat × AllocState → Prop
  | (.ok b, s') => s'.blockCount = s.blockCount ∧ s'.used = s.used ∧
    ∀ c ∉ s.used, c ≠ b → s.Findable c → s'.Findable c
  | (.error err, s') => s'.blockCount = s.blockCount ∧ s'.used = s.used ∧
    ((s'.free.ack = 0 ∧ ¬ s.HasFree) ∨ (s'.free.size = 0 ∧ s'.free.ack = s'.blockCount ∧
      ∃ n e, some (n, e) ∈ s.faults ∧ err = Int.negSucc e))

/-- A call that goes on with the next window. -/
theorem Ends.of_refill (H : Refill (s.advanceBy n) s') (hend : s.free.i + n = s.free.size)
    (hbits : ∀ k < n, Bitmap.get? s.free.buffer (s.free.i + k) = some true) (h : s'.Ends r) :
    s.Ends r := by
  obtain ⟨r, s''⟩ := r
  cases r with
  | ok b =>
    refine ⟨h.1.trans H.blockCount, h.2.1.trans H.used, fun c hc hne hfind => ?_⟩
    exact h.2.2 c (H.used.symm ▸ hc) hne (H.findable (hfind.of_scan hend hbits) hc)
  | error err =>
    refine ⟨h.1.trans H.blockCount, h.2.1.trans H.used, h.2.2.imp ?_ ?_⟩
    · exact fun ⟨hack, hfree⟩ => ⟨hack, fun hhas => hfree (H.hasFree (hhas.of_scan hend hbits))⟩
    · rintro ⟨hsize, hack, n, e, hmem, herr⟩
      exact ⟨hsize, hack, n, e, H.faults _ hmem, herr⟩

theorem Window.alloc_ends (H : s.Window) (halloc : alloc none fuel s = .ok r) : s.Ends r := by
  induction fuel generalizing s with
  | zero => cases halloc
  | succ fuel ih =>
    have hn : s.free.i + (s.free.size - s.free.i) = s.free.size := Nat.add_sub_cancel' H.i_le
    rw [alloc] at halloc
    rcases H.allocScan hn with ⟨hscan, hbits⟩ | ⟨k, m, _, hmn, _, hscan, hbits⟩
    · rw [hscan] at halloc
      have H₁ := H.advanceBy (n := s.free.size - s.free.i) (by omega)
      dsimp only at halloc
      split at halloc
      · cases halloc
        refine ⟨rfl, rfl, .inl ⟨‹_›, fun hfree => ?_⟩⟩
        obtain ⟨k, hk, _⟩ := hfree.of_scan hn hbits
        omega
      · rcases H₁.allocRefill hn with
          ⟨s₂, hrefill, hnext⟩ | ⟨err, s₂, hrefill, herr, _, _, hused, hcount⟩
        · rw [hrefill] at halloc
          simp only [ne_eq, not_true_eq_false, ↓reduceIte] at halloc
          exact (ih hnext.window halloc).of_refill hnext hn hbits
        · have hfault := fsRawtraverse_error hrefill herr
          rw [hrefill] at halloc
          simp only [ne_eq, herr, not_false_eq_true, ↓reduceIte] at halloc
          cases halloc
          exact ⟨hcount, hused, .inr ⟨rfl, rfl, hfault⟩⟩
    · rw [hscan] at halloc
      cases halloc
      exact ⟨rfl, rfl, fun c _ hne hfind => hfind.of_found (by omega) hbits hne⟩

theorem Started.initial (H : Started s) (hcov : AllocRun.Covered s)
    (hused : ∀ b ∈ s.used, b < s.blockCount) : AllocRun.Initial s := by
  cases H with
  | mount seed _ hoff hsize hi hack => exact .mount seed hcov hused hoff hsize hi hack
  | format _ hnone hoff hsize hi hack => exact .format hcov hnone hoff hsize hi hack

/-- No block is lost when the allocator starts. -/
theorem Started.findable (H : Started s) (hcov : AllocRun.Covered s) (hb : b < s.blockCount) :
    s.Findable b := by
  cases H with
  | mount _ _ _ hsize _ hack => exact findable_of_empty hsize hack hb
  | format _ _ _ hsize hi hack hzero =>
    obtain ⟨k, hk, hpos⟩ := exists_position (s := s) hcov.count_pos hb
    refine ⟨k, hack ▸ hk, hpos, fun _ => ?_⟩
    have hwords := hcov.words
    have hcovered := hcov.covered
    rw [hi, hzero]
    exact Bitmap.get?_replicate (by decide) (by omega)

end AllocState

namespace AllocRun

open AllocState

variable {s s' : AllocRun} {e : AllocEvent}

/-- A block that is free and that the scan does not come to before the next ack: a commit took it
out of use when the scan had passed it, or while the window marked it. -/
def Lost (s : AllocRun) (b : Nat) : Prop :=
  b < s.alloc.blockCount ∧ b ∉ s.alloc.used ∧ b ∉ s.handed ∧ ¬ s.alloc.Findable b

/-- A commit frees only blocks that lie before the scan and behind the window, or were handed out
since the last ack. -/
def FreesAhead (s : AllocRun) : AllocEvent → Prop
  | .commit used => ∀ b ∈ s.alloc.used, b ∉ used →
    b ∈ s.handed ∨ ∃ k < s.alloc.free.ack, s.alloc.free.size ≤ s.alloc.free.i + k ∧
      s.alloc.position k = b
  | _ => True

/-- `FixedInv` and no block lost. -/
structure NoneLost (s : AllocRun) : Prop where
  inv : s.FixedInv
  findable : ∀ b < s.alloc.blockCount, b ∉ s.alloc.used → b ∉ s.handed → s.alloc.Findable b

theorem Started.noneLost {init : AllocState} (H : Started init) (hcov : Covered init)
    (hused : ∀ b ∈ init.used, b < init.blockCount) : NoneLost ⟨init, []⟩ where
  inv := ⟨(H.initial hcov hused).inv.window, fun _ hb => (List.not_mem_nil hb).elim,
    fun _ hb => (List.not_mem_nil hb).elim⟩
  findable _ hb _ _ := H.findable hcov hb

theorem NoneLost.step (H : s.NoneLost) (hok : FreesAhead s e) (hstep : FixedStep s e s') :
    s'.NoneLost := by
  refine ⟨H.inv.step hstep, ?_⟩
  cases hstep with
  | @allocated fuel _ _ _ faults halloc =>
    have hwindow : Window { s.alloc with faults } := { H.inv.window with }
    obtain ⟨hcount, hused, hends⟩ := hwindow.alloc_ends halloc
    intro c hc hfree hunhanded
    have hbefore := H.findable c (hcount ▸ hc) (hused ▸ hfree)
      (List.not_mem_of_not_mem_cons hunhanded)
    exact hends c (hused ▸ hfree) (List.ne_of_not_mem_cons hunhanded) hbefore
  | @failed fuel _ _ _ faults halloc =>
    have hwindow : Window { s.alloc with faults } := { H.inv.window with }
    obtain ⟨hcount, hused, ⟨hack, hfull⟩ | ⟨hsize, hack, _⟩⟩ := hwindow.alloc_ends halloc
    · intro c hc hfree hunhanded
      dsimp only at hunhanded
      rw [if_pos hack] at hunhanded
      have hfind := H.findable c (hcount ▸ hc) (hused ▸ hfree) hunhanded
      exact absurd (hfind.hasFree (hused ▸ hfree)) hfull
    · exact fun c hc _ _ => findable_of_empty hsize hack hc
  | ack =>
    intro b hb hfree _
    obtain ⟨k, hk, hpos⟩ := exists_position (s := s.alloc) (Nat.zero_lt_of_lt hb) hb
    refine ⟨k, hk, hpos, fun hlt => ?_⟩
    have hsize := H.inv.window.size_le
    have hkack : k < s.alloc.free.ack := by
      simp only [allocAck] at hlt
      omega
    have hunhanded : b ∉ s.handed := fun hmem => H.inv.behind b hmem ⟨k, hkack, hpos⟩
    obtain ⟨l, hl, hposl, hclear⟩ := H.findable b hb hfree hunhanded
    cases position_inj H.inv.window hl hkack (hposl.trans hpos.symm)
    exact hclear hlt
  | commit hused =>
    intro b hb hfree hunhanded
    by_cases hmem : b ∈ s.alloc.used
    · obtain ⟨k, hk, hle, hpos⟩ := (hok b hmem hfree).resolve_left hunhanded
      exact ⟨k, hk, hpos, fun hlt => absurd hlt (Nat.not_lt.mpr hle)⟩
    · exact H.findable b hb hmem hunhanded

/-- **Out of space.** In every run on a device of fixed size, a call that gives up has every block
in use or handed out since the last ack if and only if no block is lost, and no block is lost as
long as commits free only blocks that the scan still comes to, behind the window. -/
theorem nospc_iff {init : AllocState} {faults : List (Option (Nat × Nat))} (hinit : Started init)
    (hcov : Covered init) (hused : ∀ b ∈ init.used, b < init.blockCount)
    (hrun : Run.Runs FixedStep (fun _ _ => True) ⟨init, []⟩ s)
    (hfaults : ∀ n e, some (n, e) ∈ faults → Int.negSucc e ≠ errNospc)
    (halloc : AllocState.alloc none fuel { s.alloc with faults } = .ok (.error errNospc, a)) :
    ((∀ b < s.alloc.blockCount, b ∈ s.alloc.used ∨ b ∈ s.handed) ↔ ∀ b, ¬ s.Lost b) ∧
    (Run.Runs FixedStep FreesAhead ⟨init, []⟩ s → ∀ b, ¬ s.Lost b) := by
  have hstart := Started.noneLost hinit hcov hused
  have H := hrun.invariant (fun _ _ _ H _ hstep => FixedInv.step H hstep) hstart.inv
  have hwindow : Window { s.alloc with faults } := { H.window with }
  have hfull : ¬ s.alloc.HasFree := by
    obtain ⟨_, _, ⟨_, hfull⟩ | ⟨_, _, n, e, hmem, herr⟩⟩ := hwindow.alloc_ends halloc
    · exact hfull
    · exact absurd herr.symm (hfaults n e hmem)
  refine ⟨⟨fun h b hlost => ?_, fun h b hb => ?_⟩, fun hahead b hlost => ?_⟩
  · exact (h b hlost.1).elim hlost.2.1 hlost.2.2.1
  · by_contra hne
    obtain ⟨hfree, hunhanded⟩ := not_or.mp hne
    exact h b ⟨hb, hfree, hunhanded, fun hfind => hfull (hfind.hasFree hfree)⟩
  · have H := hahead.invariant (fun _ _ _ H hok hstep => NoneLost.step H hok hstep) hstart
    exact hlost.2.2.2 (H.findable b hlost.1 hlost.2.1 hlost.2.2.1)

theorem fiveBlocks_started : Started fiveBlocks :=
  .mount 0 ⟨by decide, by decide, rfl, by decide, by decide⟩ rfl rfl rfl rfl

theorem fiveBlocks_covered : Covered fiveBlocks := ⟨by decide, rfl, by decide, by decide⟩

/-- `fiveBlocks` with its first window, which marks the blocks 0, 1 and 4. -/
def fiveBlocksWindow (i ack : Nat) (used : List Nat) : AllocState :=
  { fiveBlocks with
    free := { offset := 0, size := 5, i, ack, buffer := [0b10011#64] }
    used }

/-- Blocks 2 and 3 are handed out. -/
theorem nospc_iff_fiveBlocks :
    ((∀ b < 5, b ∈ [0, 1, 4] ∨ b ∈ [3, 2]) ↔
      ∀ b, ¬ Lost ⟨fiveBlocksWindow 5 0 [0, 1, 4], [3, 2]⟩ b) ∧
    (Run.Runs FixedStep FreesAhead ⟨fiveBlocks, []⟩ ⟨fiveBlocksWindow 5 0 [0, 1, 4], [3, 2]⟩ →
      ∀ b, ¬ Lost ⟨fiveBlocksWindow 5 0 [0, 1, 4], [3, 2]⟩ b) := by
  have halloc : AllocState.alloc none 2 { fiveBlocksWindow 3 2 [0, 1, 4] with faults := [] } =
      .ok (.ok 3, fiveBlocksWindow 5 0 [0, 1, 4]) := rfl
  have hfirst : FixedStep ⟨fiveBlocks, []⟩ (.alloc []) ⟨fiveBlocksWindow 3 2 [0, 1, 4], [2]⟩ :=
    .allocated (fiveBlocks_alloc none)
  have hsecond : FixedStep ⟨fiveBlocksWindow 3 2 [0, 1, 4], [2]⟩ (.alloc [])
      ⟨fiveBlocksWindow 5 0 [0, 1, 4], [3, 2]⟩ := .allocated halloc
  have hrun : Run.Runs FixedStep (fun _ _ => True) ⟨fiveBlocks, []⟩
      ⟨fiveBlocksWindow 5 0 [0, 1, 4], [3, 2]⟩ :=
    (Run.Runs.refl.step trivial hfirst).step trivial hsecond
  have hfull : AllocState.alloc none 1 { fiveBlocksWindow 5 0 [0, 1, 4] with faults := [] } =
      .ok (.error errNospc, fiveBlocksWindow 5 0 [0, 1, 4]) := rfl
  exact nospc_iff fiveBlocks_started fiveBlocks_covered (by decide) hrun
    (fun _ _ hmem => (List.not_mem_nil hmem).elim) hfull

/-- Block 2 of `fiveBlocks` is handed out and linked, then a removal frees block 4. After the ack
the rest of the window is block 3, which is free, and block 4, which it still marks: the second
call gives up although block 4 is free. -/
theorem nospc_lost :
    ¬ ∀ (init : AllocState) (s : AllocRun) (fuel : Nat) (a : AllocState), Started init →
      Covered init → (∀ b ∈ init.used, b < init.blockCount) →
      Run.Runs FixedStep (fun _ _ => True) ⟨init, []⟩ s →
      AllocState.alloc none fuel s.alloc = .ok (.error errNospc, a) →
      ∀ b < s.alloc.blockCount, b ∈ s.alloc.used ∨ b ∈ s.handed := by
  intro h
  have halloc : AllocState.alloc none 1 { fiveBlocksWindow 3 5 [0, 1, 2] with faults := [] } =
      .ok (.ok 3, fiveBlocksWindow 5 3 [0, 1, 2]) := rfl
  have hfirst : FixedStep ⟨fiveBlocks, []⟩ (.alloc []) ⟨fiveBlocksWindow 3 2 [0, 1, 4], [2]⟩ :=
    .allocated (fiveBlocks_alloc none)
  have hlink : FixedStep ⟨fiveBlocksWindow 3 2 [0, 1, 4], [2]⟩ (.commit [0, 1, 2, 4])
      ⟨fiveBlocksWindow 3 2 [0, 1, 2, 4], [2]⟩ := .commit (by decide)
  have hremove : FixedStep ⟨fiveBlocksWindow 3 2 [0, 1, 2, 4], [2]⟩ (.commit [0, 1, 2])
      ⟨fiveBlocksWindow 3 2 [0, 1, 2], [2]⟩ := .commit (by decide)
  have hsecond : FixedStep ⟨fiveBlocksWindow 3 5 [0, 1, 2], []⟩ (.alloc [])
      ⟨fiveBlocksWindow 5 3 [0, 1, 2], [3]⟩ := .allocated halloc
  have hrun : Run.Runs FixedStep (fun _ _ => True) ⟨fiveBlocks, []⟩
      ⟨fiveBlocksWindow 5 3 [0, 1, 2], [3]⟩ :=
    ((((Run.Runs.refl.step trivial hfirst).step trivial hlink).step trivial hremove).step trivial
      .ack).step trivial hsecond
  have hall := h fiveBlocks _ 2 _ fiveBlocks_started fiveBlocks_covered (by decide) hrun rfl 4
    (by decide)
  revert hall
  decide

end AllocRun

/-! ## A device that is not enlarged -/

namespace AllocState

variable {s s' : AllocState} {answers : Nat → Int}

/-- `lfs_alloc` over an `allocate_block` that may answer differently each time: `callback n` is its
call number `n`. -/
def allocCalls (callback : Nat → AllocState → Int × AllocState) :
    Nat → Nat → AllocState → Except Stuck (Except Int Nat × AllocState)
  | 0, _, _ => .error .fuel
  | fuel + 1, n, s =>
    match allocScan (s.free.size - s.free.i) s with
    | .error e => .error e
    | .ok (some block, s) => .ok (.ok block, s)
    | .ok (none, s) =>
      if s.free.ack = 0 then
        let (err, s) := callback n s
        if err = errNospc then .ok (.error errNospc, s)
        else allocCalls callback fuel (n + 1) s.allocAck
      else
        match allocRefill s with
        | .error e => .error e
        | .ok (err, s) =>
          if err ≠ errOk then .ok (.error err, s.allocDrop) else allocCalls callback fuel n s

/-- A callback that answers the same each time is the one of `alloc`. -/
theorem allocCalls_eq_alloc (callback : AllocState → Int × AllocState) (fuel n : Nat) :
    allocCalls (fun _ => callback) fuel n s = alloc (some callback) fuel s := by
  induction fuel generalizing n s with
  | zero => rfl
  | succ fuel ih =>
    conv_lhs => simp only [allocCalls, ih]
    rfl

/-- A callback that leaves the device as it is and answers `answers n` when it is called for the
`n`th time. -/
def refusing (answers : Nat → Int) : Nat → AllocState → Int × AllocState :=
  fun n s => (answers n, s)

/-- No block of the device is free. -/
def NoFree (s : AllocState) : Prop := ∀ b < s.blockCount, b ∈ s.used

instance (s : AllocState) : Decidable s.NoFree :=
  inferInstanceAs (Decidable (∀ b < s.blockCount, b ∈ s.used))

/-- `s` once the rest of its window has been looked at. -/
def scanned (s : AllocState) : AllocState := s.advanceBy (s.free.size - s.free.i)

theorem scanned_end (H : s.Window) : s.scanned.free.i = s.scanned.free.size :=
  Nat.add_sub_cancel' H.i_le

theorem Window.scanned (H : s.Window) : s.scanned.Window :=
  H.advanceBy (Nat.le_of_eq (Nat.add_sub_cancel' H.i_le))

theorem NoFree.allocScan (hfull : s.NoFree) (H : s.Window) :
    allocScan (s.free.size - s.free.i) s = .ok (none, s.scanned) := by
  rcases H.allocScan (Nat.add_sub_cancel' H.i_le) with ⟨hscan, _⟩ | ⟨k, m, hkm, hmn, hclear, _⟩
  · exact hscan
  · have hpos : s.position k < s.blockCount := Nat.mod_lt _ (Nat.zero_lt_of_lt H.offset_lt)
    exact absurd (hfull _ hpos) (H.free k (by omega) hclear)

theorem NoFree.allocCalls_ask (hfull : s.NoFree) (H : s.Window) (hack : s.scanned.free.ack = 0)
    (fuel n : Nat) :
    allocCalls (refusing answers) (fuel + 1) n s =
      if answers n = errNospc then .ok (.error errNospc, s.scanned)
      else allocCalls (refusing answers) fuel (n + 1) s.scanned.allocAck := by
  rw [allocCalls, hfull.allocScan H]
  exact if_pos hack

theorem NoFree.allocCalls_next (hfull : s.NoFree) (H : s.Window) (hack : s.scanned.free.ack ≠ 0)
    (hrefill : allocRefill s.scanned = .ok (errOk, s')) (fuel n : Nat) :
    allocCalls (refusing answers) (fuel + 1) n s = allocCalls (refusing answers) fuel n s' := by
  rw [allocCalls, hfull.allocScan H]
  dsimp only
  rw [if_neg hack, hrefill]
  exact if_neg (not_not.mpr rfl)

theorem NoFree.allocCalls_failed (hfull : s.NoFree) (H : s.Window)
    (hack : s.scanned.free.ack ≠ 0) (hrefill : allocRefill s.scanned = .ok (err, s'))
    (herr : err ≠ errOk) (fuel n : Nat) :
    allocCalls (refusing answers) (fuel + 1) n s = .ok (.error err, s'.allocDrop) := by
  rw [allocCalls, hfull.allocScan H]
  dsimp only
  rw [if_neg hack, hrefill]
  exact if_pos herr

theorem allocLookahead_of_none (hlt : s.lookaheadOffset b < s.free.size)
    (hset : Bitmap.set? s.free.buffer (s.lookaheadOffset b) = none) :
    s.allocLookahead b = .error .outOfBounds := by
  unfold allocLookahead
  simp only [hlt, ↓reduceIte, hset]

theorem allocLookahead_faults (h : s.allocLookahead b = .ok s') : s'.faults = s.faults := by
  by_cases hlt : s.lookaheadOffset b < s.free.size
  · cases hset : Bitmap.set? s.free.buffer (s.lookaheadOffset b) with
    | none =>
      rw [allocLookahead_of_none hlt hset] at h
      cases h
    | some buffer =>
      rw [allocLookahead_of_lt hlt hset] at h
      rw [← Except.ok.inj h]
  · rw [allocLookahead_of_not_lt hlt] at h
    rw [Except.ok.inj h]

theorem foldlM_faults {blocks : List Nat} (h : blocks.foldlM allocLookahead s = .ok s') :
    s'.faults = s.faults := by
  induction blocks generalizing s with
  | nil => exact Except.ok.inj h ▸ rfl
  | cons b blocks ih =>
    rw [List.foldlM_cons] at h
    cases hstep : s.allocLookahead b with
    | error e =>
      rw [hstep] at h
      cases h
    | ok t =>
      rw [hstep] at h
      exact (ih h).trans (allocLookahead_faults hstep)

/-- A traversal that succeeds has met no fault. -/
theorem fsRawtraverse_ok (h : fsRawtraverse s = .ok (errOk, s')) (hf : some f ∈ s.faults) :
    some f ∈ s'.faults ∧ s'.faults.length < s.faults.length := by
  rw [fsRawtraverse] at h
  split at h
  · exact absurd (of_map_code h).2 (by simp [errOk])
  · rename_i faults hfaults
    have hrest : s'.faults = faults := foldlM_faults (of_map_code h).1
    rw [hfaults] at hf ⊢
    rw [hrest]
    exact ⟨(List.mem_cons.mp hf).resolve_left (Option.some_ne_none f), Nat.lt_succ_self _⟩
  · rename_i hfaults
    rw [hfaults] at hf
    cases hf

/-- A call, the next question being number `n`, returns and fails. -/
def EndsInError (answers : Nat → Int) (n : Nat) (s : AllocState) : Prop :=
  ∃ fuel err s', allocCalls (refusing answers) fuel n s = .ok (.error err, s') ∧ err < 0

theorem NoFree.endsInError_ask (hfull : s.NoFree) (H : s.Window) (hack : s.scanned.free.ack = 0)
    (h : answers n = errNospc ∨ EndsInError answers (n + 1) s.scanned.allocAck) :
    EndsInError answers n s := by
  by_cases hanswer : answers n = errNospc
  · refine ⟨1, errNospc, s.scanned, ?_, by decide⟩
    rw [hfull.allocCalls_ask H hack, if_pos hanswer]
  · obtain ⟨fuel, err, s', halloc, herr⟩ := h.resolve_left hanswer
    refine ⟨fuel + 1, err, s', ?_, herr⟩
    rw [hfull.allocCalls_ask H hack, if_neg hanswer, halloc]

theorem NoFree.endsInError_next (hfull : s.NoFree) (H : s.Window) (hack : s.scanned.free.ack ≠ 0)
    (h : ∀ s', allocRefill s.scanned = .ok (errOk, s') → Refill s.scanned s' →
      EndsInError answers n s') : EndsInError answers n s := by
  rcases H.scanned.allocRefill (scanned_end H) with
    ⟨s', hrefill, hnext⟩ | ⟨err, s', hrefill, herr, _⟩
  · obtain ⟨fuel, err, s'', halloc, herr⟩ := h s' hrefill hnext
    refine ⟨fuel + 1, err, s'', ?_, herr⟩
    rw [hfull.allocCalls_next H hack hrefill, halloc]
  · obtain ⟨_, e, _, rfl⟩ := fsRawtraverse_error hrefill herr
    exact ⟨1, _, _, hfull.allocCalls_failed H hack hrefill herr 0 n, Int.negSucc_lt_zero e⟩

/-- What a window over all of `ack` leaves: the whole device is looked at. -/
theorem Refill.scanned_ack (H : Refill s s') (hs : s.Window) : s'.scanned.free.ack = 0 := by
  have hack := hs.ack_le
  have hcov := hs.covered
  have hsize : s'.free.size = s'.free.ack := by
    rw [H.size, H.ack, Nat.mod_eq_of_lt hs.nowrap]
    omega
  simp only [scanned, advanceBy, H.i, hsize, Nat.sub_zero, Nat.sub_self]

theorem Refill.noFree (H : Refill s s') (hfull : s.NoFree) : s'.NoFree :=
  fun b hb => H.used.symm ▸ hfull b (H.blockCount ▸ hb)

/-- From one question to the next the window is filled once more. -/
theorem NoFree.endsInError_round (hfull : s.NoFree) (H : s.Window)
    (hack : s.scanned.free.ack = 0)
    (h : answers n = errNospc ∨ ∀ s', s'.NoFree → s'.Window → s'.scanned.free.ack = 0 →
      (∀ f, some f ∈ s.faults → some f ∈ s'.faults ∧ s'.faults.length < s.faults.length) →
      EndsInError answers (n + 1) s') : EndsInError answers n s := by
  refine hfull.endsInError_ask H hack (h.imp_right fun h => ?_)
  have hwindow : s.scanned.allocAck.Window := H.scanned.allocAck
  have hempty : s.scanned.allocAck.scanned = s.scanned.allocAck := by
    rw [scanned, show s.scanned.allocAck.free.i = s.scanned.allocAck.free.size from scanned_end H,
      Nat.sub_self, advanceBy_zero]
  have hcount : s.scanned.allocAck.scanned.free.ack ≠ 0 := by
    rw [hempty]
    exact Nat.ne_of_gt (Nat.zero_lt_of_lt H.offset_lt)
  have hnofree : s.scanned.allocAck.NoFree := hfull
  refine hnofree.endsInError_next hwindow hcount fun s' hrefill hnext => ?_
  rw [hempty] at hrefill hnext
  exact h s' (hnext.noFree hnofree) hnext.window (hnext.scanned_ack hwindow)
    fun f hf => fsRawtraverse_ok (s := s.scanned.allocAck.refilled) hrefill hf

theorem NoFree.endsInError_of_answer (hfull : s.NoFree) (H : s.Window)
    (hack : s.scanned.free.ack = 0) (h : answers (n + m) = errNospc) :
    EndsInError answers n s := by
  induction m generalizing n s with
  | zero => exact hfull.endsInError_round H hack (.inl h)
  | succ m ih =>
    refine hfull.endsInError_round H hack (.inr fun s' hfull' H' hack' _ => ?_)
    exact ih hfull' H' hack' (by rwa [Nat.add_right_comm, Nat.add_assoc n m])

theorem NoFree.endsInError_of_fault (hfull : s.NoFree) (H : s.Window)
    (hack : s.scanned.free.ack = 0) (h : some f ∈ s.faults) : EndsInError answers n s := by
  induction hlen : s.faults.length using Nat.strongRecOn generalizing n s with
  | ind length ih =>
    refine hfull.endsInError_round H hack (.inr fun s' hfull' H' hack' hfaults => ?_)
    obtain ⟨hmem, hlt⟩ := hfaults f h
    exact ih _ (hlen ▸ hlt) hfull' H' hack' hmem rfl

/-- Without an answer that counts and without a fault the search goes on for ever. -/
theorem NoFree.allocCalls_never (hfull : s.NoFree) (H : s.Window)
    (hanswers : ∀ m ≥ n, answers m ≠ errNospc) (hfaults : ∀ f ∈ s.faults, f = none) (fuel : Nat) :
    allocCalls (refusing answers) fuel n s = .error .fuel := by
  induction fuel generalizing n s with
  | zero => rfl
  | succ fuel ih =>
    by_cases hack : s.scanned.free.ack = 0
    · rw [hfull.allocCalls_ask H hack, if_neg (hanswers n (Nat.le_refl n))]
      exact ih (s := s.scanned.allocAck) hfull H.scanned.allocAck
        (fun m hm => hanswers m (Nat.le_of_succ_le hm)) hfaults
    · rcases H.scanned.allocRefill (scanned_end H) with
        ⟨s', hrefill, hnext⟩ | ⟨_, _, _, _, ⟨f, hf, hne⟩, _⟩
      · rw [hfull.allocCalls_next H hack hrefill]
        exact ih (hnext.noFree hfull) hnext.window hanswers
          fun f hf => hfaults f (hnext.faults f hf)
      · exact absurd (hfaults f hf) hne

/-- **The end of the search.** On a device without a free block that is not enlarged, a call
returns an error if and only if some question is answered with `LFS_ERR_NOSPC` or some traversal
fails; otherwise it never returns. -/
theorem alloc_refused_iff (H : s.Window) (hfull : s.NoFree) (answers : Nat → Int) (n : Nat) :
    EndsInError answers n s ↔ (∃ m ≥ n, answers m = errNospc) ∨ ∃ f, some f ∈ s.faults := by
  constructor
  · rintro ⟨fuel, err, s', halloc, _⟩
    by_contra hnot
    obtain ⟨hanswers, hfaults⟩ := not_or.mp hnot
    have hnever := hfull.allocCalls_never H (fun m hm heq => hanswers ⟨m, hm, heq⟩)
      (fun f hf => Option.eq_none_iff_forall_ne_some.mpr fun e he => hfaults ⟨e, he ▸ hf⟩) fuel
    rw [hnever] at halloc
    cases halloc
  · intro h
    by_cases hack : s.scanned.free.ack = 0
    · rcases h with ⟨m, hm, hanswer⟩ | ⟨f, hf⟩
      · exact hfull.endsInError_of_answer H hack (Nat.add_sub_cancel' hm ▸ hanswer)
      · exact hfull.endsInError_of_fault H hack hf
    · refine hfull.endsInError_next H hack fun s' hrefill hnext => ?_
      have hack' := hnext.scanned_ack H.scanned
      have hfull' := hnext.noFree hfull
      rcases h with ⟨m, hm, hanswer⟩ | ⟨f, hf⟩
      · exact hfull'.endsInError_of_answer hnext.window hack' (Nat.add_sub_cancel' hm ▸ hanswer)
      · exact hfull'.endsInError_of_fault hnext.window hack' (fsRawtraverse_ok hrefill hf).1

/-- `fiveBlocks` with all of its blocks in use. -/
def fiveFull : AllocState := { AllocRun.fiveBlocks with used := [0, 1, 4, 2, 3] }

theorem fiveFull_window : fiveFull.Window where
  offset_lt := by decide
  i_le := by decide
  size_le := by decide
  size_le_count := by decide
  ack_le := by decide
  words := rfl
  covered := by decide
  nowrap := by decide
  used_lt := by decide
  free := fun _ hk => absurd hk (Nat.not_lt_zero _)

/-- A device that fails with `LFS_ERR_IO` once and is full from then on. -/
theorem alloc_refused_fiveFull :
    EndsInError (fun n => if n = 0 then errIo else errNospc) 0 fiveFull :=
  (alloc_refused_iff fiveFull_window (by decide) _ 0).mpr (.inl ⟨1, Nat.zero_le 1, rfl⟩)

/-- A device that keeps failing with `LFS_ERR_IO`. -/
theorem alloc_refused_forever :
    ¬ ∀ (s : AllocState) (answers : Nat → Int), s.Window → s.NoFree →
      (∃ start, ∀ n ≥ start, answers n < 0) → EndsInError answers 0 s := by
  intro h
  obtain ⟨fuel, err, s', halloc, _⟩ := h fiveFull (fun _ => errIo) fiveFull_window (by decide)
    ⟨0, fun _ _ => by decide⟩
  have hnever : allocCalls (refusing fun _ => errIo) fuel 0 fiveFull = .error .fuel :=
    NoFree.allocCalls_never (by decide) fiveFull_window (fun _ _ => by decide)
      (fun _ hf => (List.not_mem_nil hf).elim) fuel
  rw [hnever] at halloc
  cases halloc

end AllocState

end LittleFs
