import LittleFs.AllocatorRun

/-! The allocator on a device of fixed size, without an `allocate_block` callback.

A block that was handed out lies behind the scan until the next `lfs_alloc_ack`: the scan only goes
forward, over refills of the window and over acks in its middle, and `ack` counts how far it may
still go before it comes round. -/

namespace LittleFs
namespace AllocState

variable {s s' : AllocState} {handed : List Nat}

/-- The values of `ack` that the eager loop of `lfs_alloc` decrements. -/
def skipAcks : Nat → AllocState → List Nat
  | 0, _ => []
  | n + 1, s =>
    match Bitmap.get? s.free.buffer s.free.i with
    | some true => s.free.ack :: skipAcks n s.advance
    | _ => []

/-- The values of `ack` that the loop over the window decrements. -/
def scanAcks : Nat → AllocState → List Nat
  | 0, _ => []
  | n + 1, s =>
    s.free.ack ::
      match Bitmap.get? s.free.buffer s.free.i with
      | some true => scanAcks n s.advance
      | _ => skipAcks n s.advance

/-- The values of `ack` that a call of `lfs_alloc` without `allocate_block` decrements. -/
def allocAcks : Nat → AllocState → List Nat
  | 0, _ => []
  | fuel + 1, s =>
    scanAcks (s.free.size - s.free.i) s ++
      match allocScan (s.free.size - s.free.i) s with
      | .ok (none, s) =>
        if s.free.ack = 0 then []
        else
          match allocRefill s with
          | .ok (err, s) => if err ≠ errOk then [] else allocAcks fuel s
          | .error _ => []
      | _ => []

theorem Window.skipAcks_pos (H : s.Window) (h : s.free.i + n = s.free.size) :
    ∀ ack ∈ skipAcks n s, 0 < ack := by
  induction n generalizing s with
  | zero => exact fun _ hack => nomatch hack
  | succ n ih =>
    have hsize := H.size_le
    have hadv := H.advance_eq (by omega)
    intro ack hack
    rw [skipAcks] at hack
    split at hack
    · rcases List.mem_cons.mp hack with rfl | hack
      · omega
      · rw [hadv] at hack
        exact ih (H.advanceBy (by omega)) (by simp only [AllocState.advanceBy]; omega) ack hack
    · cases hack

theorem Window.scanAcks_pos (H : s.Window) (h : s.free.i + n = s.free.size) :
    ∀ ack ∈ scanAcks n s, 0 < ack := by
  induction n generalizing s with
  | zero => exact fun _ hack => nomatch hack
  | succ n ih =>
    have hsize := H.size_le
    have hadv := H.advance_eq (by omega)
    have H₁ := H.advanceBy (n := 1) (by omega)
    have h₁ : (s.advanceBy 1).free.i + n = (s.advanceBy 1).free.size := by
      simp only [AllocState.advanceBy]
      omega
    intro ack hack
    rw [scanAcks, hadv] at hack
    rcases List.mem_cons.mp hack with rfl | hack
    · omega
    · split at hack
      · exact ih H₁ h₁ ack hack
      · exact H₁.skipAcks_pos h₁ ack hack

/-- `ack` is never decremented below zero. -/
theorem Window.allocAcks_pos (H : s.Window) (fuel : Nat) : ∀ ack ∈ allocAcks fuel s, 0 < ack := by
  induction fuel generalizing s with
  | zero => exact fun _ hack => nomatch hack
  | succ fuel ih =>
    have hn : s.free.i + (s.free.size - s.free.i) = s.free.size := Nat.add_sub_cancel' H.i_le
    intro ack hack
    rw [allocAcks, List.mem_append] at hack
    rcases hack with hack | hack
    · exact H.scanAcks_pos hn ack hack
    · rcases H.allocScan hn with ⟨hscan, _⟩ | ⟨k, m, _, _, _, hscan, _⟩
      · rw [hscan] at hack
        have H₁ := H.advanceBy (n := s.free.size - s.free.i) (by omega)
        dsimp only at hack
        split at hack
        · cases hack
        · rcases H₁.allocRefill hn with ⟨s', hrefill, hnext⟩ | ⟨err, s', hrefill, herr, _⟩
          · rw [hrefill] at hack
            simp only [ne_eq, not_true_eq_false, ↓reduceIte] at hack
            exact ih hnext.window ack hack
          · rw [hrefill] at hack
            simp only [ne_eq, herr, not_false_eq_true, ↓reduceIte] at hack
            cases hack
      · rw [hscan] at hack
        cases hack

/-- The last pass: a window as long as `ack` either holds a free block or uses `ack` up. -/
theorem Window.alloc_last (H : s.Window) (hi : s.free.i = 0) (hsize : s.free.size = s.free.ack)
    (fuel : Nat) : ∃ r, alloc none (fuel + 1) s = .ok r := by
  have hn : s.free.i + (s.free.size - s.free.i) = s.free.size := Nat.add_sub_cancel' H.i_le
  rw [alloc]
  rcases H.allocScan hn with ⟨hscan, _⟩ | ⟨k, m, _, _, _, hscan, _⟩
  · have hack : (s.advanceBy (s.free.size - s.free.i)).free.ack = 0 := by
      simp only [AllocState.advanceBy]
      omega
    rw [hscan]
    simp only [hack, ↓reduceIte]
    exact ⟨_, rfl⟩
  · rw [hscan]
    exact ⟨_, rfl⟩

/-- A call returns: it refills the window at most once. -/
theorem Window.alloc_returns (H : s.Window) (fuel : Nat) :
    ∃ r, alloc none (fuel + 2) s = .ok r := by
  have hn : s.free.i + (s.free.size - s.free.i) = s.free.size := Nat.add_sub_cancel' H.i_le
  rw [alloc]
  rcases H.allocScan hn with ⟨hscan, _⟩ | ⟨k, m, _, _, _, hscan, _⟩
  · rw [hscan]
    have H₁ := H.advanceBy (n := s.free.size - s.free.i) (by omega)
    dsimp only
    split
    · exact ⟨_, rfl⟩
    · rcases H₁.allocRefill hn with ⟨s', hrefill, hnext⟩ | ⟨err, s', hrefill, herr, _⟩
      · rw [hrefill]
        simp only [ne_eq, not_true_eq_false, ↓reduceIte]
        refine hnext.window.alloc_last hnext.i ?_ fuel
        -- the lookahead buffer covers the device, so the window takes in all of `ack`
        have hack := H₁.ack_le
        have hcov := H₁.covered
        have hwrap := H₁.nowrap
        rw [hnext.size, hnext.ack, Nat.mod_eq_of_lt hwrap]
        omega
      · rw [hrefill]
        simp only [ne_eq, herr, not_false_eq_true, ↓reduceIte]
        exact ⟨_, rfl⟩
  · rw [hscan]
    exact ⟨_, rfl⟩

end AllocState

/-! ## Runs without `allocate_block` -/

namespace AllocRun

/-- A step on a device of fixed size. A call that fails by a traversal drops the window, which
acknowledges: its operation fails and gives up what it was handed. A call that runs out of blocks
leaves `ack` at 0. -/
inductive FixedStep : AllocRun → AllocEvent → AllocRun → Prop where
  | allocated : AllocState.alloc none fuel { s.alloc with faults } = .ok (.ok b, a) →
      FixedStep s (.alloc faults) ⟨a, b :: s.handed⟩
  | failed : AllocState.alloc none fuel { s.alloc with faults } = .ok (.error err, a) →
      FixedStep s (.alloc faults) ⟨a, if a.free.ack = 0 then s.handed else []⟩
  | ack : FixedStep s .ack ⟨s.alloc.allocAck, []⟩
  /-- A commit or a removal links handed-out blocks and frees any blocks. -/
  | commit : (∀ b ∈ used, b ∈ s.alloc.used ∨ b ∈ s.handed) →
      FixedStep s (.commit used) ⟨{ s.alloc with used }, s.handed⟩

/-- What holds between the steps: the blocks handed out since the last ack are behind the scan. -/
structure FixedInv (s : AllocRun) : Prop where
  window : s.alloc.Window
  behind : ∀ b ∈ s.handed, ¬ s.alloc.Unexamined b
  handed_lt : ∀ b ∈ s.handed, b < s.alloc.blockCount

variable {s s' : AllocRun}

theorem FixedInv.allocSpec (H : s.FixedInv) (fuel : Nat) (faults : List (Option (Nat × Nat))) :
    AllocState.AllocSpec none { s.alloc with faults } s.handed
      (AllocState.alloc none fuel { s.alloc with faults }) :=
  AllocState.alloc_spec (fun _ hcb => absurd hcb (Option.not_mem_none _)) fuel { H.window with }
    (fun b hb hun => absurd hun (H.behind b hb)) (.inl (AllocState.refuses_none _))

theorem FixedInv.step (H : s.FixedInv) (hstep : FixedStep s e s') : s'.FixedInv := by
  cases hstep with
  | @allocated fuel _ _ _ faults halloc =>
    have hspec := H.allocSpec fuel faults
    rw [halloc] at hspec
    obtain ⟨_, _, hlt, hbun, K, hscan⟩ := hspec
    have hun := hscan.resolve_right fun hlinked => hlinked.1 rfl
    refine ⟨K.window, fun c hc => ?_, fun c hc => ?_⟩
    · rcases List.mem_cons.mp hc with rfl | hc
      · exact hbun
      · exact fun hcun => H.behind c hc (hun c hcun)
    · rcases List.mem_cons.mp hc with rfl | hc
      · exact hlt
      · exact (H.handed_lt c hc).trans_le K.blockCount
  | @failed fuel _ _ _ faults halloc =>
    have hspec := H.allocSpec fuel faults
    rw [halloc] at hspec
    refine ⟨hspec.1.window, fun c hc => ?_, fun c hc => ?_⟩ <;> dsimp only at hc
    · split at hc
      · rintro ⟨k, hk, _⟩
        dsimp only at hk
        omega
      · cases hc
    · split at hc
      · exact (H.handed_lt c hc).trans_le hspec.1.blockCount
      · cases hc
  | ack => exact ⟨H.window.allocAck, fun _ hb => (nomatch hb), fun _ hb => (nomatch hb)⟩
  | commit hused =>
    refine ⟨{ H.window with used_lt := fun b hb => ?_, free := fun k hk hclear hmem => ?_ },
      H.behind, H.handed_lt⟩
    · exact (hused b hb).elim (H.window.used_lt b) (H.handed_lt b)
    · have hsize := H.window.size_le
      dsimp only at hk
      exact (hused _ hmem).elim (H.window.free k hk hclear)
        fun hb => H.behind _ hb ⟨k, by omega, rfl⟩

/-- **Allocation is safe on a device of fixed size.** In every run every call returns, and it never
returns a block in use or one already returned since the last ack, never decrements `ack` below
zero and never leaves the bitmap. -/
theorem alloc_safe {init : AllocState} (hinit : Initial init)
    (hrun : Run.Runs FixedStep (fun _ _ => True) ⟨init, []⟩ s) (fuel : Nat)
    (faults : List (Option (Nat × Nat))) :
    (∀ b a, AllocState.alloc none fuel { s.alloc with faults } = .ok (.ok b, a) →
      b ∉ s.alloc.used ∧ b ∉ s.handed) ∧
    0 ∉ AllocState.allocAcks fuel { s.alloc with faults } ∧
    ∃ r, AllocState.alloc none (fuel + 2) { s.alloc with faults } = .ok r := by
  have hstart : FixedInv ⟨init, []⟩ :=
    ⟨hinit.inv.window, fun _ hb => (nomatch hb), fun _ hb => (nomatch hb)⟩
  have H := hrun.invariant (fun _ _ _ H _ hstep => H.step hstep) hstart
  have hwindow : AllocState.Window { s.alloc with faults } := { H.window with }
  refine ⟨fun b a halloc => ?_, fun hack => ?_, hwindow.alloc_returns fuel⟩
  · have hspec := H.allocSpec fuel faults
    rw [halloc] at hspec
    exact ⟨hspec.1, hspec.2.1⟩
  · exact absurd (hwindow.allocAcks_pos fuel 0 hack) (Nat.lt_irrefl 0)

/-- The call after the run on `fiveBlocks`: block 2 is linked and acknowledged, block 3 comes
next. -/
theorem alloc_safe_fiveBlocks :
    (∀ b a, AllocState.alloc none 1 { fiveBlocksRun[2] with faults := [] } = .ok (.ok b, a) →
      b ∉ fiveBlocksRun[2].used ∧ b ∉ ([] : List Nat)) ∧
    0 ∉ AllocState.allocAcks 1 { fiveBlocksRun[2] with faults := [] } ∧
    ∃ r, AllocState.alloc none 3 { fiveBlocksRun[2] with faults := [] } = .ok r := by
  have hlink : FixedStep ⟨fiveBlocksRun[0], [2]⟩ (.commit [0, 1, 4, 2]) ⟨fiveBlocksRun[1], [2]⟩ :=
    .commit (by decide)
  have hrun : Run.Runs FixedStep (fun _ _ => True) ⟨fiveBlocks, []⟩ ⟨fiveBlocksRun[2], []⟩ :=
    .step (.step (.step .refl trivial (.allocated (fiveBlocks_alloc none))) trivial hlink)
      trivial .ack
  exact alloc_safe fiveBlocks_initial hrun 1 []

end AllocRun

end LittleFs
