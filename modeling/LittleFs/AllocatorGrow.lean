import LittleFs.AllocatorRun

/-! Growing the device with `lfs_fs_rawgrow` while the window is in use.

The bitmap was filled with positions taken modulo the old `block_count` and is read modulo the new
one. A window that runs past the old end of the device describes the first blocks there, and after
the growth the same bits stand for the new blocks and for other old ones. -/

namespace LittleFs
namespace AllocState

variable {s s' : AllocState} {handed : List Nat} {count : Nat}

/-- `lfs_fs_rawgrow` before the commit of the superblock. -/
def grown (s : AllocState) (blockCount : Nat) : AllocState := { s with blockCount }

/-- The condition on a growth: the lookahead buffer still covers the device, what looks free in the
rest of the window ends before the new end of the device, counted from the window's offset without
wrapping, and no block that is handed out but not linked comes before the scan again. -/
structure GrowOk (s : AllocState) (handed : List Nat) (blockCount : Nat) : Prop where
  covered : blockCount ≤ 8 * s.lookaheadSize
  bits : ∀ j, s.free.i ≤ j → j < s.free.size → Bitmap.get? s.free.buffer j = some false →
    s.free.offset + j < blockCount
  handed : ∀ b ∈ handed, (s.grown blockCount).Unexamined b → b ∈ s.used

theorem Window.grow (H : s.Window) (hle : s.blockCount ≤ count)
    (hok : s.GrowOk handed count) : (s.grown count).Window :=
  { H with
    offset_lt := H.offset_lt.trans_le hle
    size_le_count := H.size_le_count.trans hle
    ack_le := H.ack_le.trans hle
    covered := hok.covered
    used_lt := fun b hb => (H.used_lt b hb).trans_le hle
    free := fun k hk hclear hmem => by
      have hend : s.free.offset + s.free.i + k < count := by
        have := hok.bits (s.free.i + k) (Nat.le_add_right ..) hk hclear
        omega
      have hpos : (s.grown count).position k = s.free.offset + s.free.i + k :=
        Nat.mod_eq_of_lt hend
      rw [hpos] at hmem
      have hlt := H.used_lt _ hmem
      refine H.free k hk hclear ?_
      rwa [position, Nat.mod_eq_of_lt hlt] }

/-- A window that does not run past the old end of the device may be half used. -/
theorem Window.growOk (H : s.Window) (hfresh : s.Fresh handed)
    (hhanded : ∀ b ∈ handed, b < s.blockCount) (hend : s.free.offset + s.free.size ≤ s.blockCount)
    (hle : s.blockCount ≤ count) (hcov : count ≤ 8 * s.lookaheadSize) :
    s.GrowOk handed count := by
  refine ⟨hcov, fun j _ hj _ => by omega, ?_⟩
  rintro b hb ⟨k, hk, hpos⟩
  have hi := H.i_le
  have hack := H.ack_le
  have hlt := hhanded b hb
  change k < s.free.ack at hk
  change (s.free.offset + s.free.i + k) % count = b at hpos
  -- `b` is an old block, so the scan comes to it before the old end or after the new one
  by_cases hold : s.free.offset + s.free.i + k < s.blockCount
  · rw [Nat.mod_eq_of_lt (by omega)] at hpos
    exact hfresh b hb ⟨k, hk, by rw [position, Nat.mod_eq_of_lt hold, hpos]⟩
  · have hnew : count ≤ s.free.offset + s.free.i + k := by
      refine Nat.le_of_not_lt fun hnew => ?_
      rw [Nat.mod_eq_of_lt hnew] at hpos
      omega
    have hwrap : s.free.offset + s.free.i + k - count < s.blockCount := by omega
    rw [Nat.mod_eq_sub_mod hnew, Nat.mod_eq_of_lt (by omega)] at hpos
    refine hfresh b hb ⟨k - (count - s.blockCount), by omega, ?_⟩
    rw [position, Nat.mod_eq_sub_mod (by omega), Nat.mod_eq_of_lt (by omega)]
    omega

end AllocState

/-! ## Runs with growth -/

inductive GrowEvent where
  | step (e : AllocEvent)
  | grow (blockCount : Nat)

namespace AllocRun

/-- The steps of the allocator and calls of `lfs_fs_rawgrow`, whose commit shows as further
steps. -/
inductive GrowStep (allocateBlock : AllocState.AllocateBlock) :
    AllocRun → GrowEvent → AllocRun → Prop where
  | step : Step allocateBlock s e s' → GrowStep allocateBlock s (.step e) s'
  | grow : s.alloc.blockCount ≤ blockCount →
      GrowStep allocateBlock s (.grow blockCount) ⟨s.alloc.grown blockCount, s.handed⟩

/-- The condition on a step. -/
def GrowEventOk (allocateBlock : AllocState.AllocateBlock) (s : AllocRun) : GrowEvent → Prop
  | .step e => EventOk allocateBlock s e
  | .grow blockCount => s.alloc.GrowOk s.handed blockCount

variable {allocateBlock : AllocState.AllocateBlock} {s s' : AllocRun}

theorem Inv.stepGrow (H : s.Inv) (hcb : ∀ callback ∈ allocateBlock, AllocState.Enlarges callback)
    (hok : GrowEventOk allocateBlock s e) (hstep : GrowStep allocateBlock s e s') : s'.Inv := by
  cases hstep with
  | grow hle =>
    exact ⟨H.window.grow hle hok, hok.handed, fun b hb => (H.handed_lt b hb).trans_le hle⟩
  | step hstep => exact H.step hcb hok hstep

/-- **Growth keeps allocation fresh.** In every run whose steps meet the condition, no call hands
out a block in use or one handed out since the last ack, and none leaves the bitmap. -/
theorem alloc_fresh_grown (hcb : ∀ callback ∈ allocateBlock, AllocState.Enlarges callback)
    {init : AllocState} (hinit : Initial init)
    (hrun : Run.Runs (GrowStep allocateBlock) (GrowEventOk allocateBlock) ⟨init, []⟩ s) (fuel : Nat)
    (faults : List (Option (Nat × Nat)))
    (hok : GrowEventOk allocateBlock s (.step (.alloc faults))) :
    AllocFresh allocateBlock fuel faults s ∧
      AllocState.alloc allocateBlock fuel { s.alloc with faults } ≠ .error .outOfBounds := by
  have H := hrun.invariant (fun _ _ _ H hok hstep => H.stepGrow hcb hok hstep) hinit.inv
  have hspec := H.allocSpec hcb hok fuel
  refine ⟨fun b a halloc => ?_, fun hstuck => ?_⟩
  · rw [halloc] at hspec
    exact ⟨hspec.1, hspec.2.1⟩
  · rw [hstuck] at hspec
    exact hspec

/-- Block 2 of `fiveBlocks` is linked and acknowledged; then the device grows to 13 blocks. -/
theorem alloc_fresh_grown_thirteen :
    AllocFresh none 1 [] ⟨fiveBlocksRun[2].grown 13, []⟩ ∧
      AllocState.alloc none 1 { fiveBlocksRun[2].grown 13 with faults := [] } ≠
        .error .outOfBounds := by
  have hcb : ∀ callback ∈ (none : AllocState.AllocateBlock), AllocState.Enlarges callback :=
    fun _ hcb => absurd hcb (Option.not_mem_none _)
  have hnone : ∀ f ∈ ([] : List (Option (Nat × Nat))), f = none := fun _ hf => nomatch hf
  have hcommit : GrowEventOk none ⟨fiveBlocksRun[0], [2]⟩ (.step (.commit [0, 1, 4, 2])) := by
    intro b hb _ _
    simp_all
  have hgrow : GrowEventOk none ⟨fiveBlocksRun[2], []⟩ (.grow 13) :=
    ⟨by decide, fun j _ hj _ => by simp [fiveBlocksRun] at hj ⊢; omega, fun _ hb => nomatch hb⟩
  have halloc : GrowEventOk none ⟨fiveBlocks, []⟩ (.step (.alloc [])) :=
    .inl ⟨.inr (AllocState.refuses_none _), hnone⟩
  have hack : GrowEventOk none ⟨fiveBlocksRun[1], [2]⟩ (.step .ack) := trivial
  have hrun : Run.Runs (GrowStep none) (GrowEventOk none) ⟨fiveBlocks, []⟩
      ⟨fiveBlocksRun[2].grown 13, []⟩ :=
    .step (.step (.step (.step .refl halloc (.step (.allocated (fiveBlocks_alloc none))))
      hcommit (.step (.commit (by decide)))) hack (.step .ack))
      hgrow (.grow (by decide))
  exact alloc_fresh_grown hcb fiveBlocks_initial hrun 1 []
    (.inl ⟨.inr (AllocState.refuses_none _), hnone⟩)

/-! ## A window that wraps -/

/-- Five blocks with the window starting at block 3; blocks 0 and 1 are in use. -/
def wrapped : AllocState where
  free := { offset := 3, size := 0, i := 0, ack := 5, buffer := [0#64] }
  blockCount := 5
  lookaheadSize := 8
  used := [0, 1]

/-- The states of a run on `wrapped`: blocks 3 and 4 are handed out, linked and acknowledged. -/
def wrappedRun : List AllocState :=
  let window : Free := { offset := 3, size := 5, i := 1, ack := 4, buffer := [0b01100#64] }
  [{ wrapped with free := window },
   { wrapped with free := { window with i := 4, ack := 1 } },
   { wrapped with free := { window with i := 4, ack := 1 }, used := [0, 1, 3, 4] },
   { wrapped with free := { window with i := 4, ack := 5 }, used := [0, 1, 3, 4] }]

theorem wrapped_runs :
    Run.Runs (Step none) (fun _ _ => True) ⟨wrapped, []⟩ ⟨wrappedRun[3], []⟩ := by
  have hfirst : AllocState.alloc none 2 { wrapped with faults := [] } =
      .ok (.ok 3, wrappedRun[0]) := rfl
  have hsecond : AllocState.alloc none 2 { wrappedRun[0] with faults := [] } =
      .ok (.ok 4, wrappedRun[1]) := rfl
  have hlink : Step none ⟨wrappedRun[1], [4, 3]⟩ (.commit [0, 1, 3, 4]) ⟨wrappedRun[2], [4, 3]⟩ :=
    .commit (by decide)
  exact .step (.step (.step (.step .refl trivial (.allocated hfirst)) trivial
    (.allocated hsecond)) trivial hlink) trivial .ack

/-- The last bit of the window stands for block 2 and is clear; after the growth to six blocks
`lfs_alloc` returns block 1 for it, which is in use. -/
theorem alloc_grown_in_use :
    ¬ ∀ (init : AllocState) (s : AllocRun) (blockCount fuel : Nat), Initial init →
      Run.Runs (Step none) (fun _ _ => True) ⟨init, []⟩ s → s.alloc.blockCount < blockCount →
      blockCount ≤ 8 * s.alloc.lookaheadSize →
      AllocFresh none fuel [] ⟨s.alloc.grown blockCount, s.handed⟩ := by
  intro h
  have hinit : Initial wrapped :=
    .mount 3 ⟨by decide, rfl, by decide, by decide⟩ (by decide) rfl rfl rfl rfl
  have hfresh := h wrapped ⟨wrappedRun[3], []⟩ 6 1 hinit wrapped_runs (by decide) (by decide)
  have hfree : 1 ∉ [0, 1, 3, 4] := (hfresh 1 { wrappedRun[3].grown 6 with
    free := { wrappedRun[3].free with i := 5, ack := 4 } } rfl).1
  exact absurd hfree (by decide)

end AllocRun

end LittleFs
