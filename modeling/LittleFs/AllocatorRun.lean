import LittleFs.Allocator

/-! Runs of the allocator: calls of `lfs_alloc` with device errors anywhere, calls of
`lfs_alloc_ack` by its callers, and commits that link handed-out blocks and free others.

The main result is the exact point where auto-grow becomes unsafe: blocks are handed out twice
only when a call has to enlarge the device (or drops its window after a failed traversal) while a
block handed out before is not linked yet. -/

namespace LittleFs
namespace AllocState

/-! ## The `allocate_block` callback of the VFS -/

/-- `lfs_bd_cb_alloc` while `on_grow` is set. -/
def bdCbAllocGrowing (s : AllocState) : Int × AllocState := (errNospc, s)

/-- An `lfs_alloc` call of the root commit of `lfs_fs_rawgrow`. -/
def nestedAlloc (fuel : Nat) (s : AllocState) : AllocState :=
  match alloc (some bdCbAllocGrowing) fuel s with
  | .ok (_, s') => s'
  | .error _ => s

/-- `lfs_fs_rawgrow`, as far as the allocator sees it: the new size, then the allocations that the
commit of the superblock makes. -/
def fsRawgrow (allocs fuel : Nat) (s : AllocState) (blockCount : Nat) : AllocState :=
  if blockCount > s.blockCount then (nestedAlloc fuel)^[allocs] { s with blockCount } else s

/-- `lfs_bd_cb_alloc` over a device that answers `allocate_block` and `get_block_count`. -/
def bdCbAlloc (device : AllocState → Int × Nat) (allocs fuel : Nat) (s : AllocState) :
    Int × AllocState :=
  let (err, newCount) := device s
  (err, if err = errOk then fsRawgrow allocs fuel s newCount else s)

variable {s s' : AllocState} {handed : List Nat}

theorem nestedAlloc_eq (hend : s.free.i = s.free.size) (hack : s.free.ack = 0) (fuel : Nat) :
    nestedAlloc fuel s = s := by
  cases fuel with
  | zero => rfl
  | succ fuel =>
    have hscan : allocScan (s.free.size - s.free.i) s = .ok (none, s) := by
      rw [hend, Nat.sub_self]
      simp only [allocScan, hend, ↓reduceIte]
    simp only [nestedAlloc, alloc, hscan, hack, ↓reduceIte, bdCbAllocGrowing]

theorem fsRawgrow_eq (hend : s.free.i = s.free.size) (hack : s.free.ack = 0)
    (allocs fuel blockCount : Nat) :
    fsRawgrow allocs fuel s blockCount = { s with blockCount := max s.blockCount blockCount } := by
  unfold fsRawgrow
  split
  · have hfix : nestedAlloc fuel { s with blockCount } = { s with blockCount } :=
      nestedAlloc_eq (s := { s with blockCount }) hend hack fuel
    rw [Function.iterate_fixed hfix, Nat.max_eq_right (by omega)]
  · rw [Nat.max_eq_left (by omega)]

/-- Called with `ack` used up, the callback of the VFS changes `block_count` at most. -/
theorem bdCbAlloc_eq (device : AllocState → Int × Nat) (allocs fuel : Nat)
    (hend : s.free.i = s.free.size) (hack : s.free.ack = 0) :
    (bdCbAlloc device allocs fuel s).2 = s ∨
    (bdCbAlloc device allocs fuel s).2 =
      { s with blockCount := max s.blockCount (device s).2 } := by
  by_cases herr : (device s).1 = errOk
  · exact .inr (by simp only [bdCbAlloc, herr, ↓reduceIte, fsRawgrow_eq hend hack])
  · exact .inl (by simp only [bdCbAlloc, herr, ↓reduceIte])

/-- The callback of the VFS behaves as documented, with any number of allocations nested in its
commit. -/
theorem bdCbAlloc_enlarges {device : AllocState → Int × Nat} (allocs fuel : Nat)
    (hdevice : ∀ s : AllocState, s.blockCount ≤ 8 * s.lookaheadSize →
      (device s).2 ≤ 8 * s.lookaheadSize) :
    Enlarges (bdCbAlloc device allocs fuel) := by
  refine ⟨?_, ?_, ?_, ?_, ?_⟩ <;> intro s hend hack <;>
    rcases bdCbAlloc_eq device allocs fuel hend hack with h | h <;> rw [h]
  · exact Nat.le_max_left ..
  · exact id
  · exact fun hcov => Nat.max_le.mpr ⟨hcov, hdevice s hcov⟩

end AllocState

/-! ## Runs -/

/-- The allocator together with the blocks it has handed out since the last `lfs_alloc_ack`. -/
structure AllocRun where
  alloc : AllocState
  handed : List Nat

inductive AllocEvent where
  | alloc (faults : List (Option (Nat × Nat)))
  | ack
  | commit (used : List Nat)

namespace AllocRun

inductive Step (allocateBlock : AllocState.AllocateBlock) : AllocRun → AllocEvent →
    AllocRun → Prop where
  | allocated : AllocState.alloc allocateBlock fuel { s.alloc with faults } = .ok (.ok b, a) →
      Step allocateBlock s (.alloc faults) ⟨a, b :: s.handed⟩
  | failed : AllocState.alloc allocateBlock fuel { s.alloc with faults } = .ok (.error err, a) →
      Step allocateBlock s (.alloc faults) ⟨a, s.handed⟩
  | ack : Step allocateBlock s .ack ⟨s.alloc.allocAck, []⟩
  /-- A commit links handed-out blocks and frees any blocks. -/
  | commit : (∀ b ∈ used, b ∈ s.alloc.used ∨ b ∈ s.handed) →
      Step allocateBlock s (.commit used) ⟨{ s.alloc with used }, s.handed⟩

/-- The condition on a step. A commit may free a block handed out since the last ack, except when
the scan was taken back in between and may come to it again. -/
def EventOk (allocateBlock : AllocState.AllocateBlock) (s : AllocRun) : AllocEvent → Prop
  | .alloc faults => ({ s.alloc with faults } : AllocState).CallOk allocateBlock s.handed
  | .ack => True
  | .commit used => ∀ b ∈ s.handed, s.alloc.Unexamined b → b ∈ s.alloc.used → b ∈ used

/-- A configuration whose lookahead buffer has a bit for every block. -/
structure Covered (s : AllocState) : Prop where
  count_pos : 0 < s.blockCount
  words : s.free.buffer.length * 8 = s.lookaheadSize
  covered : s.blockCount ≤ 8 * s.lookaheadSize
  nowrap : 16 * s.lookaheadSize < 2 ^ 64

/-- The allocator as `lfs_raw_mount` and `lfs_raw_format` leave it. -/
inductive Initial : AllocState → Prop where
  | mount (seed : Nat) : Covered s → (∀ b ∈ s.used, b < s.blockCount) →
      s.free.offset = seed % s.blockCount → s.free.size = 0 → s.free.i = 0 →
      s.free.ack = s.blockCount → Initial s
  | format : Covered s → s.used = [] → s.free.offset = 0 →
      s.free.size = min (16 * s.lookaheadSize % 2 ^ 64) s.blockCount → s.free.i = 0 →
      s.free.ack = s.blockCount → Initial s

structure Inv (s : AllocRun) : Prop where
  window : s.alloc.Window
  fresh : s.alloc.Fresh s.handed
  handed_lt : ∀ b ∈ s.handed, b < s.alloc.blockCount

theorem Initial.inv {s : AllocState} (H : Initial s) : Inv ⟨s, []⟩ := by
  refine ⟨?_, fun _ hb => (nomatch hb), fun _ hb => (nomatch hb)⟩
  cases H with
  | mount seed hcov hused hoff hsize hi hack =>
    exact
      { offset_lt := hoff ▸ Nat.mod_lt _ hcov.count_pos
        i_le := by simp only [hi, hsize, Nat.le_refl]
        size_le := by simp only [hsize, Nat.zero_le]
        size_le_count := by simp only [hsize, Nat.zero_le]
        ack_le := Nat.le_of_eq hack
        words := by have := hcov.words; dsimp only; omega
        covered := hcov.covered
        nowrap := hcov.nowrap
        used_lt := hused
        free := fun k hk => by simp only [hsize, Nat.not_lt_zero] at hk }
  | format hcov hused hoff hsize hi hack =>
    have hmin : s.free.size ≤ s.blockCount := hsize ▸ Nat.min_le_right ..
    exact
      { offset_lt := hoff ▸ hcov.count_pos
        i_le := by simp only [hi, Nat.zero_le]
        size_le := by simp only [hi, hack, Nat.zero_add, hmin]
        size_le_count := hmin
        ack_le := Nat.le_of_eq hack
        words := by have := hcov.words; dsimp only; omega
        covered := hcov.covered
        nowrap := hcov.nowrap
        used_lt := fun b hb => by simp only [hused, List.not_mem_nil] at hb
        free := fun k _ _ => by simp only [hused, List.not_mem_nil, not_false_eq_true] }

variable {allocateBlock : AllocState.AllocateBlock} {s s' : AllocRun}

theorem Inv.allocSpec (H : s.Inv) (hcb : ∀ callback ∈ allocateBlock, AllocState.Enlarges callback)
    (hok : EventOk allocateBlock s (.alloc faults)) (fuel : Nat) :
    AllocState.AllocSpec allocateBlock { s.alloc with faults } s.handed
      (AllocState.alloc allocateBlock fuel { s.alloc with faults }) :=
  AllocState.alloc_spec hcb fuel { H.window with } H.fresh (.inr hok)

theorem Inv.of_allocated (H : s.Inv)
    (hspec : AllocState.AllocSpec allocateBlock { s.alloc with faults } s.handed
      (.ok (.ok b, a))) : Inv ⟨a, b :: s.handed⟩ := by
  have hfresh := hspec.fresh_ok H.fresh
  obtain ⟨_, _, hlt, _, K, _⟩ := hspec
  refine ⟨K.window, hfresh, fun c hc => ?_⟩
  rcases List.mem_cons.mp hc with rfl | hc
  · exact hlt
  · exact (H.handed_lt c hc).trans_le K.blockCount

theorem Inv.of_failed (H : s.Inv)
    (hspec : AllocState.AllocSpec allocateBlock { s.alloc with faults } s.handed
      (.ok (.error err, a)))
    (hok : EventOk allocateBlock s (.alloc faults)) : Inv ⟨a, s.handed⟩ :=
  ⟨hspec.1.window, hspec.fresh_error hok,
    fun b hb => (H.handed_lt b hb).trans_le hspec.1.blockCount⟩

theorem Inv.step (H : s.Inv) (hcb : ∀ callback ∈ allocateBlock, AllocState.Enlarges callback)
    (hok : EventOk allocateBlock s e) (hstep : Step allocateBlock s e s') : s'.Inv := by
  cases hstep with
  | @allocated fuel _ _ _ _ halloc =>
    have hspec := H.allocSpec hcb hok fuel
    rw [halloc] at hspec
    exact H.of_allocated hspec
  | @failed fuel _ _ _ _ halloc =>
    have hspec := H.allocSpec hcb hok fuel
    rw [halloc] at hspec
    exact H.of_failed hspec hok
  | ack => exact ⟨H.window.allocAck, fun _ hb => (nomatch hb), fun _ hb => (nomatch hb)⟩
  | commit hused =>
    refine ⟨{ H.window with used_lt := fun b hb => ?_, free := fun k hk hclear hmem => ?_ },
      fun b hb hun => hok b hb hun (H.fresh b hb hun), H.handed_lt⟩
    · exact (hused b hb).elim (H.window.used_lt b) (H.handed_lt b)
    · have hfree := H.window.free k hk hclear
      have hsize := H.window.size_le
      dsimp only at hk
      exact hfree <| (hused _ hmem).elim id fun hb => H.fresh _ hb ⟨k, by omega, rfl⟩

theorem Inv.runs (H : s.Inv) (hcb : ∀ callback ∈ allocateBlock, AllocState.Enlarges callback)
    (hrun : Run.Runs (Step allocateBlock) (EventOk allocateBlock) s s') : s'.Inv :=
  hrun.invariant (fun _ _ _ H hok hstep => H.step hcb hok hstep) H

/-- `EventOk` for both allocations of `lfs_dir_alloc`. -/
def DirAllocOk (allocateBlock : AllocState.AllocateBlock) (fuel : Nat)
    (faults : List (Option (Nat × Nat))) (s : AllocRun) : Prop :=
  EventOk allocateBlock s (.alloc faults) ∧
  ∀ b a, AllocState.alloc allocateBlock fuel { s.alloc with faults } = .ok (.ok b, a) →
    a.CallOk allocateBlock (b :: s.handed)

/-- What `lfs_alloc` may hand out in state `s`: no block in use and none a second time. -/
def AllocFresh (allocateBlock : AllocState.AllocateBlock) (fuel : Nat)
    (faults : List (Option (Nat × Nat))) (s : AllocRun) : Prop :=
  ∀ b a, AllocState.alloc allocateBlock fuel { s.alloc with faults } = .ok (.ok b, a) →
    b ∉ s.alloc.used ∧ b ∉ s.handed

/-- What `lfs_dir_alloc` may hand out in state `s`. -/
def DirAllocFresh (allocateBlock : AllocState.AllocateBlock) (fuel : Nat)
    (faults : List (Option (Nat × Nat))) (s : AllocRun) : Prop :=
  ∀ pair a, AllocState.dirAlloc allocateBlock fuel { s.alloc with faults } = .ok (.ok pair, a) →
    pair.1 ≠ pair.2

theorem Inv.allocFresh (H : s.Inv) (hcb : ∀ callback ∈ allocateBlock, AllocState.Enlarges callback)
    (hok : EventOk allocateBlock s (.alloc faults)) (fuel : Nat) :
    AllocFresh allocateBlock fuel faults s := by
  intro b a halloc
  have hspec := H.allocSpec hcb hok fuel
  rw [halloc] at hspec
  exact ⟨hspec.1, hspec.2.1⟩

theorem Inv.dirAllocFresh (H : s.Inv)
    (hcb : ∀ callback ∈ allocateBlock, AllocState.Enlarges callback)
    (hok : s.DirAllocOk allocateBlock fuel faults) :
    DirAllocFresh allocateBlock fuel faults s := by
  intro pair a hdir
  have hspec := H.allocSpec hcb hok.1 fuel
  unfold AllocState.dirAlloc at hdir
  split at hdir
  · cases hdir
  · cases hdir
  · rename_i block1 a₁ halloc₁
    rw [halloc₁] at hspec
    have hspec₂ := AllocState.alloc_spec hcb fuel hspec.2.2.2.2.1.window (hspec.fresh_ok H.fresh)
      (.inr (hok.2 _ _ halloc₁))
    split at hdir
    · cases hdir
    · cases hdir
    · rename_i block0 a₂ halloc₂
      rw [halloc₂] at hspec₂
      cases hdir
      intro (heq : block0 = block1)
      exact hspec₂.2.1 (heq ▸ .head _)

/-- **Allocation is fresh.** In every run whose steps meet the condition, no call hands out a
block in use or a block handed out since the last ack, no pair has equal halves, and the bitmap is
never accessed out of bounds. -/
theorem alloc_fresh (hcb : ∀ callback ∈ allocateBlock, AllocState.Enlarges callback)
    {init : AllocState} (hinit : Initial init)
    (hrun : Run.Runs (Step allocateBlock) (EventOk allocateBlock) ⟨init, []⟩ s) (fuel : Nat)
    (faults : List (Option (Nat × Nat))) :
    (EventOk allocateBlock s (.alloc faults) → AllocFresh allocateBlock fuel faults s ∧
      AllocState.alloc allocateBlock fuel { s.alloc with faults } ≠ .error .outOfBounds) ∧
    (s.DirAllocOk allocateBlock fuel faults → DirAllocFresh allocateBlock fuel faults s) := by
  have H := Inv.runs hinit.inv hcb hrun
  refine ⟨fun hok => ⟨H.allocFresh hcb hok fuel, fun hstuck => ?_⟩, H.dirAllocFresh hcb⟩
  have hspec := H.allocSpec hcb hok fuel
  rw [hstuck] at hspec
  exact hspec

/-- Five blocks, of which 0, 1 and 4 are in use. -/
def fiveBlocks : AllocState where
  free := { offset := 0, size := 0, i := 0, ack := 5, buffer := [0#64] }
  blockCount := 5
  lookaheadSize := 8
  used := [0, 1, 4]

/-- A device that can be enlarged by eight blocks at a time, up to the lookahead buffer. -/
def eightMore (s : AllocState) : Int × Nat :=
  (errOk, min (s.blockCount + 8) (8 * s.lookaheadSize))

theorem eightMore_enlarges : ∀ callback ∈ some (AllocState.bdCbAlloc eightMore 1 2),
    AllocState.Enlarges callback := by
  rintro _ ⟨⟩
  exact AllocState.bdCbAlloc_enlarges 1 2 fun s _ => Nat.min_le_right ..

theorem fiveBlocks_initial : Initial fiveBlocks :=
  .mount 0 ⟨by decide, rfl, by decide, by decide⟩ (by decide) rfl rfl rfl rfl

/-- The states of a run on `fiveBlocks`: block 2 is handed out and linked, then acknowledged. -/
def fiveBlocksRun : List AllocState :=
  let window : Free := { offset := 0, size := 5, i := 3, ack := 2, buffer := [0b10011#64] }
  [{ fiveBlocks with free := window },
   { fiveBlocks with free := window, used := [0, 1, 4, 2] },
   { fiveBlocks with free := { window with ack := 5 }, used := [0, 1, 4, 2] }]

theorem fiveBlocks_alloc (allocateBlock : AllocState.AllocateBlock) :
    AllocState.alloc allocateBlock 2 { fiveBlocks with faults := [] } =
      .ok (.ok 2, fiveBlocksRun[0]) := rfl

theorem fiveBlocks_runs (allocateBlock : AllocState.AllocateBlock)
    {P : AllocRun → AllocEvent → Prop}
    (halloc : P ⟨fiveBlocks, []⟩ (.alloc []))
    (hcommit : P ⟨fiveBlocksRun[0], [2]⟩ (.commit [0, 1, 4, 2]))
    (hack : P ⟨fiveBlocksRun[1], [2]⟩ .ack) :
    Run.Runs (Step allocateBlock) P ⟨fiveBlocks, []⟩ ⟨fiveBlocksRun[2], []⟩ :=
  .step (.step (.step .refl halloc (.allocated (fiveBlocks_alloc allocateBlock))) hcommit
    (.commit (by decide))) hack .ack

/-- Auto-grow while one half of a new pair is only handed out: the other half is the same block. -/
theorem dirAlloc_twice :
    ¬ ∀ (allocateBlock : AllocState.AllocateBlock) (init : AllocState) (s : AllocRun) (fuel : Nat)
      (faults : List (Option (Nat × Nat))),
      (∀ callback ∈ allocateBlock, AllocState.Enlarges callback) → Initial init →
      Run.Runs (Step allocateBlock) (fun _ _ => True) ⟨init, []⟩ s →
      AllocFresh allocateBlock fuel faults s ∧ DirAllocFresh allocateBlock fuel faults s := by
  intro h
  have hdir := (h _ _ _ 4 [] eightMore_enlarges fiveBlocks_initial
    (fiveBlocks_runs _ trivial trivial trivial)).2
  exact hdir (3, 3) ⟨{ offset := 3, size := 13, i := 2, ack := 11, buffer := [0x1c02#64] }, 13, 8,
    [0, 1, 4, 2], []⟩ rfl rfl

/-- `fiveBlocks` after the removal that frees block 4. -/
def threeFree : AllocState := { fiveBlocks with used := [0, 1] }

theorem alloc_fresh_threeFree :
    (AllocFresh (some (AllocState.bdCbAlloc eightMore 1 2)) 3 [] ⟨threeFree, []⟩ ∧
      AllocState.alloc (some (AllocState.bdCbAlloc eightMore 1 2)) 3 { threeFree with faults := [] }
        ≠ .error .outOfBounds) ∧
    DirAllocFresh (some (AllocState.bdCbAlloc eightMore 1 2)) 3 [] ⟨threeFree, []⟩ := by
  obtain ⟨grow, hgrow⟩ : ∃ grow, some (AllocState.bdCbAlloc eightMore 1 2) = grow := ⟨_, rfl⟩
  have hfree : EventOk grow ⟨fiveBlocks, []⟩ (.commit [0, 1]) := fun _ hb => (nomatch hb)
  have hrun : Run.Runs (Step grow) (EventOk grow) ⟨fiveBlocks, []⟩ ⟨threeFree, []⟩ :=
    .step .refl hfree (.commit (by decide))
  have hok : EventOk grow ⟨threeFree, []⟩ (.alloc []) := .inr fun _ hb => (nomatch hb)
  subst hgrow
  have h := alloc_fresh eightMore_enlarges fiveBlocks_initial hrun 3 []
  refine ⟨h.1 hok, h.2 ⟨hok, fun b a halloc => .inl ?_⟩⟩
  cases halloc
  exact ⟨.inl ⟨0, by decide, by decide⟩, fun f hf => (nomatch hf)⟩

end AllocRun

end LittleFs
