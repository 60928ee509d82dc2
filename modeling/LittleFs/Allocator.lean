import Mathlib.Data.Nat.ModEq
import LittleFs.Lib.Bitmap
import LittleFs.Lib.Run
import LittleFs.GlobalState

/-! The block allocator of `lfs_allocator.cpp`: a window of the device held as a bitmap, scanned
from `i` on, and `ack`, the number of blocks that may still be looked at before the blocks handed
out since the last `lfs_alloc_ack` come round again.

When `ack` is used up, `lfs_alloc` asks `allocate_block` to enlarge the device and acknowledges on
behalf of its caller, so the caller's own blocks are scanned a second time. -/

namespace LittleFs

/-- Why a call of the model has no result: the bitmap is accessed beyond its words, or the fuel
of the outer loop of `lfs_alloc` is spent. -/
inductive Stuck where
  | outOfBounds
  | fuel
  deriving DecidableEq, Repr

/-- `lfs_free_t`. -/
structure Free where
  offset : Nat
  size : Nat
  i : Nat
  ack : Nat
  buffer : List (BitVec 64)
  deriving DecidableEq, Repr

/-- The fields of `lfs_t` the allocator works on. `used` is what `lfs_fs_rawtraverse` reports;
`faults` says of the next traversals which of them stop early, after how many blocks and with
which error (`-1 - n` for the number `n`). -/
structure AllocState where
  free : Free
  blockCount : Nat
  lookaheadSize : Nat
  used : List Nat
  faults : List (Option (Nat × Nat)) := []
  deriving DecidableEq, Repr

namespace AllocState

/-- `((block - lfs->free.offset) + lfs->block_count) % lfs->block_count`. -/
def lookaheadOffset (s : AllocState) (block : Nat) : Nat :=
  ((block + 2 ^ 64 - s.free.offset) % 2 ^ 64 + s.blockCount) % 2 ^ 64 % s.blockCount

/-- `lfs_alloc_lookahead`. -/
def allocLookahead (s : AllocState) (block : Nat) : Except Stuck AllocState :=
  let offset := s.lookaheadOffset block
  if offset < s.free.size then
    match Bitmap.set? s.free.buffer offset with
    | some buffer => .ok { s with free := { s.free with buffer } }
    | none => .error .outOfBounds
  else .ok s

/-- `lfs_alloc_ack`. -/
def allocAck (s : AllocState) : AllocState :=
  { s with free := { s.free with ack := s.blockCount } }

/-- `lfs_alloc_drop`. -/
def allocDrop (s : AllocState) : AllocState :=
  allocAck { s with free := { s.free with size := 0, i := 0 } }

/-- `lfs_fs_rawtraverse` with `lfs_alloc_lookahead` as its callback. -/
def fsRawtraverse (s : AllocState) : Except Stuck (Int × AllocState) :=
  match s.faults with
  | some (n, err) :: faults =>
    ((s.used.take n).foldlM allocLookahead { s with faults }).map fun s' => (Int.negSucc err, s')
  | none :: faults => (s.used.foldlM allocLookahead { s with faults }).map fun s' => (errOk, s')
  | [] => (s.used.foldlM allocLookahead s).map fun s' => (errOk, s')

/-- `lfs->free.i += 1; lfs->free.ack -= 1`. -/
def advance (s : AllocState) : AllocState :=
  { s with free := { s.free with i := s.free.i + 1, ack := (s.free.ack + 2 ^ 64 - 1) % 2 ^ 64 } }

/-- The eager loop to the next free block; `n` is what is left of the window. -/
def allocSkip : Nat → AllocState → Except Stuck AllocState
  | 0, s => if s.free.i = s.free.size then .ok s else .error .outOfBounds
  | n + 1, s =>
    match Bitmap.get? s.free.buffer s.free.i with
    | none => .error .outOfBounds
    | some true => allocSkip n s.advance
    | some false => .ok s

/-- The loop over the window; `n` is what is left of it. -/
def allocScan : Nat → AllocState → Except Stuck (Option Nat × AllocState)
  | 0, s => if s.free.i = s.free.size then .ok (none, s) else .error .outOfBounds
  | n + 1, s =>
    match Bitmap.get? s.free.buffer s.free.i with
    | none => .error .outOfBounds
    | some true => allocScan n s.advance
    | some false =>
      (allocSkip n s.advance).map fun s' => (some ((s.free.offset + s.free.i) % s.blockCount), s')

/-- The next window, with nothing marked yet. -/
def refilled (s : AllocState) : AllocState :=
  { s with
    free := {
      offset := (s.free.offset + s.free.size) % 2 ^ 64 % s.blockCount
      size := min (16 * s.lookaheadSize % 2 ^ 64) s.free.ack
      i := 0
      ack := s.free.ack
      buffer := List.replicate s.free.buffer.length 0#64 } }

/-- The next window, with the blocks in use marked. -/
def allocRefill (s : AllocState) : Except Stuck (Int × AllocState) :=
  fsRawtraverse s.refilled

/-- `cfg->allocate_block`: the returned code and the state it leaves, `none` when it is not set. -/
abbrev AllocateBlock := Option (AllocState → Int × AllocState)

/-- `lfs_alloc`. -/
def alloc (allocateBlock : AllocateBlock) :
    Nat → AllocState → Except Stuck (Except Int Nat × AllocState)
  | 0, _ => .error .fuel
  | fuel + 1, s =>
    match allocScan (s.free.size - s.free.i) s with
    | .error e => .error e
    | .ok (some block, s) => .ok (.ok block, s)
    | .ok (none, s) =>
      -- we have looked at all blocks since the last ack
      if s.free.ack = 0 then
        match allocateBlock with
        | none => .ok (.error errNospc, s)
        | some callback =>
          let (err, s) := callback s
          if err = errNospc then .ok (.error errNospc, s) else alloc allocateBlock fuel s.allocAck
      else
        match allocRefill s with
        | .error e => .error e
        | .ok (err, s) =>
          if err ≠ errOk then .ok (.error err, s.allocDrop) else alloc allocateBlock fuel s

/-- The two allocations of `lfs_dir_alloc`, block 1 first. -/
def dirAlloc (allocateBlock : AllocateBlock) (fuel : Nat) (s : AllocState) :
    Except Stuck (Except Int BlockPair × AllocState) :=
  match alloc allocateBlock fuel s with
  | .error e => .error e
  | .ok (.error err, s) => .ok (.error err, s)
  | .ok (.ok block1, s) =>
    match alloc allocateBlock fuel s with
    | .error e => .error e
    | .ok (.error err, s) => .ok (.error err, s)
    | .ok (.ok block0, s) => .ok (.ok (block0, block1), s)

/-! ## Positions

Position `k` is the block that comes up after `k` others from the scan position on. -/

variable {s s' : AllocState} {handed : List Nat}

def position (s : AllocState) (k : Nat) : Nat :=
  (s.free.offset + s.free.i + k) % s.blockCount

/-- The scan may come to `b` before `ack` is used up. -/
def Unexamined (s : AllocState) (b : Nat) : Prop :=
  ∃ k < s.free.ack, s.position k = b

/-- Some block that the scan may still come to looks free: its bit is clear in the current window,
or, beyond the window, it is not in use. -/
def HasFree (s : AllocState) : Prop :=
  ∃ k < s.free.ack,
    if s.free.i + k < s.free.size then Bitmap.get? s.free.buffer (s.free.i + k) = some false
    else s.position k ∉ s.used

/-- The window of a device that the lookahead buffer covers in full. -/
structure Window (s : AllocState) : Prop where
  offset_lt : s.free.offset < s.blockCount
  i_le : s.free.i ≤ s.free.size
  size_le : s.free.size ≤ s.free.i + s.free.ack
  size_le_count : s.free.size ≤ s.blockCount
  ack_le : s.free.ack ≤ s.blockCount
  words : s.free.buffer.length * 64 = 8 * s.lookaheadSize
  covered : s.blockCount ≤ 8 * s.lookaheadSize
  nowrap : 16 * s.lookaheadSize < 2 ^ 64
  used_lt : ∀ b ∈ s.used, b < s.blockCount
  free : ∀ k, s.free.i + k < s.free.size →
    Bitmap.get? s.free.buffer (s.free.i + k) = some false → s.position k ∉ s.used

/-- No block of `handed` comes up again before it is in use. -/
def Fresh (s : AllocState) (handed : List Nat) : Prop :=
  ∀ b ∈ handed, s.Unexamined b → b ∈ s.used

private theorem mod_of_lt_two_mul {x n : Nat} (h : x < 2 * n) :
    x % n = if x < n then x else x - n := by
  split
  · exact Nat.mod_eq_of_lt ‹_›
  · rw [Nat.mod_eq_sub_mod (by omega), Nat.mod_eq_of_lt (by omega)]

/-- The offset of a block in the window is the position that holds it. -/
theorem Window.lookaheadOffset_eq_iff (H : s.Window) (hb : b < s.blockCount)
    (hj : j < s.blockCount) :
    s.lookaheadOffset b = j ↔ (s.free.offset + j) % s.blockCount = b := by
  have hoff := H.offset_lt
  have hcov := H.covered
  have hwrap := H.nowrap
  have hsub : ((b + 2 ^ 64 - s.free.offset) % 2 ^ 64 + s.blockCount) % 2 ^ 64 =
      b + s.blockCount - s.free.offset := by omega
  have hleft : b + s.blockCount - s.free.offset < 2 * s.blockCount := by omega
  have hright : s.free.offset + j < 2 * s.blockCount := by omega
  rw [lookaheadOffset, hsub, mod_of_lt_two_mul hleft, mod_of_lt_two_mul hright]
  clear hsub
  split <;> split <;> omega

theorem position_inj (H : s.Window) (hk : k < s.free.ack) (hl : l < s.free.ack)
    (h : s.position k = s.position l) : k = l := by
  have hack := H.ack_le
  have hmod : Nat.ModEq s.blockCount k l := Nat.ModEq.add_left_cancel' _ h
  exact hmod.eq_of_lt_of_lt (by omega) (by omega)

/-! ## The scan -/

/-- `n` times `advance`. -/
def advanceBy (s : AllocState) (n : Nat) : AllocState :=
  { s with free := { s.free with i := s.free.i + n, ack := s.free.ack - n } }

theorem Window.advance_eq (H : s.Window) (h : s.free.i < s.free.size) :
    s.advance = s.advanceBy 1 := by
  have hsize := H.size_le
  have hack := H.ack_le
  have hcov := H.covered
  have hwrap := H.nowrap
  have hdec : (s.free.ack + 2 ^ 64 - 1) % 2 ^ 64 = s.free.ack - 1 := by omega
  rw [advance, advanceBy, hdec]

@[simp] theorem advanceBy_zero (s : AllocState) : s.advanceBy 0 = s := rfl

theorem advanceBy_advanceBy (s : AllocState) (m n : Nat) :
    (s.advanceBy m).advanceBy n = s.advanceBy (m + n) := by
  simp only [advanceBy, Nat.add_assoc, Nat.sub_sub]

theorem position_advanceBy (s : AllocState) (n k : Nat) :
    (s.advanceBy n).position k = s.position (n + k) := by
  simp only [position, advanceBy, Nat.add_assoc]

theorem Window.advanceBy (H : s.Window) (h : s.free.i + n ≤ s.free.size) :
    (s.advanceBy n).Window where
  offset_lt := H.offset_lt
  i_le := h
  size_le := by
    have := H.size_le
    simp only [AllocState.advanceBy]
    omega
  size_le_count := H.size_le_count
  ack_le := (Nat.sub_le ..).trans H.ack_le
  words := H.words
  covered := H.covered
  nowrap := H.nowrap
  used_lt := H.used_lt
  free k hk hget := by
    rw [position_advanceBy]
    simp only [AllocState.advanceBy, Nat.add_assoc] at hk hget
    exact H.free (n + k) hk hget

theorem Unexamined.of_advanceBy (h : (s.advanceBy n).Unexamined b) : s.Unexamined b := by
  obtain ⟨k, hk, hpos⟩ := h
  simp only [AllocState.advanceBy] at hk
  rw [position_advanceBy] at hpos
  exact ⟨n + k, by omega, hpos⟩

theorem Window.get?_isSome (H : s.Window) (h : k < s.free.size) :
    ∃ bit, Bitmap.get? s.free.buffer k = some bit := by
  have hsize := H.size_le_count
  have hwords := H.words
  have hcov := H.covered
  rw [← Option.isSome_iff_exists, Bitmap.get?_isSome (by decide)]
  omega

theorem Window.allocSkip (H : s.Window) (h : s.free.i + n = s.free.size) :
    ∃ m ≤ n, allocSkip n s = .ok (s.advanceBy m) ∧
      ∀ j < m, Bitmap.get? s.free.buffer (s.free.i + j) = some true := by
  induction n generalizing s with
  | zero =>
    refine ⟨0, Nat.le_refl 0, by simpa [AllocState.allocSkip] using h, ?_⟩
    exact fun j hj => absurd hj (Nat.not_lt_zero j)
  | succ n ih =>
    obtain ⟨bit, hbit⟩ := H.get?_isSome (k := s.free.i) (by omega)
    cases bit with
    | false =>
      refine ⟨0, Nat.zero_le _, by simp only [AllocState.allocSkip, hbit, advanceBy_zero], ?_⟩
      exact fun j hj => absurd hj (Nat.not_lt_zero j)
    | true =>
      obtain ⟨m, hm, hskip, hbits⟩ := ih (H.advanceBy (n := 1) (by omega))
        (by simp only [AllocState.advanceBy]; omega)
      refine ⟨1 + m, by omega, ?_, fun j hj => ?_⟩
      · rw [← advanceBy_advanceBy, ← hskip, AllocState.allocSkip, hbit, H.advance_eq (by omega)]
      · cases j with
        | zero => exact hbit
        | succ j =>
          have := hbits j (by omega)
          simpa only [AllocState.advanceBy, Nat.add_assoc, Nat.add_comm 1] using this

/-- What the scan of the rest of the window does. -/
theorem Window.allocScan (H : s.Window) (h : s.free.i + n = s.free.size) :
    (allocScan n s = .ok (none, s.advanceBy n) ∧
      ∀ k < n, Bitmap.get? s.free.buffer (s.free.i + k) = some true) ∨
    ∃ k m, k < m ∧ m ≤ n ∧ Bitmap.get? s.free.buffer (s.free.i + k) = some false ∧
      allocScan n s = .ok (some (s.position k), s.advanceBy m) ∧
      ∀ j < m, j ≠ k → Bitmap.get? s.free.buffer (s.free.i + j) = some true := by
  induction n generalizing s with
  | zero =>
    refine .inl ⟨by simpa [AllocState.allocScan] using h, ?_⟩
    exact fun k hk => absurd hk (Nat.not_lt_zero k)
  | succ n ih =>
    have hadv := H.advance_eq (by omega)
    have H₁ := H.advanceBy (n := 1) (by omega)
    have h₁ : (s.advanceBy 1).free.i + n = (s.advanceBy 1).free.size := by
      simp only [AllocState.advanceBy]
      omega
    have hshift : ∀ {j}, Bitmap.get? (s.advanceBy 1).free.buffer ((s.advanceBy 1).free.i + j) =
        Bitmap.get? s.free.buffer (s.free.i + (j + 1)) := by
      intro j
      simp only [AllocState.advanceBy, Nat.add_assoc, Nat.add_comm 1]
    obtain ⟨bit, hbit⟩ := H.get?_isSome (k := s.free.i) (by omega)
    cases bit with
    | false =>
      obtain ⟨m, hm, hskip, hbits⟩ := H₁.allocSkip h₁
      refine .inr ⟨0, 1 + m, by omega, by omega, hbit, ?_, fun j hj hne => ?_⟩
      · rw [← advanceBy_advanceBy, AllocState.allocScan, hbit, hadv]
        simp only [hskip, Except.map, position, Nat.add_zero]
      · cases j with
        | zero => exact absurd rfl hne
        | succ j => exact hshift ▸ hbits j (by omega)
    | true =>
      have hstep : AllocState.allocScan (n + 1) s = AllocState.allocScan n (s.advanceBy 1) := by
        rw [AllocState.allocScan, hbit, hadv]
      rcases ih H₁ h₁ with ⟨hscan, hbits⟩ | ⟨k, m, hkm, hmn, hclear, hscan, hbits⟩
      · refine .inl ⟨by rw [hstep, hscan, advanceBy_advanceBy, Nat.add_comm], fun k hk => ?_⟩
        cases k with
        | zero => exact hbit
        | succ k => exact hshift ▸ hbits k (by omega)
      · refine .inr ⟨k + 1, 1 + m, by omega, by omega, hshift ▸ hclear, ?_, fun j hj hne => ?_⟩
        · rw [hstep, hscan, advanceBy_advanceBy, position_advanceBy, Nat.add_comm 1 k]
        · cases j with
          | zero => exact hbit
          | succ j => exact hshift ▸ hbits j (by omega) (by omega)

/-! ## The next window -/

theorem allocLookahead_of_lt (hlt : s.lookaheadOffset b < s.free.size)
    (hset : Bitmap.set? s.free.buffer (s.lookaheadOffset b) = some buffer) :
    s.allocLookahead b = .ok { s with free := { s.free with buffer } } := by
  unfold allocLookahead
  simp only [hlt, ↓reduceIte, hset]

theorem allocLookahead_of_not_lt (hlt : ¬ s.lookaheadOffset b < s.free.size) :
    s.allocLookahead b = .ok s := by
  unfold allocLookahead
  exact if_neg hlt

/-- The traversal marks exactly the offsets of the blocks it visits. -/
theorem foldlM_allocLookahead (blocks : List Nat)
    (hwords : s.free.size ≤ s.free.buffer.length * 64) :
    ∃ buffer, blocks.foldlM allocLookahead s = .ok { s with free := { s.free with buffer } } ∧
      buffer.length = s.free.buffer.length ∧
      ∀ j < s.free.size, Bitmap.get? buffer j =
        if ∃ b ∈ blocks, s.lookaheadOffset b = j then some true
        else Bitmap.get? s.free.buffer j := by
  induction blocks generalizing s with
  | nil => exact ⟨s.free.buffer, rfl, rfl, by simp⟩
  | cons b blocks ih =>
    by_cases hlt : s.lookaheadOffset b < s.free.size
    · have hsome : (Bitmap.set? s.free.buffer (s.lookaheadOffset b)).isSome := by
        rw [Bitmap.set?_isSome (by decide)]
        omega
      obtain ⟨marked, hset⟩ := Option.isSome_iff_exists.mp hsome
      have hlen := Bitmap.length_set? hset
      have hstep := allocLookahead_of_lt hlt hset
      obtain ⟨buffer, hfold, hbuffer, hget⟩ :=
        ih (s := { s with free := { s.free with buffer := marked } }) (by rw [hlen]; exact hwords)
      refine ⟨buffer, ?_, hbuffer.trans hlen, fun j hj => ?_⟩
      · rw [List.foldlM_cons, hstep]
        exact hfold
      · rw [hget j hj, Bitmap.get?_set? (by decide) hset]
        change (if ∃ b ∈ blocks, s.lookaheadOffset b = j then _ else _) = _
        by_cases hj' : j = s.lookaheadOffset b <;> simp [hj', eq_comm]
    · have hstep : s.allocLookahead b = .ok s := allocLookahead_of_not_lt hlt
      obtain ⟨buffer, hfold, hbuffer, hget⟩ := ih hwords
      refine ⟨buffer, ?_, hbuffer, fun j hj => ?_⟩
      · rw [List.foldlM_cons, hstep]
        exact hfold
      · have hne : s.lookaheadOffset b ≠ j := by omega
        rw [hget j hj]
        simp [hne]

theorem Window.refilled_size_le (H : s.Window) :
    s.refilled.free.size ≤ s.free.buffer.length * 64 := by
  have hwords := H.words
  have hcov := H.covered
  have hack := H.ack_le
  have hmin : s.refilled.free.size ≤ s.free.ack := Nat.min_le_right ..
  omega

theorem Window.position_refilled (H : s.Window) (hend : s.free.i = s.free.size) (k : Nat) :
    s.refilled.position k = s.position k := by
  have hoff := H.offset_lt
  have hsize := H.size_le_count
  have hcov := H.covered
  have hwrap := H.nowrap
  have hmod : (s.free.offset + s.free.size) % 2 ^ 64 = s.free.offset + s.free.size :=
    Nat.mod_eq_of_lt (by omega)
  simp only [position, refilled, hmod, Nat.add_zero, hend, Nat.mod_add_mod]

/-- The next window, when no traversal fails: its clear bits are its blocks not in use. -/
structure Refill (s s' : AllocState) : Prop where
  window : s'.Window
  i : s'.free.i = 0
  size : s'.free.size = min (16 * s.lookaheadSize % 2 ^ 64) s.free.ack
  ack : s'.free.ack = s.free.ack
  used : s'.used = s.used
  blockCount : s'.blockCount = s.blockCount
  position : ∀ k, s'.position k = s.position k
  faults : ∀ f ∈ s'.faults, f ∈ s.faults
  clear : ∀ k < s'.free.size, s'.position k ∉ s'.used →
    Bitmap.get? s'.free.buffer k = some false

theorem Window.refill (H : s.Window) (hend : s.free.i = s.free.size)
    (faults : List (Option (Nat × Nat))) (hfaults : ∀ f ∈ faults, f ∈ s.faults) :
    ∃ s', s.used.foldlM allocLookahead { s.refilled with faults } = .ok s' ∧ Refill s s' := by
  have hle := H.refilled_size_le
  have hcov := H.covered
  have hack := H.ack_le
  have hmin : s.refilled.free.size ≤ s.free.ack := Nat.min_le_right ..
  have hoff : s.refilled.free.offset < s.blockCount := Nat.mod_lt _ (by have := H.offset_lt; omega)
  obtain ⟨buffer, hfold, hlen, hget⟩ :=
    foldlM_allocLookahead (s := { s.refilled with faults }) s.used
      (by simpa only [refilled, List.length_replicate] using hle)
  -- the new window, before its bits are known
  have hwindow : (AllocState.mk { s.refilled.free with size := 0 } s.blockCount s.lookaheadSize
      s.used faults).Window :=
    ⟨hoff, Nat.le_refl 0, Nat.zero_le _, Nat.zero_le _, hack, by simpa [refilled] using H.words,
      hcov, H.nowrap, H.used_lt, fun _ hk => absurd hk (Nat.not_lt_zero _)⟩
  have hbit : ∀ k < s.refilled.free.size,
      Bitmap.get? buffer k = some false ↔ s.refilled.position k ∉ s.used := by
    intro k hk
    have hzero : Bitmap.get? s.refilled.free.buffer k = some false :=
      Bitmap.get?_replicate (by decide) (by omega)
    have hmark : (∃ b ∈ s.used, s.refilled.lookaheadOffset b = k) ↔
        s.refilled.position k ∈ s.used := by
      have hk' : k < s.blockCount := by omega
      have hiff := fun b hb =>
        hwindow.lookaheadOffset_eq_iff (b := b) (j := k) (H.used_lt b hb) hk'
      constructor
      · rintro ⟨b, hb, hoffset⟩
        have hpos : s.refilled.position k = b := ((hiff b hb).mp hoffset)
        exact hpos ▸ hb
      · intro hb
        exact ⟨_, hb, (hiff _ hb).mpr rfl⟩
    have hgetk : Bitmap.get? buffer k = if ∃ b ∈ s.used, s.refilled.lookaheadOffset b = k
      then some true else Bitmap.get? s.refilled.free.buffer k := hget k hk
    rw [hgetk, hzero, ← hmark]
    split <;> simp_all
  refine ⟨_, hfold, ?_, rfl, rfl, rfl, rfl, rfl, H.position_refilled hend, hfaults,
    fun k hk => (hbit k hk).mpr⟩
  exact
    { offset_lt := hoff
      i_le := Nat.zero_le _
      size_le := by simp [refilled]
      size_le_count := hmin.trans hack
      ack_le := hack
      words := by simpa [hlen, refilled] using H.words
      covered := hcov
      nowrap := H.nowrap
      used_lt := H.used_lt
      free := fun k hk hclear => (hbit k (by simpa [refilled] using hk)).mp
        (by simpa [refilled] using hclear) }

theorem Window.allocDrop (H : s.Window) : s.allocDrop.Window :=
  { H with
    i_le := Nat.le_refl 0
    size_le := Nat.zero_le _
    size_le_count := Nat.zero_le _
    ack_le := Nat.le_refl _
    free := fun _ hk => absurd hk (Nat.not_lt_zero _) }

/-- A failed traversal of `allocRefill`: what is kept when the window is then dropped. -/
theorem Window.refill_failed (H : s.Window) (faults : List (Option (Nat × Nat))) (n : Nat) :
    ∃ s', (s.used.take n).foldlM allocLookahead { s.refilled with faults } = .ok s' ∧
      s'.allocDrop.Window ∧ s'.used = s.used ∧ s'.blockCount = s.blockCount := by
  have hle := H.refilled_size_le
  obtain ⟨buffer, hfold, hlen, _⟩ :=
    foldlM_allocLookahead (s := { s.refilled with faults }) (s.used.take n)
      (by simpa only [refilled, List.length_replicate] using hle)
  refine ⟨_, hfold, ?_, rfl, rfl⟩
  exact
    { offset_lt := Nat.mod_lt _ (by have := H.offset_lt; omega)
      i_le := Nat.le_refl 0
      size_le := Nat.zero_le _
      size_le_count := Nat.zero_le _
      ack_le := Nat.le_refl _
      words := by simpa [AllocState.allocDrop, allocAck, hlen, refilled] using H.words
      covered := H.covered
      nowrap := H.nowrap
      used_lt := H.used_lt
      free := fun _ hk => absurd hk (Nat.not_lt_zero _) }

/-- The two outcomes of `allocRefill`. -/
theorem Window.allocRefill (H : s.Window) (hend : s.free.i = s.free.size) :
    (∃ s', allocRefill s = .ok (errOk, s') ∧ Refill s s') ∨
    ∃ err s', allocRefill s = .ok (err, s') ∧ err ≠ errOk ∧ (∃ f ∈ s.faults, f ≠ none) ∧
      s'.allocDrop.Window ∧ s'.used = s.used ∧ s'.blockCount = s.blockCount := by
  rcases hfaults : s.faults with _ | ⟨_ | ⟨n, err⟩, faults⟩
  · obtain ⟨s', hfold, hrefill⟩ := H.refill hend [] (by simp)
    refine .inl ⟨s', ?_, hrefill⟩
    have hself : s.refilled = { s.refilled with faults := [] } := by rw [← hfaults]; rfl
    simp only [AllocState.allocRefill, fsRawtraverse, show s.refilled.faults = [] from hfaults]
    rw [hself]
    exact congrArg (Except.map fun s' => (errOk, s')) hfold
  · obtain ⟨s', hfold, hrefill⟩ := H.refill hend faults
      (fun f hf => by rw [hfaults]; exact .tail _ hf)
    refine .inl ⟨s', ?_, hrefill⟩
    simp only [AllocState.allocRefill, fsRawtraverse,
      show s.refilled.faults = none :: faults from hfaults]
    exact congrArg (Except.map fun s' => (errOk, s')) hfold
  · obtain ⟨s', hfold, hdrop, hused, hcount⟩ := H.refill_failed faults n
    refine .inr ⟨Int.negSucc err, s', ?_, by simp [errOk], ⟨_, .head _, by simp⟩, hdrop, hused,
      hcount⟩
    simp only [AllocState.allocRefill, fsRawtraverse,
      show s.refilled.faults = some (n, err) :: faults from hfaults]
    exact congrArg (Except.map fun s' => (Int.negSucc err, s')) hfold

/-! ## One call of `lfs_alloc` -/

/-- The documented behaviour of `allocate_block`, called when all blocks have been looked at: the
device gets no smaller and stays within the lookahead buffer, and the allocator is not touched. -/
structure Enlarges (callback : AllocState → Int × AllocState) : Prop where
  free : ∀ {s}, s.free.i = s.free.size → s.free.ack = 0 → (callback s).2.free = s.free
  used : ∀ {s}, s.free.i = s.free.size → s.free.ack = 0 → (callback s).2.used = s.used
  lookaheadSize : ∀ {s}, s.free.i = s.free.size → s.free.ack = 0 →
    (callback s).2.lookaheadSize = s.lookaheadSize
  le : ∀ {s}, s.free.i = s.free.size → s.free.ack = 0 → s.blockCount ≤ (callback s).2.blockCount
  covered : ∀ {s}, s.free.i = s.free.size → s.free.ack = 0 → s.blockCount ≤ 8 * s.lookaheadSize →
    (callback s).2.blockCount ≤ 8 * s.lookaheadSize

/-- The device does not grow behind its last block: `allocate_block` is not set, or answers
`LFS_ERR_NOSPC` once all blocks have been looked at. -/
def Refuses (s : AllocState) (allocateBlock : AllocateBlock) : Prop :=
  ∀ callback ∈ allocateBlock, ∀ t : AllocState, t.free.i = t.free.size → t.free.ack = 0 →
    t.used = s.used → t.blockCount = s.blockCount → (callback t).1 = errNospc

/-- The condition under which a call is safe: its traversals succeed, and it need not enlarge the
device or cannot, or whatever has been handed out is already linked. -/
def CallOk (s : AllocState) (allocateBlock : AllocateBlock) (handed : List Nat) : Prop :=
  ((s.HasFree ∨ s.Refuses allocateBlock) ∧ ∀ f ∈ s.faults, f = none) ∨ ∀ b ∈ handed, b ∈ s.used

/-- What every call keeps. -/
structure Called (s s' : AllocState) : Prop where
  window : s'.Window
  used : s'.used = s.used
  blockCount : s.blockCount ≤ s'.blockCount

/-- The call enlarged the device after all of `handed` was linked. -/
def Linked (allocateBlock : AllocateBlock) (s : AllocState) (handed : List Nat) : Prop :=
  allocateBlock ≠ none ∧ ∀ b ∈ handed, b ∈ s.used

/-- What a call does: the block it returns and what the scan may still come to. A call that fails
has looked at every block, or one of its traversals failed. -/
def AllocSpec (allocateBlock : AllocateBlock) (s : AllocState) (handed : List Nat) :
    Except Stuck (Except Int Nat × AllocState) → Prop
  | .error .outOfBounds => False
  | .error .fuel => True
  | .ok (.error _, s') => Called s s' ∧
      (s'.free.ack = 0 ∨ (∃ f ∈ s.faults, f ≠ none) ∨ Linked allocateBlock s handed)
  | .ok (.ok b, s') => b ∉ s.used ∧ b ∉ handed ∧ b < s'.blockCount ∧ ¬ s'.Unexamined b ∧
      Called s s' ∧ ((∀ c, s'.Unexamined c → s.Unexamined c) ∨ Linked allocateBlock s handed)

theorem Called.trans (H : Called s s') (K : Called s' s'') : Called s s'' :=
  ⟨K.window, K.used.trans H.used, H.blockCount.trans K.blockCount⟩

/-- A call that goes on from `s'`, which the scan has reached without enlarging the device. -/
theorem AllocSpec.of_scan (H : Called s s') (hun : ∀ c, s'.Unexamined c → s.Unexamined c)
    (hfaults : ∀ f ∈ s'.faults, f ∈ s.faults) (h : AllocSpec allocateBlock s' handed r) :
    AllocSpec allocateBlock s handed r := by
  have hlinked : Linked allocateBlock s' handed → Linked allocateBlock s handed :=
    fun ⟨hne, hmem⟩ => ⟨hne, fun b hb => H.used ▸ hmem b hb⟩
  match r with
  | .error .outOfBounds => exact h
  | .error .fuel => trivial
  | .ok (.error _, _) =>
    obtain ⟨K, hwhy⟩ := h
    refine ⟨H.trans K, hwhy.imp_right (Or.imp (fun ⟨f, hf, hne⟩ => ⟨f, hfaults f hf, hne⟩) hlinked)⟩
  | .ok (.ok _, _) =>
    obtain ⟨hb, hhanded, hlt, hbun, K, hscan⟩ := h
    exact ⟨H.used ▸ hb, hhanded, hlt, hbun, H.trans K,
      hscan.imp (fun hscan c hc => hun c (hscan c hc)) hlinked⟩

/-- A call that goes on from `s'`, where the device has been enlarged. -/
theorem AllocSpec.of_linked (H : Called s s') (hlinked : Linked allocateBlock s handed)
    (h : AllocSpec allocateBlock s' handed r) : AllocSpec allocateBlock s handed r := by
  match r with
  | .error .outOfBounds => exact h
  | .error .fuel => trivial
  | .ok (.error _, _) => exact ⟨H.trans h.1, .inr (.inr hlinked)⟩
  | .ok (.ok _, _) =>
    obtain ⟨hb, hhanded, hlt, hbun, K, _⟩ := h
    exact ⟨H.used ▸ hb, hhanded, hlt, hbun, H.trans K, .inr hlinked⟩

/-- A block found by the scan. -/
theorem Window.found (H : s.Window) (hfresh : s.Fresh handed) (hk : s.free.i + k < s.free.size)
    (hclear : Bitmap.get? s.free.buffer (s.free.i + k) = some false) (hkm : k < m)
    (hm : s.free.i + m ≤ s.free.size) :
    AllocSpec allocateBlock s handed (.ok (.ok (s.position k), s.advanceBy m)) := by
  have hsize := H.size_le
  have hfree := H.free k hk hclear
  have hun : s.Unexamined (s.position k) := ⟨k, by omega, rfl⟩
  refine ⟨hfree, fun hmem => hfree (hfresh _ hmem hun), ?_, ?_,
    ⟨H.advanceBy hm, rfl, Nat.le_refl _⟩,
    .inl fun c hc => hc.of_advanceBy⟩
  · exact Nat.mod_lt _ (by have := H.offset_lt; omega)
  · rintro ⟨l, hl, hpos⟩
    rw [position_advanceBy] at hpos
    simp only [AllocState.advanceBy] at hl
    have := position_inj H (by omega) (by omega) hpos
    omega

/-- A scan that finds nothing leaves the free block, if there is one, beyond the window. -/
theorem HasFree.of_scan (h : s.HasFree) (hend : s.free.i + n = s.free.size)
    (hbits : ∀ k < n, Bitmap.get? s.free.buffer (s.free.i + k) = some true) :
    ∃ k < (s.advanceBy n).free.ack, (s.advanceBy n).position k ∉ s.used := by
  obtain ⟨k, hk, hfree⟩ := h
  by_cases hkn : k < n
  · rw [if_pos (by omega), hbits k hkn] at hfree
    cases hfree
  · rw [if_neg (by omega)] at hfree
    refine ⟨k - n, by simp only [AllocState.advanceBy]; omega, ?_⟩
    rw [position_advanceBy, Nat.add_sub_cancel' (by omega)]
    exact hfree

theorem Refill.hasFree (H : Refill s s') (h : ∃ k < s.free.ack, s.position k ∉ s.used) :
    s'.HasFree := by
  obtain ⟨k, hk, hfree⟩ := h
  rw [← H.position, ← H.used] at hfree
  refine ⟨k, H.ack ▸ hk, ?_⟩
  rw [H.i, Nat.zero_add]
  split
  · exact H.clear k ‹_› hfree
  · exact hfree

theorem Refill.unexamined (H : Refill s s') (h : s'.Unexamined b) : s.Unexamined b := by
  obtain ⟨k, hk, hpos⟩ := h
  exact ⟨k, H.ack ▸ hk, H.position k ▸ hpos⟩

theorem Fresh.of_unexamined (H : s.Fresh handed) (hused : s'.used = s.used)
    (hun : ∀ c, s'.Unexamined c → s.Unexamined c) : s'.Fresh handed :=
  fun b hb hbun => hused ▸ H b hb (hun b hbun)

theorem Fresh.of_linked (h : ∀ b ∈ handed, b ∈ s.used) : s.Fresh handed :=
  fun b hb _ => h b hb

theorem Fresh.of_ack (h : s.free.ack = 0) : s.Fresh handed :=
  fun _ _ ⟨_, hk, _⟩ => absurd hk (by omega)

/-- The window after `allocate_block`, whatever it returned. -/
theorem Enlarges.window {callback : AllocState → Int × AllocState} (H : Enlarges callback)
    (hw : s.Window) (hend : s.free.i = s.free.size) (hack : s.free.ack = 0) :
    (callback s).2.Window := by
  have hfree := H.free hend hack
  have hused := H.used hend hack
  have hle := H.le hend hack
  have hcov := H.covered hend hack hw.covered
  have hla := H.lookaheadSize hend hack
  exact
    { offset_lt := by rw [hfree]; exact hw.offset_lt.trans_le hle
      i_le := by rw [hfree]; exact hw.i_le
      size_le := by rw [hfree]; exact hw.size_le
      size_le_count := by rw [hfree]; exact hw.size_le_count.trans hle
      ack_le := by rw [hfree]; exact hw.ack_le.trans hle
      words := by rw [hfree, hla]; exact hw.words
      covered := by rw [hla]; exact hcov
      nowrap := by rw [hla]; exact hw.nowrap
      used_lt := fun b hb => (hw.used_lt b (hused ▸ hb)).trans_le hle
      free := fun k hk => by
        rw [hfree] at hk
        omega }

theorem Window.allocAck (H : s.Window) : s.allocAck.Window :=
  { H with
    size_le := by
      have hsize := H.size_le
      have hack := H.ack_le
      simp only [AllocState.allocAck]
      omega
    ack_le := Nat.le_refl _ }

theorem refuses_none (s : AllocState) : s.Refuses none :=
  fun _ hcb => absurd hcb (Option.not_mem_none _)

theorem Refuses.congr (H : s.Refuses allocateBlock) (hused : s'.used = s.used)
    (hcount : s'.blockCount = s.blockCount) : s'.Refuses allocateBlock :=
  fun callback hcb t hend hack hused' hcount' =>
    H callback hcb t hend hack (hused'.trans hused) (hcount'.trans hcount)

/-- **One call.** -/
theorem alloc_spec (hcb : ∀ callback ∈ allocateBlock, Enlarges callback) (fuel : Nat)
    (hw : s.Window) (hfresh : s.Fresh handed)
    (hok : s.Refuses allocateBlock ∨ s.CallOk allocateBlock handed) :
    AllocSpec allocateBlock s handed (alloc allocateBlock fuel s) := by
  induction fuel generalizing s with
  | zero => trivial
  | succ fuel ih =>
    have hn : s.free.i + (s.free.size - s.free.i) = s.free.size :=
      Nat.add_sub_cancel' hw.i_le
    rw [alloc]
    rcases hw.allocScan hn with ⟨hscan, hbits⟩ | ⟨k, m, hkm, hmn, hclear, hscan, _⟩
    · rw [hscan]
      generalize hn' : s.free.size - s.free.i = n at hn hbits
      have hcalled : Called s (s.advanceBy n) :=
        ⟨hw.advanceBy (n := n) (by omega), rfl, Nat.le_refl _⟩
      have hend : (s.advanceBy n).free.i = (s.advanceBy n).free.size := hn
      have hun : ∀ c, (s.advanceBy n).Unexamined c → s.Unexamined c := fun _ hc => hc.of_advanceBy
      by_cases hack : (s.advanceBy n).free.ack = 0
      · simp only [hack, ↓reduceIte]
        cases allocateBlock with
        | none => exact ⟨hcalled, .inl hack⟩
        | some callback =>
          have hc := hcb callback rfl
          have hused := hc.used hend hack
          have hgrown : Called s (callback (s.advanceBy n)).2 :=
            ⟨hc.window hcalled.window hend hack, hused, hc.le hend hack⟩
          dsimp only
          split
          · refine ⟨hgrown, .inl ?_⟩
            rw [hc.free hend hack]
            exact hack
          · rename_i hgrows
            have hrefuses : ¬ s.Refuses (some callback) := fun h =>
              hgrows (h callback rfl (s.advanceBy n) hend hack rfl rfl)
            have hlinked : ∀ b ∈ handed, b ∈ s.used := by
              refine (hok.resolve_left hrefuses).resolve_left fun ⟨hfree, _⟩ => ?_
              obtain ⟨k, hk, _⟩ := (hfree.resolve_right hrefuses).of_scan hn hbits
              omega
            have hlinked₂ : ∀ b ∈ handed, b ∈ (callback (s.advanceBy n)).2.used :=
              fun b hb => hused ▸ hlinked b hb
            exact (ih hgrown.window.allocAck (.of_linked hlinked₂) (.inr (.inr hlinked₂))).of_linked
              ⟨hgrown.window.allocAck, hgrown.used, hgrown.blockCount⟩
              ⟨Option.some_ne_none _, hlinked⟩
      · simp only [hack, ↓reduceIte]
        rcases hcalled.window.allocRefill hend with
          ⟨s', hrefill, H⟩ | ⟨err, s', hrefill, herr, hfault, hdrop, hused, hcount⟩
        · rw [hrefill]
          simp only [ne_eq, not_true_eq_false, ↓reduceIte]
          have hun' : ∀ c, s'.Unexamined c → s.Unexamined c := fun c hc => hun c (H.unexamined hc)
          have hrefuses : s.Refuses allocateBlock → s'.Refuses allocateBlock := fun h =>
            h.congr H.used H.blockCount
          refine (ih H.window (hfresh.of_unexamined H.used hun') (hok.imp hrefuses ?_)).of_scan
            ⟨H.window, H.used, Nat.le_of_eq H.blockCount.symm⟩ hun' H.faults
          rintro (⟨hfree, hnone⟩ | hlinked)
          · exact .inl ⟨hfree.imp (fun h => H.hasFree (h.of_scan hn hbits)) hrefuses,
              fun f hf => hnone f (H.faults f hf)⟩
          · exact .inr fun b hb => H.used ▸ hlinked b hb
        · rw [hrefill]
          simp only [ne_eq, herr, not_false_eq_true, ↓reduceIte]
          exact ⟨⟨hdrop, hused, Nat.le_of_eq hcount.symm⟩, .inr (.inl hfault)⟩
    · rw [hscan]
      exact hw.found hfresh (by omega) hclear hkm (by omega)

/-- A call keeps what it is given: without faults it can only run out of blocks, and a device that
is enlarged, or a window that is dropped, needs everything linked. -/
theorem AllocSpec.fresh_error (h : AllocSpec allocateBlock s handed (.ok (.error err, s')))
    (hok : s.CallOk allocateBlock handed) : s'.Fresh handed := by
  obtain ⟨H, hack | ⟨f, hf, hne⟩ | hlinked⟩ := h
  · exact .of_ack hack
  · rcases hok with ⟨_, hnone⟩ | hlinked
    · exact absurd (hnone f hf) hne
    · exact .of_linked fun b hb => H.used ▸ hlinked b hb
  · exact .of_linked fun b hb => H.used ▸ hlinked.2 b hb

theorem AllocSpec.fresh_ok (h : AllocSpec allocateBlock s handed (.ok (.ok b, s')))
    (hfresh : s.Fresh handed) : s'.Fresh (b :: handed) := by
  obtain ⟨_, _, _, hbun, H, hscan⟩ := h
  intro c hc hcun
  rcases List.mem_cons.mp hc with rfl | hc
  · exact absurd hcun hbun
  · rw [H.used]
    exact hscan.elim (fun hscan => hfresh c hc (hscan c hcun)) fun hlinked => hlinked.2 c hc

end AllocState

end LittleFs
