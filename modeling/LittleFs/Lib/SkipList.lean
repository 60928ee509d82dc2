import LittleFs.Lib.BitCount

/-! Lists of blocks with skip pointers: block `i` starts with pointers to the blocks `i - 2 ^ j` for
as many `j` as `i` has zeros at its end, and one more; its content follows them. Block 0 has none.

`w` is the size of a pointer and `B` the size of a block. -/

namespace SkipList

open BitCount

variable {w B i j n pos off : Nat}

def pointers (i : Nat) : Nat := if i = 0 then 0 else zeros i + 1

/-- Where the content of block `i` starts in the file. -/
def start (w B : Nat) : Nat → Nat
  | 0 => 0
  | i + 1 => start w B i + (B - w * pointers i)

/-- Byte `pos` of the file is at the offset `off` of block `i`. -/
structure Holds (w B i pos off : Nat) : Prop where
  le : start w B i ≤ pos
  lt : pos < start w B (i + 1)
  off_eq : off = pos - start w B i + w * pointers i

/-- The blocks up to `n` have room for their pointers. -/
def Room (w B n : Nat) : Prop := ∀ i ≤ n, w * pointers i ≤ B

theorem start_add_one (w B i : Nat) : start w B (i + 1) = start w B i + (B - w * pointers i) := rfl

theorem pointers_succ (i : Nat) : pointers (i + 1) = zeros (i + 1) + 1 :=
  if_neg (Nat.succ_ne_zero i)

/-- The blocks below `2 ^ k` have at most `k` pointers. -/
theorem Room.of_lt (hn : n < 2 ^ k) (h : w * k ≤ B) : Room w B n := by
  intro i hi
  refine (Nat.mul_le_mul_left w ?_).trans h
  rw [pointers]
  split
  · exact Nat.zero_le k
  · exact zeros_lt ‹_› (hi.trans_lt hn)

theorem Room.mono (H : Room w B n) (h : i ≤ n) : Room w B i := fun j hj => H j (hj.trans h)

theorem start_mono (h : i ≤ j) : start w B i ≤ start w B j := by
  induction h with
  | refl => exact Nat.le_refl _
  | step _ ih => exact ih.trans (Nat.le_add_right ..)

/-- The pointers of the blocks up to `n` number twice `n` less the ones of `n`. -/
theorem start_succ (H : Room w B n) (hB : 2 * w ≤ B) :
    start w B (n + 1) = (B - 2 * w) * (n + 1) + w * (ones n + 2) := by
  induction n with
  | zero =>
    simp only [start, pointers, ones_zero, ↓reduceIte]
    omega
  | succ n ih =>
    have hroom := H (n + 1) (Nat.le_refl _)
    have hones := ones_succ n
    rw [start, ih (H.mono (Nat.le_succ n))]
    rw [pointers_succ] at hroom ⊢
    obtain ⟨b, rfl⟩ := Nat.exists_eq_add_of_le hB
    have hsum : w * (ones (n + 1) + 2) + w * (zeros (n + 1) + 1) = w * (ones n + 2) + 2 * w := by
      rw [← Nat.mul_add, Nat.mul_comm 2 w, ← Nat.mul_add]
      congr 1
      omega
    rw [Nat.add_sub_cancel_left, Nat.mul_succ b (n + 1)]
    omega

theorem Holds.index_le (H : Holds w B i pos off) (h : pos < start w B (n + 1)) : i ≤ n := by
  refine Nat.le_of_not_lt fun hlt => ?_
  have hle : start w B (n + 1) ≤ start w B i := start_mono hlt
  have := H.le
  omega

/-- The blocks up to `n` hold all bytes before the content of the next one. -/
theorem exists_holds (h : pos < start w B (n + 1)) : ∃ i ≤ n, ∃ off, Holds w B i pos off := by
  induction n with
  | zero => exact ⟨0, Nat.le_refl 0, _, Nat.zero_le pos, h, rfl⟩
  | succ n ih =>
    by_cases hlt : pos < start w B (n + 1)
    · obtain ⟨i, hi, off, hholds⟩ := ih hlt
      exact ⟨i, Nat.le_succ_of_le hi, off, hholds⟩
    · exact ⟨n + 1, Nat.le_refl _, _, Nat.le_of_not_lt hlt, h, rfl⟩

/-- Every block holds a byte at least. -/
theorem Holds.index_le_pos (H : Holds w B n pos off) (hB : 2 * w < B) (hroom : Room w B n) :
    n ≤ pos := by
  cases n with
  | zero => exact Nat.zero_le pos
  | succ n =>
    have hstart := start_succ (hroom.mono (Nat.le_succ n)) (Nat.le_of_lt hB)
    have hle := H.le
    have hmul : n + 1 ≤ (B - 2 * w) * (n + 1) := Nat.le_mul_of_pos_left _ (by omega)
    omega

/-- A byte is in one block only. -/
theorem Holds.unique (H : Holds w B i pos off) (H' : Holds w B j pos off') :
    i = j ∧ off = off' := by
  obtain rfl : i = j := Nat.le_antisymm (H.index_le H'.lt) (H'.index_le H.lt)
  exact ⟨rfl, H.off_eq.trans H'.off_eq.symm⟩

theorem Holds.off_lt (H : Holds w B i pos off) (hroom : w * pointers i ≤ B) : off < B := by
  have hlt := H.lt
  have hle := H.le
  rw [start] at hlt
  have := H.off_eq
  omega

theorem Holds.pointers_le (H : Holds w B i pos off) : w * pointers i ≤ off := by
  have := H.off_eq
  omega

/-- The next byte of the block, as long as the block is not full. -/
theorem Holds.succ (H : Holds w B i pos off) (h : off + 1 < B) :
    Holds w B i (pos + 1) (off + 1) := by
  have hlt := H.lt
  have hle := H.le
  have hoff := H.off_eq
  refine ⟨by omega, ?_, by omega⟩
  rw [start] at hlt ⊢
  omega

/-- Behind the last byte of a block its successor starts. -/
theorem Holds.succ_start (H : Holds w B i pos off) (h : off + 1 = B) :
    pos + 1 = start w B (i + 1) := by
  have hlt := H.lt
  have hle := H.le
  have hoff := H.off_eq
  rw [start] at hlt ⊢
  omega

/-! ## The way to an earlier block -/

/-- The pointer to follow from block `current` on the way to block `target`. -/
def hop (current target : Nat) : Nat := min (Nat.log2 (current - target)) (zeros current)

/-- The pointer does not lead beyond the target. -/
theorem two_pow_hop_le (h : target < current) : 2 ^ hop current target ≤ current - target := by
  have hne : current - target ≠ 0 := by omega
  exact (Nat.pow_le_pow_right (by decide) (Nat.min_le_left ..)).trans (Nat.log2_self_le hne)

theorem hop_le_zeros (current target : Nat) : hop current target ≤ zeros current :=
  Nat.min_le_right ..

end SkipList
