import Mathlib.Data.List.Basic

/-! Lists as the content of files and buffers: beyond its end a list reads as the fill element `z`,
and a write past the end fills the gap with `z`. Each operation is described by its length and by
what it holds at every offset. -/

namespace ZeroFill

variable {α : Type*} {z : α} {xs ys : List α} {off n i : Nat}

/-- `n` elements from `off` on, fewer at the end. -/
def slice (xs : List α) (off n : Nat) : List α := (xs.drop off).take n

/-- `ys` written over `xs` from `off` on. -/
def writeAt (z : α) (xs : List α) (off : Nat) (ys : List α) : List α :=
  xs.take off ++ List.replicate (off - xs.length) z ++ ys ++ xs.drop (off + ys.length)

/-- `xs` cut or filled up to length `n`. -/
def resize (z : α) (xs : List α) (n : Nat) : List α := xs.take n ++ List.replicate (n - xs.length) z

theorem getD_eq_of_length_le (h : xs.length ≤ i) : xs.getD i z = z := by
  simp [List.getD, List.getElem?_eq_none h]

@[simp] theorem length_slice : (slice xs off n).length = min n (xs.length - off) := by
  simp [slice]

theorem getD_slice : (slice xs off n).getD i z = if i < n then xs.getD (off + i) z else z := by
  simp only [slice, List.getD, List.getElem?_take]
  split
  · rw [List.getElem?_drop]
  · rfl

theorem slice_append_slice {m : Nat} :
    slice xs off m ++ slice xs (off + m) n = slice xs off (m + n) := by
  rw [slice, slice, slice, List.take_add, List.drop_drop]

theorem slice_eq_drop (h : xs.length ≤ off + n) : slice xs off n = xs.drop off := by
  rw [slice, List.take_of_length_le]
  rw [List.length_drop]
  omega

theorem slice_append_drop : slice xs off n ++ xs.drop (off + n) = xs.drop off := by
  rw [slice, ← List.drop_drop, List.take_append_drop]

theorem getD_append : (xs ++ ys).getD i z =
    if i < xs.length then xs.getD i z else ys.getD (i - xs.length) z := by
  simp only [List.getD, List.getElem?_append]
  split <;> rfl

@[simp] theorem length_writeAt :
    (writeAt z xs off ys).length = max xs.length (off + ys.length) := by
  simp only [writeAt, List.length_append, List.length_take, List.length_replicate, List.length_drop]
  omega

theorem getD_writeAt : (writeAt z xs off ys).getD i z =
    if off ≤ i ∧ i < off + ys.length then ys.getD (i - off) z else xs.getD i z := by
  have hfront : (xs.take off ++ List.replicate (off - xs.length) z).length = off := by
    simp only [List.length_append, List.length_take, List.length_replicate]
    omega
  have hbefore : i < off →
      (xs.take off ++ List.replicate (off - xs.length) z)[i]?.getD z = xs[i]?.getD z := by
    intro hi
    rw [List.getElem?_append]
    simp only [List.length_take]
    split
    · rw [List.getElem?_take_of_lt hi]
    · rw [List.getElem?_replicate, List.getElem?_eq_none (l := xs) (by omega)]
      split <;> rfl
  simp only [writeAt, List.getD, List.append_assoc]
  rw [← List.append_assoc, List.getElem?_append, hfront]
  by_cases hi : i < off
  · rw [if_pos hi, if_neg (by omega), hbefore hi]
  · rw [if_neg hi, List.getElem?_append]
    by_cases hend : i - off < ys.length
    · rw [if_pos hend, if_pos (by omega)]
    · rw [if_neg hend, if_neg (by omega), List.getElem?_drop]
      congr 2
      omega

@[simp] theorem length_resize : (resize z xs n).length = n := by
  simp only [resize, List.length_append, List.length_take, List.length_replicate]
  omega

theorem getD_resize : (resize z xs n).getD i z = if i < n then xs.getD i z else z := by
  simp only [resize, List.getD, List.getElem?_append, List.length_take]
  split
  · rw [List.getElem?_take_of_lt (by omega), if_pos (by omega)]
  · have hpad : (List.replicate (n - xs.length) z)[i - min n xs.length]?.getD z = z := by
      rw [List.getElem?_replicate]
      split <;> rfl
    rw [hpad]
    split
    · rw [List.getElem?_eq_none (by omega), Option.getD_none]
    · rfl

/-- Filling up. -/
theorem resize_of_length_le (h : xs.length ≤ n) :
    resize z xs n = xs ++ List.replicate (n - xs.length) z := by
  rw [resize, List.take_of_length_le h]

/-- Cutting. -/
theorem resize_of_le_length (h : n ≤ xs.length) : resize z xs n = xs.take n := by
  rw [resize, Nat.sub_eq_zero_of_le h, List.replicate_zero, List.append_nil]

/-- Writing at or past the end appends. -/
theorem writeAt_length : writeAt z xs xs.length ys = xs ++ ys := by
  simp [writeAt]

/-- A list is its length and what it holds at every offset. -/
theorem ext (z : α) (hlength : xs.length = ys.length)
    (hget : ∀ i < xs.length, xs.getD i z = ys.getD i z) : xs = ys := by
  refine List.ext_getElem hlength fun i hx hy => ?_
  simpa [List.getD, hx, hy] using hget i hx

end ZeroFill
