import Mathlib.Data.Nat.Bitwise
import Mathlib.Data.Nat.Size

/-! Bit fields of natural numbers: masks made of one block of ones, unions of disjoint fields,
and what is left of a word after one of its fields is cleared. -/

namespace BitField

theorem and_mask (x lo len : Nat) :
    x &&& ((2 ^ len - 1) * 2 ^ lo) = x / 2 ^ lo % 2 ^ len * 2 ^ lo := by
  rw [← Nat.and_two_pow_sub_one_eq_mod, ← Nat.shiftRight_eq_div_pow, ← Nat.shiftLeft_eq,
    ← Nat.shiftLeft_eq]
  apply Nat.eq_of_testBit_eq
  intro i
  simp only [Nat.testBit_and, Nat.testBit_shiftLeft, Nat.testBit_shiftRight]
  by_cases h : lo ≤ i <;> simp [h]

theorem or_of_lt {x y lo : Nat} (h : y < 2 ^ lo) : x * 2 ^ lo ||| y = x * 2 ^ lo + y := by
  rw [← Nat.shiftLeft_eq, Nat.shiftLeft_add_eq_or_of_lt h]

/-- A mask whose ones start at bit `lo`. -/
theorem mul_and (m x lo : Nat) : (m * 2 ^ lo) &&& x = (m &&& (x / 2 ^ lo)) * 2 ^ lo := by
  rw [← Nat.shiftRight_eq_div_pow, ← Nat.shiftLeft_eq, ← Nat.shiftLeft_eq]
  apply Nat.eq_of_testBit_eq
  intro i
  simp only [Nat.testBit_and, Nat.testBit_shiftLeft, Nat.testBit_shiftRight]
  by_cases h : lo ≤ i <;> simp [h]

/-- Clearing the bits of a mask subtracts the masked part. -/
theorem toNat_and_not (x m : BitVec w) :
    (x &&& ~~~m).toNat = x.toNat - (x.toNat &&& m.toNat) := by
  have hdisj : (x &&& ~~~m) &&& (x &&& m) = 0#w := by
    ext i hi
    simp only [BitVec.getElem_and, BitVec.getElem_not, BitVec.getElem_zero]
    cases x[i] <;> cases m[i] <;> rfl
  have hunion : (x &&& ~~~m) ||| (x &&& m) = x := by
    ext i hi
    simp only [BitVec.getElem_or, BitVec.getElem_and, BitVec.getElem_not]
    cases x[i] <;> cases m[i] <;> rfl
  have hsum := BitVec.toNat_add_of_and_eq_zero hdisj
  rw [BitVec.add_eq_or_of_and_eq_zero _ _ hdisj, hunion, BitVec.toNat_and x m] at hsum
  omega

/-- A field put into the hole between two others. -/
theorem or_mid {high mid low : Nat} (hlow : low < 2 ^ lo) (hmid : mid < 2 ^ len) :
    (high * 2 ^ (len + lo) + low) ||| mid * 2 ^ lo =
      high * 2 ^ (len + lo) + mid * 2 ^ lo + low := by
  have hrest : mid * 2 ^ lo + low < 2 ^ (len + lo) := by
    rw [Nat.pow_add]
    calc
      mid * 2 ^ lo + low < (mid + 1) * 2 ^ lo := by rw [Nat.succ_mul]; omega
      _ ≤ 2 ^ len * 2 ^ lo := Nat.mul_le_mul_right _ hmid
  have hlow' : low < 2 ^ (len + lo) := by omega
  rw [← or_of_lt hlow', Nat.or_assoc, Nat.or_comm low, or_of_lt hlow, or_of_lt hrest,
    Nat.add_assoc]

end BitField
