import Mathlib.Data.BitVec
import Mathlib.Data.Nat.Bitwise
import Mathlib.Logic.Function.Iterate

/-! The register of a reflected cyclic redundancy check of any width. Bits enter at the low end; a
step is linear in exclusive or, so that several steps at once are a shift of the register and the
steps of its low bits alone, which is what a table holds. -/

namespace Crc

/-! ## The low bits of a number -/

/-- The low `k` bits of `n`, the least significant one first. -/
def bitsOf : (k : Nat) → Nat → List Bool
  | 0, _ => []
  | k + 1, n => n.testBit 0 :: bitsOf k (n / 2)

theorem bitsOf_add (j k n : Nat) : bitsOf (j + k) n = bitsOf j n ++ bitsOf k (n / 2 ^ j) := by
  induction j generalizing n with
  | zero => rw [Nat.zero_add, Nat.pow_zero, Nat.div_one]; rfl
  | succ j ih =>
    rw [Nat.succ_add, bitsOf, bitsOf, ih, List.cons_append, Nat.div_div_eq_div_mul, Nat.pow_succ']

/-- Only the low bits matter. -/
theorem bitsOf_mod (k n : Nat) : bitsOf k (n % 2 ^ k) = bitsOf k n := by
  induction k generalizing n with
  | zero => rfl
  | succ k ih =>
    have hlow : (n % 2 ^ (k + 1)).testBit 0 = n.testBit 0 := by
      rw [Nat.testBit_mod_two_pow, decide_eq_true (Nat.succ_pos k), Bool.true_and]
    have hhigh : n % 2 ^ (k + 1) / 2 = n / 2 % 2 ^ k := by
      rw [Nat.pow_succ', Nat.mod_mul_right_div_self]
    rw [bitsOf, bitsOf, hlow, hhigh, ih]

/-! ## Steps of the register -/

section
variable {w : Nat} (poly : BitVec w)

/-- The register moves down by one, and a bit that leaves it brings in the polynomial. -/
def shift (r : BitVec w) : BitVec w :=
  if r.getLsbD 0 then (r >>> 1) ^^^ poly else r >>> 1

/-- One bit enters. -/
def feedBit (r : BitVec w) (bit : Bool) : BitVec w :=
  shift poly (r ^^^ BitVec.ofNat w bit.toNat)

/-- The check, bit by bit. -/
def feed (r : BitVec w) (bits : List Bool) : BitVec w := bits.foldl (feedBit poly) r

theorem feed_append (r : BitVec w) (bits more : List Bool) :
    feed poly r (bits ++ more) = feed poly (feed poly r bits) more := List.foldl_append ..

theorem shift_xor (a b : BitVec w) : shift poly (a ^^^ b) = shift poly a ^^^ shift poly b := by
  have hcancel : a >>> 1 ^^^ poly ^^^ (b >>> 1 ^^^ poly) = a >>> 1 ^^^ b >>> 1 := by
    rw [BitVec.xor_comm (b >>> 1) poly, BitVec.xor_assoc, ← BitVec.xor_assoc poly,
      BitVec.xor_self, BitVec.zero_xor]
  simp only [shift, BitVec.getLsbD_xor, BitVec.ushiftRight_xor_distrib]
  cases a.getLsbD 0 <;> cases b.getLsbD 0 <;> simp
  · rw [BitVec.xor_assoc]
  · rw [BitVec.xor_assoc, BitVec.xor_assoc, BitVec.xor_comm (b >>> 1) poly]
  · exact hcancel.symm

theorem shift_iterate_xor (k : Nat) (a b : BitVec w) :
    (shift poly)^[k] (a ^^^ b) = (shift poly)^[k] a ^^^ (shift poly)^[k] b := by
  induction k with
  | zero => rfl
  | succ k ih => simp only [Function.iterate_succ_apply', ih, shift_xor]

/-- A register whose low bits are clear only moves down. -/
theorem shift_iterate_clear {k : Nat} {r : BitVec w} (H : ∀ i < k, r.getLsbD i = false) :
    (shift poly)^[k] r = r >>> k := by
  induction k with
  | zero => exact (BitVec.ushiftRight_zero r).symm
  | succ k ih =>
    have hlow : (r >>> k).getLsbD 0 = false := by
      rw [BitVec.getLsbD_ushiftRight]
      exact H k (Nat.lt_succ_self k)
    rw [Function.iterate_succ_apply', ih fun i hi => H i (Nat.lt_succ_of_lt hi), shift, hlow,
      if_neg Bool.false_ne_true, ← BitVec.shiftRight_add]

/-- The low `k` bits of a register. -/
def low (k : Nat) (r : BitVec w) : BitVec w := BitVec.ofNat w (r.toNat % 2 ^ k)

theorem getLsbD_low (k i : Nat) (r : BitVec w) :
    (low k r).getLsbD i = (decide (i < k) && r.getLsbD i) := by
  rw [low, BitVec.getLsbD_ofNat, Nat.testBit_mod_two_pow, BitVec.testBit_toNat]
  by_cases hi : i < w
  · rw [decide_eq_true hi, Bool.true_and]
  · rw [BitVec.getLsbD_of_ge r i (Nat.not_lt.1 hi), Bool.and_false, Bool.and_false]

/-- Steps of a register at once: it moves down, and the steps of its low bits come in. -/
theorem shift_iterate_eq (k : Nat) (r : BitVec w) :
    (shift poly)^[k] r = r >>> k ^^^ (shift poly)^[k] (low k r) := by
  have hclear : ∀ i < k, (r ^^^ low k r).getLsbD i = false := fun i hi => by
    rw [BitVec.getLsbD_xor, getLsbD_low, decide_eq_true hi, Bool.true_and, Bool.xor_self]
  have hsplit : r = (r ^^^ low k r) ^^^ low k r := by
    rw [BitVec.xor_assoc, BitVec.xor_self, BitVec.xor_zero]
  have hhigh : (r ^^^ low k r) >>> k = r >>> k := by
    apply BitVec.eq_of_getLsbD_eq
    intro i _
    have hi : ¬ k + i < k := by omega
    rw [BitVec.getLsbD_ushiftRight, BitVec.getLsbD_ushiftRight, BitVec.getLsbD_xor, getLsbD_low,
      decide_eq_false hi, Bool.false_and, Bool.xor_false]
  calc (shift poly)^[k] r = (shift poly)^[k] ((r ^^^ low k r) ^^^ low k r) := by rw [← hsplit]
    _ = (r ^^^ low k r) >>> k ^^^ (shift poly)^[k] (low k r) := by
      rw [shift_iterate_xor, shift_iterate_clear poly hclear]
    _ = r >>> k ^^^ (shift poly)^[k] (low k r) := by rw [hhigh]

/-- A number with a zero low bit only moves down. -/
theorem shift_ofNat_two_mul {n : Nat} (hn : 2 * n < 2 ^ w) :
    shift poly (BitVec.ofNat w (2 * n)) = BitVec.ofNat w n := by
  have hlow : (BitVec.ofNat w (2 * n)).getLsbD 0 = false := by
    rw [BitVec.getLsbD_ofNat, Nat.testBit_zero, Nat.mul_mod_right]
    exact Bool.and_false _
  rw [shift, hlow, if_neg Bool.false_ne_true]
  apply BitVec.eq_of_toNat_eq
  have hhalf : n < 2 ^ w := by omega
  rw [BitVec.toNat_ushiftRight, BitVec.toNat_ofNat, BitVec.toNat_ofNat, Nat.mod_eq_of_lt hn,
    Nat.mod_eq_of_lt hhalf, Nat.shiftRight_one, Nat.mul_div_cancel_left n Nat.two_pos]

/-- A number is its low bit and twice the rest. -/
theorem ofNat_low_xor (n : Nat) :
    BitVec.ofNat w (n.testBit 0).toNat ^^^ BitVec.ofNat w (2 * (n / 2)) = BitVec.ofNat w n := by
  have hbit : (n.testBit 0).toNat ^^^ 2 * (n / 2) = n := by
    apply Nat.eq_of_testBit_eq
    intro i
    cases i with
    | zero => cases hn : n.testBit 0 <;> simp [Nat.testBit_zero]
    | succ i =>
      have hzero : (n.testBit 0).toNat.testBit (i + 1) = false := by
        cases n.testBit 0 <;> simp [Nat.testBit_succ]
      rw [Nat.testBit_xor, hzero, Bool.false_xor, Nat.testBit_succ,
        Nat.mul_div_cancel_left _ Nat.two_pos, Nat.testBit_succ]
  rw [← BitVec.ofNat_xor, hbit]

/-- Bits one by one are the exclusive or with all of them at once, before the steps. -/
theorem feed_bitsOf {k n : Nat} (hn : n < 2 ^ k) (hk : k ≤ w) (r : BitVec w) :
    feed poly r (bitsOf k n) = (shift poly)^[k] (r ^^^ BitVec.ofNat w n) := by
  induction k generalizing n r with
  | zero =>
    obtain rfl : n = 0 := by omega
    exact (BitVec.xor_zero (x := r)).symm
  | succ k ih =>
    have hhalf : n / 2 < 2 ^ k := by rw [Nat.pow_succ] at hn; omega
    have hle : 2 ^ (k + 1) ≤ 2 ^ w := Nat.pow_le_pow_right Nat.two_pos hk
    have htwo : 2 * (n / 2) < 2 ^ w := by omega
    calc feed poly r (bitsOf (k + 1) n)
        = feed poly (feedBit poly r (n.testBit 0)) (bitsOf k (n / 2)) := rfl
      _ = (shift poly)^[k] (shift poly (r ^^^ BitVec.ofNat w (n.testBit 0).toNat) ^^^
            shift poly (BitVec.ofNat w (2 * (n / 2)))) := by
          rw [ih hhalf (Nat.le_of_succ_le hk), shift_ofNat_two_mul poly htwo, feedBit]
      _ = (shift poly)^[k + 1] (r ^^^ BitVec.ofNat w n) := by
          rw [← shift_xor, BitVec.xor_assoc, ofNat_low_xor, Function.iterate_succ_apply]

/-- A register that takes in its own bits is left with nothing. -/
theorem feed_self (r : BitVec w) : feed poly r (bitsOf w r.toNat) = 0#w := by
  have hzero : ∀ i < w, (0#w).getLsbD i = false := fun i _ => BitVec.getLsbD_zero
  rw [feed_bitsOf poly r.isLt (Nat.le_refl w), BitVec.ofNat_toNat, BitVec.setWidth_eq,
    BitVec.xor_self, shift_iterate_clear poly hzero, BitVec.zero_ushiftRight]

end

end Crc
