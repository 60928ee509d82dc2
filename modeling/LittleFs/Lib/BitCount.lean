import Mathlib.Data.Nat.Bitwise
import Mathlib.NumberTheory.Padics.PadicVal.Basic
import Mathlib.Tactic.Ring

/-! The number of ones and the number of trailing zeros of a binary number, and the parallel count
of the ones of a word: the counts of fields of 2, 4 and 8 bits are kept in the fields themselves,
and one multiplication adds up the bytes. -/

namespace BitCount

/-- The ones in the binary notation of `n`. -/
def ones (n : Nat) : Nat := (Nat.digits 2 n).sum

/-- The zeros at the end of the binary notation of `n`. -/
def zeros (n : Nat) : Nat := padicValNat 2 n

theorem ones_zero : ones 0 = 0 := by simp [ones]

theorem ones_two_mul_add (n : Nat) (h : b < 2) : ones (2 * n + b) = ones n + b := by
  rcases Nat.eq_zero_or_pos (2 * n + b) with hzero | hpos
  · obtain ⟨rfl, rfl⟩ : n = 0 ∧ b = 0 := by omega
    rfl
  · rw [ones, Nat.digits_def' (by decide) hpos, List.sum_cons, ones]
    have hmod : (2 * n + b) % 2 = b := by omega
    have hdiv : (2 * n + b) / 2 = n := by omega
    rw [hmod, hdiv, Nat.add_comm]

/-- The ones of a number and of the bits behind it. -/
theorem ones_two_pow_mul_add (n : Nat) (h : b < 2 ^ k) :
    ones (2 ^ k * n + b) = ones n + ones b := by
  induction k generalizing b with
  | zero =>
    obtain rfl : b = 0 := by simpa using h
    simp [ones_zero]
  | succ k ih =>
    have hpow : 2 ^ (k + 1) = 2 * 2 ^ k := Nat.pow_succ'
    have hsplit : 2 ^ (k + 1) * n + b = 2 * (2 ^ k * n + b / 2) + b % 2 := by
      rw [hpow, Nat.mul_assoc]
      omega
    have hbit : b = 2 * (b / 2) + b % 2 := by omega
    rw [hsplit, ones_two_mul_add _ (Nat.mod_lt _ (by decide)), ih (by omega), Nat.add_assoc,
      ← ones_two_mul_add (b / 2) (Nat.mod_lt b (by decide)), ← hbit]

theorem ones_le (n : Nat) : ones n ≤ n := Nat.digit_sum_le 2 n

theorem ones_le_of_lt (h : n < 2 ^ k) : ones n ≤ k := by
  induction k generalizing n with
  | zero =>
    obtain rfl : n = 0 := by simpa using h
    exact Nat.le_of_eq ones_zero
  | succ k ih =>
    have hpow : 2 ^ (k + 1) = 2 * 2 ^ k := Nat.pow_succ'
    have hbit := Nat.mod_lt n (show 0 < 2 by decide)
    have hsplit : n = 2 * (n / 2) + n % 2 := (Nat.div_add_mod n 2).symm
    have hrest := ih (show n / 2 < 2 ^ k by omega)
    rw [hsplit, ones_two_mul_add _ hbit]
    omega

theorem two_pow_dvd_iff (h : n ≠ 0) : 2 ^ k ∣ n ↔ k ≤ zeros n :=
  padicValNat_dvd_iff_le h

/-- Adding one turns the ones at the end of a number into zeros. -/
theorem ones_succ (n : Nat) : ones (n + 1) + zeros (n + 1) = ones n + 1 := by
  have hfact := sub_one_mul_padicValNat_factorial (p := 2) n
  have hfact' := sub_one_mul_padicValNat_factorial (p := 2) (n + 1)
  rw [Nat.add_one_sub_one, Nat.one_mul] at hfact hfact'
  rw [Nat.factorial_succ, padicValNat.mul n.succ_ne_zero n.factorial_ne_zero,
    Nat.succ_eq_add_one] at hfact'
  have hle : (Nat.digits 2 n).sum ≤ n := ones_le n
  have hle' : (Nat.digits 2 (n + 1)).sum ≤ n + 1 := ones_le (n + 1)
  simp only [ones, zeros]
  omega

theorem zeros_two_pow (k : Nat) : zeros (2 ^ k) = k := padicValNat.prime_pow k

/-- A number of ones only. -/
theorem ones_two_pow_sub_one (k : Nat) : ones (2 ^ k - 1) = k := by
  have hpos := Nat.two_pow_pos k
  have hsucc := ones_succ (2 ^ k - 1)
  have hone : ones (2 ^ k) = 1 := by
    have h := ones_two_pow_mul_add 1 hpos
    rw [Nat.mul_one, Nat.add_zero, ones_zero, Nat.add_zero] at h
    rw [h]
    rfl
  rw [Nat.sub_add_cancel hpos, hone, zeros_two_pow] at hsucc
  omega

theorem zeros_lt (h : n ≠ 0) (hlt : n < 2 ^ k) : zeros n < k := by
  have hdvd := (two_pow_dvd_iff h).mpr (Nat.le_refl (zeros n))
  have hle := Nat.le_of_dvd (Nat.pos_of_ne_zero h) hdvd
  exact (Nat.pow_lt_pow_iff_right (by decide)).mp (hle.trans_lt hlt)

theorem zeros_of_even (hpos : n ≠ 0) (h : n % 2 = 0) : 1 ≤ zeros n :=
  (two_pow_dvd_iff hpos).mp (by omega)

/-- The number that the `k`th one of the zeros at the end reaches back to has just `k` of them. -/
theorem le_zeros_sub (h : n ≠ 0) (hk : k < zeros n) : k ≤ zeros (n - 2 ^ k) ∧ 2 ^ k < n := by
  have hdvd : 2 ^ (k + 1) ∣ n := (two_pow_dvd_iff h).mpr hk
  have hlt : 2 ^ k < n :=
    (Nat.pow_lt_pow_right (by decide) (Nat.lt_succ_self k)).trans_le
      (Nat.le_of_dvd (Nat.pos_of_ne_zero h) hdvd)
  have hdvd' : 2 ^ k ∣ n := (Nat.pow_dvd_pow 2 (Nat.le_succ k)).trans hdvd
  exact ⟨(two_pow_dvd_iff (by omega)).mp (Nat.dvd_sub hdvd' (Nat.dvd_refl _)), hlt⟩

/-- The first one from the end. -/
theorem eq_zeros (h : n.testBit k = true) (hbelow : ∀ j < k, n.testBit j = false) :
    k = zeros n := by
  have hne : n ≠ 0 := by
    rintro rfl
    simp at h
  have hdvd : 2 ^ k ∣ n := by
    refine Nat.dvd_of_mod_eq_zero (Nat.eq_of_testBit_eq fun j => ?_)
    rw [Nat.testBit_mod_two_pow, Nat.zero_testBit]
    by_cases hj : j < k
    · simp [hj, hbelow j hj]
    · simp [hj]
  have hndvd : ¬ 2 ^ (k + 1) ∣ n := by
    rw [Nat.testBit_eq_decide_div_mod_eq, decide_eq_true_eq] at h
    obtain ⟨m, rfl⟩ := hdvd
    rw [Nat.mul_div_cancel_left _ (Nat.two_pow_pos k)] at h
    rw [Nat.pow_succ, Nat.mul_dvd_mul_iff_left (Nat.two_pow_pos k)]
    omega
  rw [two_pow_dvd_iff hne] at hdvd hndvd
  omega

/-! ## Words of bytes -/

/-- The number with these bytes, the lowest one first. -/
def ofBytes : List Nat → Nat
  | [] => 0
  | b :: bytes => 2 ^ 8 * ofBytes bytes + b

/-- The word of `n` bytes `b`. -/
def repeated (b n : Nat) : Nat := ofBytes (List.replicate n b)

/-- The bytes of a word of `n` bytes. -/
def toBytes : (n : Nat) → Nat → List Nat
  | 0, _ => []
  | n + 1, word => word % 2 ^ 8 :: toBytes n (word / 2 ^ 8)

theorem ofBytes_toBytes (h : word < 2 ^ (8 * n)) : ofBytes (toBytes n word) = word := by
  induction n generalizing word with
  | zero =>
    obtain rfl : word = 0 := by simpa using h
    rfl
  | succ n ih =>
    have hpow : 2 ^ (8 * (n + 1)) = 2 ^ (8 * n) * 2 ^ 8 := by rw [← Nat.pow_add, Nat.mul_succ]
    rw [toBytes, ofBytes, ih (Nat.div_lt_of_lt_mul (by rwa [Nat.mul_comm, ← hpow])),
      Nat.div_add_mod]

theorem length_toBytes (n word : Nat) : (toBytes n word).length = n := by
  induction n generalizing word with
  | zero => rfl
  | succ n ih => rw [toBytes, List.length_cons, ih]

theorem lt_of_mem_toBytes (h : b ∈ toBytes n word) : b < 2 ^ 8 := by
  induction n generalizing word with
  | zero => cases h
  | succ n ih =>
    rcases List.mem_cons.mp h with rfl | h
    · exact Nat.mod_lt _ (by decide)
    · exact ih h

/-- A shifted word under a mask that leaves out the bits shifted in from the byte above. -/
theorem shiftRight_and (high mask : Nat) (hlow : low < 2 ^ 8) (hk : k ≤ 8) (hm : m < 2 ^ (8 - k)) :
    ((2 ^ 8 * high + low) >>> k) &&& (2 ^ 8 * mask + m) =
      2 ^ 8 * ((high >>> k) &&& mask) + ((low >>> k) &&& m) := by
  have hm' : m < 2 ^ 8 := hm.trans_le (Nat.pow_le_pow_right (by decide) (Nat.sub_le 8 k))
  have hlow' : (low >>> k) &&& m < 2 ^ 8 := Nat.and_lt_two_pow _ hm'
  refine Nat.eq_of_testBit_eq fun j => ?_
  rw [Nat.testBit_and, Nat.testBit_shiftRight, Nat.testBit_two_pow_mul_add _ hm',
    Nat.testBit_two_pow_mul_add _ hlow', Nat.testBit_two_pow_mul_add _ hlow]
  by_cases hj : j < 8
  · simp only [hj, ↓reduceIte, Nat.testBit_and, Nat.testBit_shiftRight]
    by_cases hkj : k + j < 8
    · simp only [hkj, ↓reduceIte]
    · have hbit : m.testBit j = false :=
        Nat.testBit_lt_two_pow (hm.trans_le (Nat.pow_le_pow_right (by decide) (by omega)))
      simp only [hbit, Bool.and_false]
  · have hkj : ¬ k + j < 8 := by omega
    have hsub : k + j - 8 = k + (j - 8) := by omega
    simp only [hj, hkj, ↓reduceIte, Nat.testBit_and, Nat.testBit_shiftRight, hsub]

/-! ## The parallel count -/

/-- The counts of the fields of 2 bits, for a mask of one bit a field. -/
def pairCounts (mask word : Nat) : Nat := word - ((word >>> 1) &&& mask)

/-- The counts of the fields of 4 bits from those of 2. -/
def nibbleCounts (mask word : Nat) : Nat := (word &&& mask) + ((word >>> 2) &&& mask)

/-- The counts of the bytes from those of 4 bits. -/
def byteCounts (mask word : Nat) : Nat := (word + (word >>> 4)) &&& mask

theorem pairCounts_cons (high mask : Nat) (hlow : low < 2 ^ 8) :
    pairCounts (2 ^ 8 * mask + 0x55) (2 ^ 8 * high + low) =
      2 ^ 8 * pairCounts mask high + pairCounts 0x55 low := by
  rw [pairCounts, shiftRight_and high mask hlow (by decide) (by decide), pairCounts, pairCounts]
  have hhigh : (high >>> 1) &&& mask ≤ high := Nat.and_le_left.trans (Nat.shiftRight_le _ _)
  have hlow' : (low >>> 1) &&& 0x55 ≤ low := Nat.and_le_left.trans (Nat.shiftRight_le _ _)
  omega

theorem nibbleCounts_cons (high mask : Nat) (hlow : low < 2 ^ 8) :
    nibbleCounts (2 ^ 8 * mask + 0x33) (2 ^ 8 * high + low) =
      2 ^ 8 * nibbleCounts mask high + nibbleCounts 0x33 low := by
  have hplain := shiftRight_and (k := 0) high mask hlow (by decide) (m := 0x33) (by decide)
  simp only [Nat.shiftRight_zero] at hplain
  rw [nibbleCounts, hplain, shiftRight_and high mask hlow (by decide) (by decide), nibbleCounts,
    nibbleCounts]
  omega

/-- The counts of 4 bits in a byte. -/
def Nibbles (b : Nat) : Prop := b % 16 ≤ 4 ∧ b / 16 ≤ 4

theorem byteCounts_cons (high mask : Nat) (hlow : Nibbles low) (hhigh : high % 16 ≤ 4) :
    byteCounts (2 ^ 8 * mask + 0x0f) (2 ^ 8 * high + low) =
      2 ^ 8 * byteCounts mask high + byteCounts 0x0f low := by
  obtain ⟨hmod, hdiv⟩ := hlow
  have hsum : 2 ^ 8 * high + low + ((2 ^ 8 * high + low) >>> 4) =
      2 ^ 8 * (high + (high >>> 4)) + (16 * (high % 16) + (low + (low >>> 4))) := by
    simp only [Nat.shiftRight_eq_div_pow]
    omega
  have hmask : (16 * (high % 16) + (low + (low >>> 4))) &&& 0x0f =
    (low + (low >>> 4)) &&& 0x0f := by
    have hones : (0x0f : Nat) = 2 ^ 4 - 1 := rfl
    rw [hones, Nat.and_two_pow_sub_one_eq_mod, Nat.and_two_pow_sub_one_eq_mod]
    omega
  have hlt : 16 * (high % 16) + (low + (low >>> 4)) < 2 ^ 8 := by
    simp only [Nat.shiftRight_eq_div_pow]
    omega
  have hplain := shiftRight_and (k := 0) (high + (high >>> 4)) mask hlt (by decide) (m := 0x0f)
    (by decide)
  simp only [Nat.shiftRight_zero] at hplain
  rw [byteCounts, hsum, hplain, hmask, byteCounts, byteCounts]

/-- On one byte the stages count its ones. -/
theorem byte_stages : ∀ b < 2 ^ 8,
    pairCounts 0x55 b < 2 ^ 8 ∧ Nibbles (nibbleCounts 0x33 (pairCounts 0x55 b)) ∧
      byteCounts 0x0f (nibbleCounts 0x33 (pairCounts 0x55 b)) = ones b := by
  unfold Nibbles
  decide +kernel

/-- The ones of all bytes, added up. -/
theorem ones_ofBytes {bytes : List Nat} (h : ∀ b ∈ bytes, b < 2 ^ 8) :
    ones (ofBytes bytes) = (bytes.map ones).sum := by
  induction bytes with
  | nil => exact ones_zero
  | cons b bytes ih =>
    rw [ofBytes, ones_two_pow_mul_add _ (h b (.head _)), ih fun c hc => h c (.tail _ hc),
      List.map_cons, List.sum_cons, Nat.add_comm]

theorem repeated_succ (b n : Nat) : repeated b (n + 1) = 2 ^ 8 * repeated b n + b := rfl

/-- A stage that works byte by byte. -/
theorem stage_ofBytes (stage : Nat → Nat → Nat) (hnil : stage 0 0 = 0)
    (hcons : ∀ high mask {low}, low < 2 ^ 8 →
      stage (2 ^ 8 * mask + m) (2 ^ 8 * high + low) = 2 ^ 8 * stage mask high + stage m low)
    {bytes : List Nat} (h : ∀ b ∈ bytes, b < 2 ^ 8) :
    stage (repeated m bytes.length) (ofBytes bytes) = ofBytes (bytes.map (stage m)) := by
  induction bytes with
  | nil => exact hnil
  | cons b bytes ih =>
    rw [List.length_cons, repeated_succ, ofBytes, hcons _ _ (h b (.head _)),
      ih fun c hc => h c (.tail _ hc), List.map_cons, ofBytes]

theorem byteCounts_ofBytes {bytes : List Nat} (h : ∀ b ∈ bytes, Nibbles b) :
    byteCounts (repeated 0x0f bytes.length) (ofBytes bytes) =
      ofBytes (bytes.map (byteCounts 0x0f)) := by
  induction bytes with
  | nil => rfl
  | cons b bytes ih =>
    have hrest : ∀ c ∈ bytes, Nibbles c := fun c hc => h c (.tail _ hc)
    have hhigh : ofBytes bytes % 16 ≤ 4 := by
      cases bytes with
      | nil => exact Nat.zero_le _
      | cons c bytes =>
        have hc := (hrest c (.head _)).1
        rw [ofBytes]
        omega
    rw [List.length_cons, repeated_succ, ofBytes, byteCounts_cons _ _ (h b (.head _)) hhigh,
      ih hrest, List.map_cons, ofBytes]

/-- **The stages count the ones of each byte.** -/
theorem byteCounts_eq {bytes : List Nat} (h : ∀ b ∈ bytes, b < 2 ^ 8) :
    byteCounts (repeated 0x0f bytes.length) (nibbleCounts (repeated 0x33 bytes.length)
      (pairCounts (repeated 0x55 bytes.length) (ofBytes bytes))) = ofBytes (bytes.map ones) := by
  have hpairs := stage_ofBytes pairCounts (m := 0x55) rfl
    (fun high mask _ hlow => pairCounts_cons high mask hlow) h
  have hlt : ∀ b ∈ bytes.map (pairCounts 0x55), b < 2 ^ 8 :=
    List.forall_mem_map.mpr fun b hb => (byte_stages b (h b hb)).1
  have hnibbles := stage_ofBytes nibbleCounts (m := 0x33) rfl
    (fun high mask _ hlow => nibbleCounts_cons high mask hlow) hlt
  have hfields : ∀ b ∈ (bytes.map (pairCounts 0x55)).map (nibbleCounts 0x33), Nibbles b :=
    List.forall_mem_map.mpr (List.forall_mem_map.mpr fun b hb => (byte_stages b (h b hb)).2.1)
  have hbytes := byteCounts_ofBytes hfields
  rw [List.length_map] at hnibbles
  rw [List.length_map, List.length_map] at hbytes
  rw [hpairs, hnibbles, hbytes, List.map_map, List.map_map]
  exact congrArg ofBytes (List.map_congr_left fun b hb => (byte_stages b (h b hb)).2.2)

/-- The multiplication that adds up the bytes of a word of 8 bytes. -/
theorem mul_repeated_div {a b c d e f g h : Nat} (ha : a ≤ 8) (hb : b ≤ 8) (hc : c ≤ 8) (hd : d ≤ 8)
    (he : e ≤ 8) (hf : f ≤ 8) (hg : g ≤ 8) (hh : h ≤ 8) :
    ofBytes [a, b, c, d, e, f, g, h] * 0x101010101010101 % 2 ^ 64 / 2 ^ 56 =
      a + b + c + d + e + f + g + h := by
  -- the carries of the sums below the top byte stay in their bytes
  have hlow : a + 2 ^ 8 * (a + b) + 2 ^ 16 * (a + b + c) + 2 ^ 24 * (a + b + c + d) +
      2 ^ 32 * (a + b + c + d + e) + 2 ^ 40 * (a + b + c + d + e + f) +
      2 ^ 48 * (a + b + c + d + e + f + g) < 2 ^ 56 := by omega
  have hproduct : ofBytes [a, b, c, d, e, f, g, h] * 0x101010101010101 =
      2 ^ 64 * ((b + c + d + e + f + g + h) + 2 ^ 8 * (c + d + e + f + g + h) +
        2 ^ 16 * (d + e + f + g + h) + 2 ^ 24 * (e + f + g + h) + 2 ^ 32 * (f + g + h) +
        2 ^ 40 * (g + h) + 2 ^ 48 * h) +
      (2 ^ 56 * (a + b + c + d + e + f + g + h) + (a + 2 ^ 8 * (a + b) + 2 ^ 16 * (a + b + c) +
        2 ^ 24 * (a + b + c + d) + 2 ^ 32 * (a + b + c + d + e) +
        2 ^ 40 * (a + b + c + d + e + f) + 2 ^ 48 * (a + b + c + d + e + f + g))) := by
    simp only [ofBytes]
    ring
  rw [hproduct, Nat.mul_add_mod, Nat.mod_eq_of_lt (by omega), Nat.mul_add_div (by decide),
    Nat.div_eq_of_lt hlow, Nat.add_zero]

theorem ones_byte_le : ∀ b < 2 ^ 8, ones b ≤ 8 := by decide +kernel

/-- **The parallel count.** -/
theorem mul_byteCounts (h : word < 2 ^ 64) :
    byteCounts 0xf0f0f0f0f0f0f0f (nibbleCounts 0x3333333333333333
      (pairCounts 0x5555555555555555 word)) * 0x101010101010101 % 2 ^ 64 / 2 ^ 56 = ones word := by
  have hbytes : ∀ b ∈ toBytes 8 word, b < 2 ^ 8 := fun b hb => lt_of_mem_toBytes hb
  have hword : ofBytes (toBytes 8 word) = word := ofBytes_toBytes h
  have hle : ∀ {b}, b ∈ toBytes 8 word → ones b ≤ 8 := fun hb => ones_byte_le _ (hbytes _ hb)
  have hcounts := byteCounts_eq hbytes
  have hones := ones_ofBytes hbytes
  rw [length_toBytes, hword] at hcounts
  rw [hword] at hones
  change byteCounts 0xf0f0f0f0f0f0f0f (nibbleCounts 0x3333333333333333
    (pairCounts 0x5555555555555555 word)) = _ at hcounts
  rw [hcounts, hones]
  simp only [toBytes, List.map_cons, List.map_nil, List.sum_cons, List.sum_nil] at hle ⊢
  rw [mul_repeated_div (hle (by simp)) (hle (by simp)) (hle (by simp)) (hle (by simp))
    (hle (by simp)) (hle (by simp)) (hle (by simp)) (hle (by simp))]
  omega

end BitCount
