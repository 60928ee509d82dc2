import LittleFs.Lib.SkipList
import LittleFs.Tag

/-! The arithmetic of the CTZ lists: the bit counts of `lfs_utility.h` and `lfs_ctz_index`.

`lfs_ctz_index` finds the block of a byte from the size of the content in the blocks before it, a
number that itself depends on the block: it divides once to guess the block and once more with the
pointers of the guess taken into account. It is exact as long as the guess is at most one block off,
and the index fits the `int` that it is returned in. -/

namespace LittleFs

open BitCount SkipList

/-- `lfs_popc64`. -/
def popc64 (V : Nat) : Nat :=
  let V := V - ((V >>> 1) &&& 0x5555555555555555)
  let V := (V &&& 0x3333333333333333) + ((V >>> 2) &&& 0x3333333333333333)
  ((V + (V >>> 4)) &&& 0xf0f0f0f0f0f0f0f) * 0x101010101010101 % 2 ^ 64 / 2 ^ 56

/-- `lfs_ctz64`. -/
def ctz64 (a : Nat) : Nat := ((List.range 64).find? fun result => a.testBit result).getD 0

/-- `__builtin_clzll` of a number that is not 0. -/
def clz64 (a : Nat) : Nat := 63 - a.log2

/-- `lfs_npw2_64`. -/
def npw2_64 (a : Nat) : Nat := if a = 1 then 1 else 64 - clz64 ((a + 2 ^ 64 - 1) % 2 ^ 64)

/-- A number of 64 bits returned as an `int` and taken as an `lfs_off_t` again. -/
def throughInt (i : Nat) : Nat :=
  if i % 2 ^ 32 < 2 ^ 31 then i % 2 ^ 32 else i % 2 ^ 32 + (2 ^ 64 - 2 ^ 32)

/-- `lfs_ctz_index`: the index and the new `*offset`. -/
def ctzIndex (blockSize offset : Nat) : Nat × Nat :=
  let size := offset
  let b := (blockSize + 2 ^ 64 - 2 * 8) % 2 ^ 64
  let i := size / b
  if i = 0 then (0, offset)
  else
    let i := (size + 2 ^ 64 - 8 * (popc64 (i - 1) + 2)) % 2 ^ 64 / b
    (throughInt i, (size + 2 * 2 ^ 64 - b * i % 2 ^ 64 - 8 * popc64 i) % 2 ^ 64)

theorem popc64_eq (h : V < 2 ^ 64) : popc64 V = ones V := mul_byteCounts h

theorem ctz64_eq (hpos : a ≠ 0) (h : a < 2 ^ 64) : ctz64 a = zeros a := by
  have hlt := zeros_lt hpos h
  rw [ctz64]
  cases hfind : (List.range 64).find? fun result => a.testBit result with
  | none =>
    -- then `a` has no one among its 64 bits
    have hnone : ∀ j < 64, a.testBit j = false := fun j hj => by
      have := List.find?_eq_none.mp hfind j (List.mem_range.mpr hj)
      simpa using this
    refine absurd (Nat.eq_of_testBit_eq fun j => ?_) hpos
    rw [Nat.zero_testBit]
    by_cases hj : j < 64
    · exact hnone j hj
    · exact Nat.testBit_lt_two_pow (h.trans_le (Nat.pow_le_pow_right (by decide) (by omega)))
  | some k =>
    obtain ⟨hbit, hbelow⟩ := List.find?_range_eq_some.mp hfind
    refine eq_zeros hbit fun j hj => ?_
    have := hbelow.2 j hj
    simpa using this

theorem ctz64_zero : ctz64 0 = 0 := by decide

/-- `lfs_npw2_64(current - target + 1) - 1` is the logarithm rounded down. -/
theorem npw2_64_succ (hpos : d ≠ 0) (h : d < 2 ^ 64) : npw2_64 (d + 1) - 1 = d.log2 := by
  have hlog : d.log2 < 64 := (Nat.log2_lt hpos).mpr h
  have hmod : (d + 1 + 2 ^ 64 - 1) % 2 ^ 64 = d := by omega
  rw [npw2_64, if_neg (by omega), hmod, clz64]
  omega

theorem throughInt_of_lt (h : i < 2 ^ 31) : throughInt i = i := by
  rw [throughInt, Nat.mod_eq_of_lt (by omega), if_pos h]

theorem throughInt_lt (i : Nat) : throughInt i < 2 ^ 64 := by
  rw [throughInt]
  split <;> omega

theorem ctzIndex_fst_lt (blockSize offset : Nat) : (ctzIndex blockSize offset).1 < 2 ^ 64 := by
  rw [ctzIndex]
  dsimp only
  split
  · exact Nat.two_pow_pos 64
  · exact throughInt_lt _

/-- `lfs_ctz_index` says where byte `pos` is. -/
def CtzExact (blockSize pos : Nat) : Prop :=
  Holds 8 blockSize (ctzIndex blockSize pos).1 pos (ctzIndex blockSize pos).2

/-- The second division, from a guess whose predecessor has the ones that the pointers need. -/
theorem ctzIndex_eq {b guess : Nat} (hB : blockSize < 2 ^ 64) (hb : blockSize = b + 16)
    (hpos : pos < 2 ^ 64) (hguess : pos / b = guess) (hne : guess ≠ 0)
    (hle : b * n + 8 * (ones (guess - 1) + 2) ≤ pos)
    (hlt : pos < b * (n + 1) + 8 * (ones (guess - 1) + 2)) (hoff : off + b * n + 8 * ones n = pos)
    (hn : n < 2 ^ 31) : ctzIndex blockSize pos = (n, off) := by
  have hguess' : guess ≤ pos := hguess ▸ Nat.div_le_self ..
  have hsub : (blockSize + 2 ^ 64 - 2 * 8) % 2 ^ 64 = b := by omega
  have hmod : (pos + 2 ^ 64 - 8 * (ones (guess - 1) + 2)) % 2 ^ 64 =
      pos - 8 * (ones (guess - 1) + 2) := by omega
  have hbpos : 0 < b := Nat.pos_of_ne_zero fun hzero => by
    rw [hzero, Nat.div_zero] at hguess
    exact hne hguess.symm
  have hdiv : (pos - 8 * (ones (guess - 1) + 2)) / b = n := by
    rw [Nat.mul_comm b] at hle hlt
    exact Nat.div_eq_of_lt_le (by omega) (by omega)
  have hn' : popc64 n = ones n := popc64_eq (by omega)
  have hoff' : (pos + 2 * 2 ^ 64 - b * n % 2 ^ 64 - 8 * ones n) % 2 ^ 64 = off := by
    rw [Nat.mod_eq_of_lt (by omega : b * n < 2 ^ 64)]
    omega
  rw [ctzIndex]
  dsimp only
  rw [hsub, hguess, if_neg hne, popc64_eq (by omega : guess - 1 < 2 ^ 64), hmod, hdiv, hn', hoff',
    throughInt_of_lt hn]

/-- **The range of `lfs_ctz_index`.** -/
theorem ctzIndex_of_holds (h : Holds 8 blockSize n pos off) (hB : blockSize < 2 ^ 64)
    (hroom : Room 8 blockSize n) (hwide : 8 * (ones n + 2) + 16 ≤ blockSize) (hn : n < 2 ^ 31)
    (hpos : pos < 2 ^ 64) : ctzIndex blockSize pos = (n, off) := by
  obtain ⟨b, hb⟩ := Nat.exists_eq_add_of_le' (show 16 ≤ blockSize by omega)
  have hend := start_succ hroom (by omega)
  have hlt := h.lt
  have hle := h.le
  have hoff := h.off_eq
  rw [hend, show blockSize - 2 * 8 = b by omega] at hlt
  have hnext : b * (n + 1) = b * n + b := Nat.mul_succ b n
  cases n with
  | zero =>
    simp only [start, pointers, ↓reduceIte] at hoff
    rw [ones_zero] at hlt hwide
    by_cases hguess : pos / b = 0
    · rw [ctzIndex]
      dsimp only
      rw [show (blockSize + 2 ^ 64 - 2 * 8) % 2 ^ 64 = b by omega, if_pos hguess]
      exact Prod.ext rfl (by omega)
    · have hfirst : pos / b = 1 := by
        refine Nat.le_antisymm (Nat.le_of_lt_succ ?_) (Nat.one_le_iff_ne_zero.mpr hguess)
        exact Nat.div_lt_of_lt_mul (by omega)
      have hb' : b ≤ pos := Nat.le_of_not_lt fun hlt => hguess (Nat.div_eq_of_lt hlt)
      refine ctzIndex_eq hB hb hpos hfirst (by decide) ?_ ?_ ?_ hn <;>
        simp only [Nat.sub_self, ones_zero] <;> omega
  | succ n =>
    have hstart := start_succ (hroom.mono (Nat.le_succ n)) (by omega)
    have hones := ones_succ n
    rw [show blockSize - 2 * 8 = b by omega] at hstart
    rw [pointers_succ] at hoff
    have hbpos : 0 < b := by omega
    have hdivle : n + 1 ≤ pos / b := (Nat.le_div_iff_mul_le hbpos).mpr (by
      rw [Nat.mul_comm]
      omega)
    have hdivlt : pos / b < n + 3 := Nat.div_lt_of_lt_mul (by
      rw [show b * (n + 3) = b * (n + 1 + 1) + b from Nat.mul_succ ..]
      omega)
    have hcases : pos / b = n + 1 ∨ pos / b = n + 2 := by omega
    rcases hcases with hguess | hguess
    · refine ctzIndex_eq hB hb hpos hguess (Nat.succ_ne_zero n) ?_ ?_ ?_ hn
      · rw [Nat.add_sub_cancel]
        omega
      · have hguess' := Nat.lt_mul_div_succ pos hbpos
        rw [hguess] at hguess'
        rw [Nat.add_sub_cancel]
        omega
      · omega
    · have hb' : b * (n + 1 + 1) ≤ pos := hguess ▸ Nat.mul_div_le pos b
      refine ctzIndex_eq hB hb hpos hguess (Nat.succ_ne_zero _) ?_ ?_ (by omega) hn
      · rw [show n + 2 - 1 = n + 1 from rfl]
        omega
      · rw [show n + 2 - 1 = n + 1 from rfl]
        omega

theorem ctzExact_of_lt (hB : blockSize < 2 ^ 64) (hroom : Room 8 blockSize n)
    (hwide : ∀ i ≤ n, 8 * (ones i + 2) + 16 ≤ blockSize) (hn : n < 2 ^ 31)
    (hpos : pos < start 8 blockSize (n + 1)) (hpos' : pos < 2 ^ 64) : CtzExact blockSize pos := by
  obtain ⟨i, hi, off, hholds⟩ := exists_holds hpos
  have hindex := ctzIndex_of_holds hholds hB (hroom.mono hi) (hwide i hi) (hi.trans_lt hn) hpos'
  rwa [CtzExact, hindex]

/-! ## The check of `lfs_raw_format` -/

/-- The assertion that the CTZ pointers fit into a block. -/
def FormatAccepts (blockSize : Nat) : Prop :=
  8 * npw2_64 (0xffffffff / ((blockSize + 2 ^ 64 - 2 * 8) % 2 ^ 64)) ≤ blockSize

instance (blockSize : Nat) : Decidable (FormatAccepts blockSize) :=
  inferInstanceAs (Decidable (_ ≤ _))

/-- The blocks of a file of at most `maxSize` bytes: their pointers leave room for content, and
their indices come through an `int`. -/
def FormatSuffices (blockSize maxSize : Nat) : Prop :=
  ∀ i, start 8 blockSize i < maxSize → 8 * (ctz64 i + 1) < blockSize ∧ throughInt i = i

/-- The trailing zeros of the first index that goes wrong: its pointers fill the block, or it is
`2 ^ 31`. -/
def formatBits (blockSize : Nat) : Nat := min 31 ((blockSize - 1) / 8)

theorem FormatAccepts.blockSize_gt (h : FormatAccepts blockSize) : 16 < blockSize := by
  by_contra hle
  have hsmall : ∀ blockSize < 17, ¬ FormatAccepts blockSize := by decide +kernel
  exact hsmall blockSize (by omega) h

theorem formatBits_le (hB : 16 < blockSize) :
    formatBits blockSize ≤ 31 ∧ 8 * formatBits blockSize < blockSize := by
  rw [formatBits]
  omega

theorem room_formatBits (hB : 16 < blockSize) : Room 8 blockSize (2 ^ formatBits blockSize - 1) :=
  Room.of_lt (Nat.sub_lt (Nat.two_pow_pos _) Nat.one_pos) (Nat.le_of_lt (formatBits_le hB).2)

theorem start_formatBits (hB : 16 < blockSize) :
    start 8 blockSize (2 ^ formatBits blockSize) =
      (blockSize - 16) * 2 ^ formatBits blockSize + 8 * (formatBits blockSize + 2) := by
  have hstart := start_succ (room_formatBits hB) (by omega)
  rwa [Nat.sub_add_cancel (Nat.two_pow_pos _), ones_two_pow_sub_one] at hstart

theorem formatSuffices_of_le (hB : 16 < blockSize)
    (hmax : maxSize ≤ start 8 blockSize (2 ^ formatBits blockSize)) :
    FormatSuffices blockSize maxSize := by
  intro i hi
  obtain ⟨hbits, hfit⟩ := formatBits_le hB
  have hpow : 2 ^ formatBits blockSize ≤ 2 ^ 31 := Nat.pow_le_pow_right (by decide) hbits
  have hlt : i < 2 ^ formatBits blockSize := by
    by_contra hge
    have := start_mono (w := 8) (B := blockSize) (Nat.le_of_not_lt hge)
    omega
  refine ⟨?_, throughInt_of_lt (by omega)⟩
  rcases Nat.eq_zero_or_pos i with rfl | hi'
  · rw [ctz64_zero]
    omega
  · have hzeros := zeros_lt (by omega) hlt
    rw [ctz64_eq (by omega) (by omega)]
    omega

/-- Behind the block `2 ^ formatBits` something goes wrong with that block. -/
theorem FormatSuffices.le_start (H : FormatSuffices blockSize maxSize) (hB : 16 < blockSize) :
    maxSize ≤ start 8 blockSize (2 ^ formatBits blockSize) := by
  by_contra hlt
  obtain ⟨hroom, hint⟩ := H (2 ^ formatBits blockSize) (by omega)
  obtain ⟨j, hj⟩ : ∃ j, j = formatBits blockSize := ⟨_, rfl⟩
  rw [← hj] at hroom hint
  rw [formatBits] at hj
  have hpow : 2 ^ j ≤ 2 ^ 31 := Nat.pow_le_pow_right (by decide) (by omega)
  have hpos := Nat.two_pow_pos j
  rw [ctz64_eq (by omega) (by omega), zeros_two_pow] at hroom
  obtain rfl : j = 31 := by omega
  exact absurd hint (by decide)

/-- **What the check of the format allows.** The pointers have room and no index is cut off exactly
for files that end before the block `2 ^ formatBits`. -/
theorem formatSuffices_iff (h : FormatAccepts blockSize) (maxSize : Nat) :
    FormatSuffices blockSize maxSize ↔
      maxSize ≤ (blockSize - 16) * 2 ^ formatBits blockSize + 8 * (formatBits blockSize + 2) := by
  have hB := h.blockSize_gt
  rw [← start_formatBits hB]
  exact ⟨fun H => H.le_start hB, formatSuffices_of_le hB⟩

theorem formatSuffices_default : FormatSuffices 4096 (2 ^ 31 * 4080) :=
  (formatSuffices_iff (by decide +kernel) _).mpr (by decide)

/-- The index `2 ^ 31` of a file of 8 terabytes comes back as `2 ^ 64 - 2 ^ 31`. -/
theorem format_too_weak : ¬ ∀ blockSize maxSize, FormatAccepts blockSize → maxSize ≤ fileMax →
    FormatSuffices blockSize maxSize := by
  intro h
  have hle := (h 4096 fileMax (by decide +kernel) (Nat.le_refl _)).le_start (by decide)
  rw [start_formatBits (by decide)] at hle
  exact absurd hle (by decide)

/-- With 280 bytes or more to a block, `lfs_ctz_index` is exact on all that the format allows. -/
theorem FormatSuffices.ctzExact (H : FormatSuffices blockSize maxSize) (hwide : 280 ≤ blockSize)
    (hB : blockSize < 2 ^ 64) (hpos : pos < maxSize) (hmax : maxSize ≤ fileMax) :
    CtzExact blockSize pos := by
  have hB16 : 16 < blockSize := by omega
  obtain ⟨hbits, -⟩ := formatBits_le hB16
  have hpow : 2 ^ formatBits blockSize ≤ 2 ^ 31 := Nat.pow_le_pow_right (by decide) hbits
  have hpowpos := Nat.two_pow_pos (formatBits blockSize)
  refine ctzExact_of_lt hB (room_formatBits hB16) (fun i hi => ?_) (by omega) ?_ ?_
  · have hones := ones_le_of_lt (show i < 2 ^ formatBits blockSize by omega)
    omega
  · rw [Nat.sub_add_cancel hpowpos]
    exact hpos.trans_le (H.le_start hB16)
  · rw [fileMax] at hmax
    omega

/-! ## The index of a position in closed form -/

/-- The bytes of the file that the blocks before block `n` hold, `b` being the size of a block less
two pointers. -/
def bytesBefore (b n : Nat) : Nat := if n = 0 then 0 else n * b + 8 * (ones (n - 1) + 2)

/-- The length of the pointers that block `n` starts with. -/
def headerBytes (n : Nat) : Nat := 8 * pointers n

/-- Block `n` holds byte `pos`. -/
structure InBlock (b n pos : Nat) : Prop where
  le : bytesBefore b n ≤ pos
  lt : pos < bytesBefore b (n + 1)

/-- `lfs_ctz_index` returns the only block that holds byte `pos` and the offset of the byte there,
and none of its differences goes below 0. -/
structure IndexExact (blockSize b pos n : Nat) : Prop where
  inBlock : InBlock b n pos
  unique : ∀ m, InBlock b m pos → m = n
  eq : ctzIndex blockSize pos = (n, pos - bytesBefore b n + headerBytes n)
  first_le : pos / b = 0 ∨ 8 * (popc64 (pos / b - 1) + 2) ≤ pos
  second_le : b * n + 8 * popc64 n ≤ pos

theorem bytesBefore_succ (b n : Nat) :
    bytesBefore b (n + 1) = b * (n + 1) + 8 * (ones n + 2) := by
  rw [bytesBefore, if_neg (Nat.succ_ne_zero n), Nat.add_sub_cancel, Nat.mul_comm]

/-- The pointers of block `n` are in front of the rest of its share of the file. -/
theorem bytesBefore_eq (b n : Nat) : bytesBefore b n = b * n + 8 * ones n + headerBytes n := by
  cases n with
  | zero => rw [headerBytes, pointers, if_pos rfl, ones_zero]; rfl
  | succ n =>
    have hones := ones_succ n
    rw [bytesBefore_succ, headerBytes, pointers_succ]
    omega

/-- The blocks hold their shares one behind the other as long as the pointers fit. -/
theorem bytesBefore_mono {last : Nat} (hfit : ∀ i, 0 < i → i < last → headerBytes i ≤ b + 16)
    (hij : i ≤ j) (hj : j ≤ last) : bytesBefore b i ≤ bytesBefore b j := by
  have hroom : Room 8 (b + 16) (last - 1) := fun k hk => by
    rcases Nat.eq_zero_or_pos k with rfl | hpos
    · exact Nat.zero_le _
    · rcases Nat.eq_zero_or_pos last with rfl | hlast
      · omega
      · exact hfit k hpos (by omega)
  have hstart : ∀ k ≤ last, bytesBefore b k = start 8 (b + 16) k := fun k hk => by
    cases k with
    | zero => rfl
    | succ k =>
      rw [start_succ (hroom.mono (by omega)) (by omega), bytesBefore_succ, Nat.add_sub_cancel]
  rw [hstart i (hij.trans hj), hstart j hj]
  exact start_mono hij

/-- No block behind the guess of the first division holds the byte. -/
theorem InBlock.le_guess (H : InBlock b n pos) (hb : 0 < b) : n ≤ pos / b := by
  cases n with
  | zero => exact Nat.zero_le _
  | succ n =>
    have hle := H.le
    rw [bytesBefore_succ] at hle
    refine (Nat.le_div_iff_mul_le hb).mpr ?_
    rw [Nat.mul_comm]
    exact (Nat.le_add_right ..).trans hle

/-- Behind the guess of the first division there is no byte of the position. -/
theorem lt_bytesBefore_guess (hb : 0 < b) (pos : Nat) : pos < bytesBefore b (pos / b + 1) := by
  have := Nat.lt_mul_div_succ pos hb
  rw [bytesBefore_succ]
  omega

/-- The byte is in the block of the first guess or the one in front of it, and in no earlier one. -/
def NearGuess (b pos : Nat) : Prop :=
  pos / b = 0 ∨ (bytesBefore b (pos / b - 1) ≤ pos ∨ bytesBefore b (pos / b) ≤ pos) ∧
    ∀ m, m + 1 < pos / b → ¬ InBlock b m pos

/-- The only block of the byte. -/
theorem NearGuess.exists_unique (H : NearGuess b pos) (hb : 0 < b) :
    ∃ n, InBlock b n pos ∧ (n = pos / b ∨ n + 1 = pos / b) ∧ ∀ m, InBlock b m pos → m = n := by
  have hend := lt_bytesBefore_guess hb pos
  have hle : ∀ m, InBlock b m pos → m ≤ pos / b := fun m hm => hm.le_guess hb
  rcases H with hzero | ⟨hprev, hearlier⟩
  · have hzero' : bytesBefore b (pos / b) ≤ pos := hzero ▸ Nat.zero_le pos
    exact ⟨_, ⟨hzero', hend⟩, .inl rfl, fun m hm => by have := hle m hm; omega⟩
  have hnear : ∀ m, InBlock b m pos → m = pos / b ∨ m + 1 = pos / b := fun m hm => by
    have := hle m hm
    have : ¬ m + 1 < pos / b := fun hlt => hearlier m hlt hm
    omega
  by_cases hguess : bytesBefore b (pos / b) ≤ pos
  · refine ⟨_, ⟨hguess, hend⟩, .inl rfl, fun m hm => (hnear m hm).resolve_right fun hm' => ?_⟩
    have := hm.lt
    rw [hm'] at this
    omega
  · have hprev' := hprev.resolve_right hguess
    have hsucc : pos / b - 1 + 1 = pos / b := Nat.sub_add_cancel (Nat.pos_of_ne_zero fun hzero =>
      hguess (hzero ▸ Nat.zero_le pos))
    refine ⟨pos / b - 1, ⟨hprev', ?_⟩, .inr hsucc, fun m hm => ?_⟩
    · rw [hsucc]
      omega
    · rcases hnear m hm with rfl | hm'
      · exact absurd hm.le hguess
      · omega

/-- The guess is near when the pointers of the blocks in front of it fit into a block. -/
theorem nearGuess_iff (hfit : ∀ i, 0 < i → i < pos / b → headerBytes i ≤ b + 16) :
    NearGuess b pos ↔ pos / b = 0 ∨ bytesBefore b (pos / b - 1) ≤ pos := by
  refine or_congr_right' fun hne => ?_
  have hmono : ∀ {i j}, i ≤ j → j ≤ pos / b → bytesBefore b i ≤ bytesBefore b j :=
    bytesBefore_mono hfit
  constructor
  · rintro ⟨h | h, -⟩
    · exact h
    · exact (hmono (Nat.sub_le ..) (Nat.le_refl _)).trans h
  · refine fun h => ⟨.inl h, fun m hm H => ?_⟩
    have hlt := H.lt
    have := hmono (i := m + 1) (j := pos / b - 1) (by omega) (by omega)
    omega

/-- **The index of a position near the guess**, when the ones of the guess fit into a block. -/
theorem NearGuess.indexExact {blockSize b pos : Nat} (H : NearGuess b pos) (hB : blockSize < 2 ^ 64)
    (hb : blockSize = b + 16) (hbpos : 0 < b) (hpos : pos < 2 ^ 64)
    (hguess : pos / b = 0 ∨ 8 * (ones (pos / b - 1) + 2) ≤ b)
    (hindex : ∃ n < 2 ^ 31, InBlock b n pos) : ∃ n, IndexExact blockSize b pos n := by
  subst hb
  obtain ⟨n, hn, hnear, hunique⟩ := H.exists_unique hbpos
  obtain ⟨m, hm31, hm⟩ := hindex
  obtain rfl := hunique m hm
  have hm64 : m < 2 ^ 64 := hm31.trans (by decide)
  have hsum := bytesBefore_eq b m
  have hle := hn.le
  have hlt := hn.lt
  obtain ⟨g, hg⟩ : ∃ g, pos / b = g := ⟨_, rfl⟩
  have hgle : b * g ≤ pos := hg ▸ Nat.mul_div_le pos b
  have hgpos : g ≤ pos := hg ▸ Nat.div_le_self ..
  rw [hg] at hguess hnear
  refine ⟨m, ⟨hn, hunique, ?_, ?_, by rw [popc64_eq hm64]; omega⟩⟩
  · rcases Nat.eq_zero_or_pos g with rfl | hpos'
    · obtain rfl : m = 0 := by omega
      have hsub : (b + 16 + 2 ^ 64 - 2 * 8) % 2 ^ 64 = b := by omega
      rw [ctzIndex]
      dsimp only
      rw [hsub, hg, if_pos rfl, headerBytes, pointers, if_pos rfl]
      exact Prod.ext rfl (by rw [bytesBefore, if_pos rfl]; rfl)
    · have hb' := hguess.resolve_left (by omega)
      have hgmul : b * g = b * (g - 1) + b := by
        rw [← Nat.mul_succ, Nat.succ_eq_add_one, Nat.sub_add_cancel hpos']
      refine ctzIndex_eq hB rfl hpos hg (by omega) ?_ ?_ (by omega) hm31
      · rcases hnear with rfl | hprev'
        · have := bytesBefore_succ b (m - 1)
          rw [Nat.sub_add_cancel hpos'] at this
          omega
        · obtain rfl : m = g - 1 := by omega
          omega
      · rcases hnear with rfl | hprev'
        · have := Nat.lt_mul_div_succ pos hbpos
          rw [hg] at this
          omega
        · subst hprev'
          rw [bytesBefore_succ] at hlt
          rw [Nat.add_sub_cancel, Nat.mul_succ]
          omega
  · rw [hg]
    rcases Nat.eq_zero_or_pos g with hzero | hpos'
    · exact Or.inl hzero
    · have hb' := hguess.resolve_left (by omega)
      have : b ≤ b * g := Nat.le_mul_of_pos_right b hpos'
      rw [popc64_eq (by omega : g - 1 < 2 ^ 64)]
      exact Or.inr (by omega)

/-- The second division comes to the guess of the first one or to the block in front of it. -/
theorem IndexExact.near_guess {blockSize b pos : Nat} (H : IndexExact blockSize b pos n)
    (hb : blockSize = b + 16) (hB : blockSize < 2 ^ 64) (hb16 : 16 ≤ b) (hpos : pos < 2 ^ 64)
    (hguess : pos / b = 0 ∨ 8 * (ones (pos / b - 1) + 2) ≤ b) (hn : n < 2 ^ 31) :
    n = pos / b ∨ n + 1 = pos / b := by
  have hgpos : pos / b ≤ pos := Nat.div_le_self ..
  have hsub : (blockSize + 2 ^ 64 - 2 * 8) % 2 ^ 64 = b := by omega
  have hfst := congrArg Prod.fst H.eq
  rw [ctzIndex] at hfst
  dsimp only at hfst
  rw [hsub] at hfst
  by_cases hzero : pos / b = 0
  · rw [if_pos hzero] at hfst
    exact .inl (hfst.symm.trans hzero.symm)
  · have hfit := hguess.resolve_left hzero
    have hones := ones_le_of_lt (show n < 2 ^ 64 by omega)
    have hlt := H.inBlock.lt
    rw [bytesBefore_succ] at hlt
    have hmul := Nat.mul_div_le pos b
    have hnext := Nat.lt_mul_div_succ pos (show 0 < b by omega)
    rw [Nat.mul_succ] at hnext
    rw [if_neg hzero, popc64_eq (by omega)] at hfst
    dsimp only at hfst
    have hb' : b * 1 ≤ b * (pos / b) := Nat.mul_le_mul_left b (Nat.pos_of_ne_zero hzero)
    have hmod : (pos + 2 ^ 64 - 8 * (ones (pos / b - 1) + 2)) % 2 ^ 64 =
        pos - 8 * (ones (pos / b - 1) + 2) := by omega
    rw [hmod] at hfst
    have hback : b * (pos / b) = b * (pos / b - 1) + b := by
      rw [← Nat.mul_succ, Nat.succ_eq_add_one, Nat.sub_add_cancel (Nat.pos_of_ne_zero hzero)]
    have hge : pos / b - 1 ≤ (pos - 8 * (ones (pos / b - 1) + 2)) / b :=
      (Nat.le_div_iff_mul_le (by omega)).mpr (by rw [Nat.mul_comm]; omega)
    have hle : (pos - 8 * (ones (pos / b - 1) + 2)) / b ≤ pos / b :=
      Nat.div_le_div_right (Nat.sub_le ..)
    -- the index is not cut off: the byte would be far behind its block
    have hsmall : pos / b < 2 ^ 32 := by
      by_contra hbig
      have : b * 2 ^ 32 ≤ b * (pos / b) := Nat.mul_le_mul_left b (by omega)
      have : b * (n + 1) ≤ b * 2 ^ 31 := Nat.mul_le_mul_left b (by omega)
      omega
    rw [throughInt] at hfst
    split at hfst <;> omega

/-- **The index of every position.** `lfs_ctz_index` is exact when the ones of the guess fit into a
block and the byte is not before the block in front of the guess. -/
theorem ctzIndex_exact {blockSize b pos : Nat} (hB : blockSize < 2 ^ 64)
    (hb : blockSize = b + 16) (hb16 : 16 ≤ b) (hpos : pos < 2 ^ 64)
    (hguess : pos / b = 0 ∨ 8 * (ones (pos / b - 1) + 2) ≤ b)
    (hindex : ∃ n < 2 ^ 31, InBlock b n pos)
    (hprev : pos / b = 0 ∨ bytesBefore b (pos / b - 1) ≤ pos)
    (hfit : ∀ i, 0 < i → i < pos / b → headerBytes i ≤ blockSize) :
    ∃ n, IndexExact blockSize b pos n :=
  ((nearGuess_iff (hb ▸ hfit)).mpr hprev).indexExact hB hb (by omega) hpos hguess hindex

/-- **Where the index is exact**: exactly when the byte is in the block of the first guess or the
one in front of it and in no earlier one. -/
theorem ctzIndex_exact_iff {blockSize b pos : Nat} (hB : blockSize < 2 ^ 64)
    (hb : blockSize = b + 16) (hb16 : 16 ≤ b) (hpos : pos < 2 ^ 64)
    (hguess : pos / b = 0 ∨ 8 * (ones (pos / b - 1) + 2) ≤ b)
    (hindex : ∃ n < 2 ^ 31, InBlock b n pos) :
    ((∃ n, IndexExact blockSize b pos n) ↔ NearGuess b pos) ∧
      ((∀ i, 0 < i → i < pos / b → headerBytes i ≤ blockSize) →
        ((∃ n, IndexExact blockSize b pos n) ↔
          pos / b = 0 ∨ bytesBefore b (pos / b - 1) ≤ pos)) := by
  have hiff : (∃ n, IndexExact blockSize b pos n) ↔ NearGuess b pos := by
    refine ⟨fun ⟨n, H⟩ => ?_, fun H => H.indexExact hB hb (by omega) hpos hguess hindex⟩
    obtain ⟨m, hm31, hm⟩ := hindex
    obtain rfl := H.unique m hm
    refine or_iff_not_imp_left.mpr fun hne => ⟨?_, fun k hk hin => ?_⟩
    · rcases H.near_guess hb hB hb16 hpos hguess hm31 with rfl | hprev
      · exact .inr hm.le
      · rw [← hprev, Nat.add_sub_cancel]
        exact .inl hm.le
    · have := H.unique k hin
      have := H.near_guess hb hB hb16 hpos hguess hm31
      omega
  exact ⟨hiff, fun hfit => hiff.trans (nearGuess_iff (hb ▸ hfit))⟩

/-- Byte 4000 of a file in blocks of 512 bytes is in block 8. -/
theorem ctzIndex_exact_small : ((∃ n, IndexExact 512 496 4000 n) ↔ NearGuess 496 4000) ∧
    ((∀ i, 0 < i → i < 4000 / 496 → headerBytes i ≤ 512) →
      ((∃ n, IndexExact 512 496 4000 n) ↔
        4000 / 496 = 0 ∨ bytesBefore 496 (4000 / 496 - 1) ≤ 4000)) := by
  have hones : ones 7 = 3 := by rw [← popc64_eq (by decide)]; decide
  have hones' : ones 6 = 2 := by rw [← popc64_eq (by decide)]; decide
  refine ctzIndex_exact_iff (by decide) rfl (by decide) (by decide) (.inr ?_)
    ⟨7, by decide, ⟨?_, ?_⟩⟩
  · show 8 * (ones 7 + 2) ≤ 496
    rw [hones]
    decide
  · rw [bytesBefore_succ, hones']
    decide
  · rw [bytesBefore_succ, hones]
    decide

/-- With 256 bytes to a block, which the format accepts, the first byte behind `2 ^ 29 + 1` times
240 is in block `2 ^ 29 - 1`, whose successor has 30 pointers, and `lfs_ctz_index` returns that one,
with an offset among its pointers. -/
theorem ctzIndex_tooFar : FormatAccepts 256 ∧ ctzIndex 256 128849019120 = (2 ^ 29, 232) ∧
    ¬ ∀ blockSize b pos : Nat, blockSize < 2 ^ 64 → blockSize = b + 16 →
      16 ≤ b → pos < 2 ^ 64 → (pos / b = 0 ∨ 8 * (ones (pos / b - 1) + 2) ≤ b) →
      (∃ n < 2 ^ 31, InBlock b n pos) → ∃ n, IndexExact blockSize b pos n := by
  refine ⟨by decide +kernel, by decide +kernel, fun h => ?_⟩
  have hones : ones (2 ^ 29 - 2) = 28 := by rw [← popc64_eq (by decide)]; decide
  have hones' : ones (2 ^ 29 - 1) = 29 := ones_two_pow_sub_one 29
  have hones'' : ones (2 ^ 29) = 1 := by rw [← popc64_eq (by decide)]; decide
  have hguess : 128849019120 / 240 - 1 = 2 ^ 29 := by decide
  have hin : InBlock 240 (2 ^ 29 - 1) 128849019120 := by
    constructor
    · rw [show 2 ^ 29 - 1 = 2 ^ 29 - 2 + 1 from rfl, bytesBefore_succ, hones]
      decide
    · rw [bytesBefore_succ, hones']
      decide
  obtain ⟨n, hn⟩ := h 256 240 128849019120 (by decide) rfl (by decide) (by decide)
    (.inr (by rw [hguess, hones'']; decide)) ⟨_, by decide, hin⟩
  have hindex : (ctzIndex 256 128849019120).1 = (2 ^ 29 : Nat) := by decide +kernel
  have hlast := hn.unique _ hin
  rw [hn.eq] at hindex
  dsimp only at hindex
  omega

/-- Where pointers do not fit into their block the shares overlap: with 48 bytes to a block, two
blocks would hold byte 4160, although the byte is not before block 129 and the guess is block
130. -/
theorem inBlock_twice : InBlock 32 127 4160 ∧ InBlock 32 129 4160 := by
  have hones : ones 126 = 6 ∧ ones 127 = 7 ∧ ones 128 = 1 ∧ ones 129 = 2 := by
    rw [← popc64_eq (by decide), ← popc64_eq (by decide), ← popc64_eq (by decide),
      ← popc64_eq (by decide)]
    decide
  obtain ⟨h126, h127, h128, h129⟩ := hones
  refine ⟨⟨?_, ?_⟩, ⟨?_, ?_⟩⟩ <;> rw [bytesBefore_succ]
  · rw [h126]
    decide
  · rw [h127]
    decide
  · rw [h128]
    decide
  · rw [h129]
    decide

end LittleFs
