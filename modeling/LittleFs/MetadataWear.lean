import LittleFs.Lib.AlternatingPair
import LittleFs.DirSplit

/-! The wear of a metadata pair: every compaction erases the block that it writes, and the revision
count says when `lfs_dir_compact` takes another block instead. -/

namespace LittleFs

open AlternatingPair (Alternates Fresh Mem)

/-! ## Compactions of a pair -/

/-- What a compaction reads and changes of a directory. -/
structure PairWear where
  pair : BlockPair
  revision : BitVec 32
  deriving DecidableEq, Repr

/-- `(block_cycles + 1) | 1`. -/
def cyclesModulus (blockCycles : BitVec 32) : Nat := ((blockCycles + 1#32) ||| 1#32).toNat

/-- `lfs_dir_alloc`, which has got the first block for `pair[1]` and the second one for `pair[0]`;
`old` is the word at the start of the latter. -/
def dirAlloc (blockCycles : BitVec 32) (first second : Nat) (old : BitVec 32) : PairWear where
  pair := (second, first)
  -- align the new revision count to our block_cycles modulus
  revision := if 0 < blockCycles.toInt then
    BitVec.ofNat 32 (alignup64 old.toNat (cyclesModulus blockCycles)) else old

/-- `lfs_dir_compact` on good blocks, with the block that `lfs_alloc` returns when it is called. The
block that is erased is the first one of the pair then. -/
def dirCompact (blockCycles : BitVec 32) (alloc : Nat) (s : PairWear) : PairWear :=
  let tired := dirNeedsRelocation blockCycles s.revision
  -- relocate half of pair
  let pair := if tired && pairCmp s.pair (0, 1) then (s.pair.1, alloc) else s.pair
  -- swap dir pair to indicate most recent
  ⟨(pair.2, pair.1), s.revision + 1#32⟩

/-- Compactions in a row, the `k`-th one with the block `alloc k`. -/
def compactions (blockCycles : BitVec 32) (alloc : Nat → Nat) (s : PairWear) : Nat → PairWear
  | 0 => s
  | k + 1 => dirCompact blockCycles (alloc (k + 1)) (compactions blockCycles alloc s k)

/-- The block that the `k`-th compaction erases. -/
def erasedBlock (blockCycles : BitVec 32) (alloc : Nat → Nat) (s : PairWear) (k : Nat) : Nat :=
  (compactions blockCycles alloc s k).pair.1

/-- The compactions from the `i`-th to the `j`-th one that erase the block. -/
def eraseCount (blockCycles : BitVec 32) (alloc : Nat → Nat) (s : PairWear) (b i j : Nat) : Nat :=
  ((Finset.Icc (max 1 i) j).filter fun k => erasedBlock blockCycles alloc s k = b).card

/-- The blocks of the allocator: neither the superblock nor in the pair. -/
structure AllocatesFree (blockCycles : BitVec 32) (alloc : Nat → Nat) (s : PairWear) (n : Nat) :
    Prop where
  /-- The pair does not share a block with the superblock. -/
  other : pairCmp s.pair (0, 1) = true
  distinct : s.pair.1 ≠ s.pair.2
  superblock : ∀ k, 1 ≤ k → k ≤ n → alloc k ≠ 0 ∧ alloc k ≠ 1
  pair : ∀ k < n, alloc (k + 1) ≠ (compactions blockCycles alloc s k).pair.1 ∧
    alloc (k + 1) ≠ (compactions blockCycles alloc s k).pair.2

/-- The wear of the blocks of a pair over `n` compactions. -/
structure WearBounded (blockCycles : BitVec 32) (alloc : Nat → Nat) (s : PairWear) (n : Nat) :
    Prop where
  /-- While a block is in the pair it is erased `(block_cycles + 1) | 1` times at most. -/
  bound : ∀ b i j, j ≤ n →
    (∀ k, i ≤ k → k ≤ j → Mem b (compactions blockCycles alloc s k).pair) →
    eraseCount blockCycles alloc s b i j ≤ cyclesModulus blockCycles
  /-- A half is replaced by every compaction that the modulus divides, and by no other one. -/
  replaced : ∀ k < n, (cyclesModulus blockCycles ∣ k + 1 →
      (compactions blockCycles alloc s (k + 1)).pair =
        (alloc (k + 1), (compactions blockCycles alloc s k).pair.1)) ∧
    (¬ cyclesModulus blockCycles ∣ k + 1 → (compactions blockCycles alloc s (k + 1)).pair =
      ((compactions blockCycles alloc s k).pair.2, (compactions blockCycles alloc s k).pair.1))
  /-- The half that goes is the one that the replacement before it has left. -/
  turns : ∀ q, (q + 1) * cyclesModulus blockCycles ≤ n →
    (compactions blockCycles alloc s ((q + 1) * cyclesModulus blockCycles - 1)).pair.2 =
      (compactions blockCycles alloc s (q * cyclesModulus blockCycles)).pair.2

/-! ## The modulus -/

section
variable {blockCycles : BitVec 32} {alloc : Nat → Nat} {s : PairWear} {n : Nat}

theorem cyclesModulus_odd (blockCycles : BitVec 32) : cyclesModulus blockCycles % 2 = 1 := by
  rw [cyclesModulus, BitVec.toNat_or]
  simp

/-- A block is tired when the modulus divides the new revision. -/
theorem dirNeedsRelocation_iff (hcycles : 0 < blockCycles.toInt) (revision : BitVec 32)
    (hwrap : revision.toNat + 1 < 2 ^ 32) :
    dirNeedsRelocation blockCycles revision = true ↔
      cyclesModulus blockCycles ∣ revision.toNat + 1 := by
  have hone : (revision + 1#32).toNat = revision.toNat + 1 := by
    rw [BitVec.toNat_add]
    exact Nat.mod_eq_of_lt hwrap
  have hzero : (revision + 1#32) % ((blockCycles + 1#32) ||| 1#32) = 0#32 ↔
      (revision.toNat + 1) % cyclesModulus blockCycles = 0 := by
    rw [← BitVec.toNat_inj, BitVec.toNat_umod, hone]
    rfl
  rw [dirNeedsRelocation, decide_eq_true_iff, hzero, Nat.dvd_iff_mod_eq_zero]
  exact ⟨fun h => h.2, fun h => ⟨hcycles, h⟩⟩

/-! ## The run of compactions -/

theorem pairCmp_superblock {pair : BlockPair} :
    pairCmp pair (0, 1) = true ↔ (pair.1 ≠ 0 ∧ pair.1 ≠ 1) ∧ pair.2 ≠ 0 ∧ pair.2 ≠ 1 := by
  simp only [pairCmp, Bool.not_eq_true', Bool.or_eq_false_iff, beq_eq_false_iff_ne]
  omega

/-- What one compaction does. -/
theorem dirCompact_pair (hcycles : 0 < blockCycles.toInt) (hother : pairCmp s.pair (0, 1) = true)
    (hwrap : s.revision.toNat + 1 < 2 ^ 32) (block : Nat) :
    (dirCompact blockCycles block s).revision.toNat = s.revision.toNat + 1 ∧
      (cyclesModulus blockCycles ∣ s.revision.toNat + 1 →
        (dirCompact blockCycles block s).pair = (block, s.pair.1)) ∧
      (¬ cyclesModulus blockCycles ∣ s.revision.toNat + 1 →
        (dirCompact blockCycles block s).pair = (s.pair.2, s.pair.1)) := by
  have htired := dirNeedsRelocation_iff hcycles s.revision hwrap
  refine ⟨?_, fun h => ?_, fun h => ?_⟩
  · change (s.revision + 1#32).toNat = _
    rw [BitVec.toNat_add]
    exact Nat.mod_eq_of_lt hwrap
  · rw [dirCompact, htired.mpr h, hother]
    rfl
  · rw [dirCompact, Bool.eq_false_iff.mpr (mt htired.mp h)]
    rfl

/-- The revision counts the compactions, and the superblock stays out. -/
theorem compactions_spec (hcycles : 0 < blockCycles.toInt) (H : AllocatesFree blockCycles alloc s n)
    (hwrap : s.revision.toNat + n < 2 ^ 32) (hk : k ≤ n) :
    (compactions blockCycles alloc s k).revision.toNat = s.revision.toNat + k ∧
      pairCmp (compactions blockCycles alloc s k).pair (0, 1) = true := by
  induction k with
  | zero => exact ⟨rfl, H.other⟩
  | succ k ih =>
    obtain ⟨hrevision, hother⟩ := ih (Nat.le_of_lt hk)
    obtain ⟨hsucc, hreplace, hswap⟩ :=
      dirCompact_pair hcycles hother (by omega) (alloc (k + 1))
    refine ⟨?_, ?_⟩
    · change (dirCompact blockCycles _ _).revision.toNat = _
      omega
    · change pairCmp (dirCompact blockCycles _ _).pair (0, 1) = true
      obtain ⟨hfst, hsnd⟩ := pairCmp_superblock.mp hother
      by_cases h : cyclesModulus blockCycles ∣
          (compactions blockCycles alloc s k).revision.toNat + 1
      · rw [hreplace h]
        exact pairCmp_superblock.mpr ⟨H.superblock (k + 1) (by omega) hk, hfst⟩
      · rw [hswap h]
        exact pairCmp_superblock.mpr ⟨hsnd, hfst⟩

/-- From a revision that the modulus divides the blocks alternate. -/
theorem alternates_compactions (hcycles : 0 < blockCycles.toInt)
    (H : AllocatesFree blockCycles alloc s n) (hwrap : s.revision.toNat + n < 2 ^ 32)
    (haligned : cyclesModulus blockCycles ∣ s.revision.toNat) :
    Alternates (cyclesModulus blockCycles) n
      (fun k => (compactions blockCycles alloc s k).pair) alloc := by
  have hstep : ∀ k < n, (cyclesModulus blockCycles ∣ k + 1 →
      (compactions blockCycles alloc s (k + 1)).pair =
        (alloc (k + 1), (compactions blockCycles alloc s k).pair.1)) ∧
      (¬ cyclesModulus blockCycles ∣ k + 1 → (compactions blockCycles alloc s (k + 1)).pair =
        ((compactions blockCycles alloc s k).pair.2,
          (compactions blockCycles alloc s k).pair.1)) := by
    intro k hk
    obtain ⟨hrevision, hother⟩ := compactions_spec hcycles H hwrap (Nat.le_of_lt hk)
    obtain ⟨-, hreplace, hswap⟩ := dirCompact_pair hcycles hother (by omega) (alloc (k + 1))
    rw [hrevision, Nat.add_assoc, Nat.dvd_add_right haligned] at hreplace hswap
    exact ⟨hreplace, hswap⟩
  exact ⟨fun k hk => (hstep k hk).2, fun k hk => (hstep k hk).1⟩

/-- **The wear of a metadata pair.** From `lfs_dir_alloc` on, a block is erased at most
`(block_cycles + 1) | 1` times while it is in the pair, and the halves are replaced in turn. -/
theorem dirAlloc_wearBounded {first second : Nat} {old : BitVec 32}
    (hcycles : 0 < blockCycles.toInt)
    (hwrap : alignup old.toNat (cyclesModulus blockCycles) + n < 2 ^ 32)
    (H : AllocatesFree blockCycles alloc (dirAlloc blockCycles first second old) n) :
    WearBounded blockCycles alloc (dirAlloc blockCycles first second old) n := by
  have hodd := cyclesModulus_odd blockCycles
  have hlt : cyclesModulus blockCycles < 2 ^ 32 := BitVec.isLt _
  have hold := old.isLt
  have hrevision : (dirAlloc blockCycles first second old).revision.toNat =
      alignup old.toNat (cyclesModulus blockCycles) := by
    rw [dirAlloc, if_pos hcycles, BitVec.toNat_ofNat, alignup64_eq (by omega) (by omega)]
    exact Nat.mod_eq_of_lt (by omega)
  have haligned : cyclesModulus blockCycles ∣
      (dirAlloc blockCycles first second old).revision.toNat := hrevision ▸ dvd_alignup ..
  rw [← hrevision] at hwrap
  generalize dirAlloc blockCycles first second old = s at H hwrap haligned ⊢
  have Halternates := alternates_compactions hcycles H hwrap haligned
  have hfresh : Fresh (cyclesModulus blockCycles) n
      (fun k => (compactions blockCycles alloc s k).pair) alloc :=
    ⟨H.distinct, fun k hk _ => H.pair k hk⟩
  refine ⟨fun b i j hj hmem => ?_, fun k hk => ⟨Halternates.replace k hk, Halternates.swap k hk⟩,
    fun q hq => Halternates.replaced_in_turn hodd ((Nat.sub_le ..).trans hq)⟩
  exact Halternates.card_le hfresh hodd hj fun k hk hkj => hmem k (by omega) hkj

end

/-- Four compactions with `block_cycles` 1: the third one replaces the block that the first one
wrote. -/
theorem dirAlloc_wearBounded_four :
    WearBounded 1#32 (fun k => k + 10) (dirAlloc 1#32 4 5 7#32) 4 :=
  dirAlloc_wearBounded (by decide) (by decide) ⟨by decide, by decide, fun k hk _ => by omega,
    by decide +kernel⟩

end LittleFs
