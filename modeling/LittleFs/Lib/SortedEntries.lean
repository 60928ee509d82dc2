import Mathlib.Data.Finset.Card
import Mathlib.Order.Interval.Finset.Nat

/-! Sorted sequences in which some places have a name and some have none yet, and the place where a
name belongs. -/

namespace SortedEntries

variable {α : Type*} [LinearOrder α] {f : Nat → Option α} {x a : α}

/-- A place for a new entry in front of entry `i`. -/
def insertAt (f : Nat → Option α) (i : Nat) : Nat → Option α :=
  fun j => if j < i then f j else if j = i then none else f (j - 1)

def removeAt (f : Nat → Option α) (i : Nat) : Nat → Option α :=
  fun j => if j < i then f j else f (j + 1)

def nameAt (f : Nat → Option α) (i : Nat) (x : α) : Nat → Option α :=
  fun j => if j = i then some x else f j

def Sorted (f : Nat → Option α) : Prop := ∀ i j, i < j → ∀ a ∈ f i, ∀ b ∈ f j, a < b

/-- The names before place `i` sort before `x`, and the others after it. -/
structure Splits (f : Nat → Option α) (x : α) (i : Nat) : Prop where
  below : ∀ j < i, ∀ a ∈ f j, a < x
  above : ∀ j, i ≤ j → ∀ a ∈ f j, x < a

theorem Splits.ne (H : Splits f x i) (j : Nat) : f j ≠ some x := fun h => by
  rcases Nat.lt_or_ge j i with hj | hj
  · exact lt_irrefl x (H.below j hj x h)
  · exact lt_irrefl x (H.above j hj x h)

/-- Behind the last name every place will do. -/
theorem Splits.of_le (H : Splits f x i) (hnone : ∀ j, count ≤ j → f j = none) (hi : count ≤ i)
    (hi' : count ≤ i') : Splits f x i' := by
  refine ⟨fun j _ a ha => ?_, fun j hj a ha => ?_⟩
  · refine H.below j (Nat.lt_of_not_le fun hij => ?_) a ha
    rw [hnone j (by omega)] at ha
    cases ha
  · rw [hnone j (by omega)] at ha
    cases ha

theorem Splits.insertAt_le (H : Splits f x i) (h : c ≤ i) : Splits (insertAt f c) x (i + 1) := by
  refine ⟨fun j hj a ha => ?_, fun j hj a ha => ?_⟩ <;> rw [insertAt] at ha
  · split at ha
    · exact H.below j (by omega) a ha
    · split at ha
      · cases ha
      · exact H.below (j - 1) (by omega) a ha
  · rw [if_neg (by omega), if_neg (by omega)] at ha
    exact H.above (j - 1) (by omega) a ha

theorem Splits.insertAt_gt (H : Splits f x i) (h : i < c) : Splits (insertAt f c) x i := by
  refine ⟨fun j hj a ha => ?_, fun j hj a ha => ?_⟩ <;> rw [insertAt] at ha
  · rw [if_pos (by omega)] at ha
    exact H.below j hj a ha
  · split at ha
    · exact H.above j hj a ha
    · split at ha
      · cases ha
      · exact H.above (j - 1) (by omega) a ha

theorem Splits.removeAt_lt (H : Splits f x i) (h : d < i) : Splits (removeAt f d) x (i - 1) := by
  refine ⟨fun j hj a ha => ?_, fun j hj a ha => ?_⟩ <;> rw [removeAt] at ha
  · split at ha
    · exact H.below j (by omega) a ha
    · exact H.below (j + 1) (by omega) a ha
  · rw [if_neg (by omega)] at ha
    exact H.above (j + 1) (by omega) a ha

theorem Splits.removeAt_ge (H : Splits f x i) (h : i ≤ d) : Splits (removeAt f d) x i := by
  refine ⟨fun j hj a ha => ?_, fun j hj a ha => ?_⟩ <;> rw [removeAt] at ha
  · rw [if_pos (by omega)] at ha
    exact H.below j hj a ha
  · split at ha
    · exact H.above j hj a ha
    · exact H.above (j + 1) (by omega) a ha

theorem Splits.nameAt_lt (H : Splits f x i) (h : c < i) (hlt : a < x) :
    Splits (nameAt f c a) x i := by
  refine ⟨fun j hj b hb => ?_, fun j hj b hb => ?_⟩ <;> rw [nameAt] at hb
  · split at hb
    · cases hb
      exact hlt
    · exact H.below j hj b hb
  · rw [if_neg (by omega)] at hb
    exact H.above j hj b hb

theorem Splits.nameAt_ge (H : Splits f x i) (h : i ≤ c) (hlt : x < a) :
    Splits (nameAt f c a) x i := by
  refine ⟨fun j hj b hb => ?_, fun j hj b hb => ?_⟩ <;> rw [nameAt] at hb
  · rw [if_neg (by omega)] at hb
    exact H.below j hj b hb
  · split at hb
    · cases hb
      exact hlt
    · exact H.above j hj b hb

/-- The place of a name that sorts after `x`, when the names before it sort before `x`. -/
theorem Sorted.splits (H : Sorted f) (hi : f i = some a) (hlt : x < a)
    (hbelow : ∀ j < i, ∀ b ∈ f j, b < x) : Splits f x i := by
  refine ⟨hbelow, fun j hj b hb => ?_⟩
  rcases Nat.eq_or_lt_of_le hj with rfl | hj
  · cases hi.symm.trans hb
    exact hlt
  · exact hlt.trans (H i j hj a hi b hb)

/-- The place that `x` leaves. -/
theorem Sorted.removeAt_splits (H : Sorted f) (hi : f i = some x) : Splits (removeAt f i) x i := by
  refine ⟨fun j hj a ha => ?_, fun j hj a ha => ?_⟩ <;> rw [removeAt] at ha
  · rw [if_pos hj] at ha
    exact H j i hj a ha x hi
  · rw [if_neg (by omega)] at ha
    exact H i (j + 1) (by omega) x hi a ha

/-- A new entry with the name `x` at its place. -/
theorem Splits.sorted (H : Splits f x i) (hs : Sorted f) : Sorted (nameAt (insertAt f i) i x) := by
  intro j k hjk a ha b hb
  simp only [nameAt, insertAt] at ha hb
  split at ha
  · cases ha
    rw [if_neg (by omega), if_neg (by omega), if_neg (by omega)] at hb
    exact H.above (k - 1) (by omega) b hb
  · split at ha
    · split at hb
      · cases hb
        exact H.below j ‹_› a ha
      · split at hb
        · exact hs j k hjk a ha b hb
        · exact hs j (k - 1) (by omega) a ha b hb
    · rw [if_neg (by omega), if_neg (by omega), if_neg (by omega)] at hb
      exact hs (j - 1) (k - 1) (by omega) a ha b hb

/-- The place of a name is the number of entries that do not sort after it, when all entries from
the first name on have one. -/
theorem Splits.eq_card (H : Splits f x i) (hi : i ≤ count)
    (hnamed : ∀ j k, (f j).isSome → j < k → k < count → (f k).isSome)
    (hfirst : i < count → (f i).isSome) :
    i = ((Finset.range count).filter fun j => ∀ a ∈ f j, a < x).card := by
  have hfilter : ((Finset.range count).filter fun j => ∀ a ∈ f j, a < x) = Finset.range i := by
    ext j
    simp only [Finset.mem_filter, Finset.mem_range]
    refine ⟨fun ⟨hj, h⟩ => Nat.lt_of_not_le fun hij => ?_, fun hj => ⟨by omega, H.below j hj⟩⟩
    have hsome : (f j).isSome := by
      rcases Nat.eq_or_lt_of_le hij with rfl | hij
      · exact hfirst hj
      · exact hnamed i j (hfirst (by omega)) hij hj
    obtain ⟨a, ha⟩ := Option.isSome_iff_exists.mp hsome
    exact lt_asymm (h a ha) (H.above j hij a ha)
  rw [hfilter, Finset.card_range]

end SortedEntries
