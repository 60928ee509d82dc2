import Mathlib.Data.List.Chain
import Mathlib.Order.Lattice

/-! Lists of consecutive half-open ranges, which partition the range that they make up. -/

namespace Segments

variable {α : Type _} [LinearOrder α]

/-- Each range starts where the one before ends, the first at `a`, and the last ends at `b`. -/
def Consecutive (a b : α) : List (α × α) → Prop
  | [] => a = b
  | r :: rs => r.1 = a ∧ a ≤ r.2 ∧ Consecutive r.2 b rs

theorem Consecutive.le {a b : α} (h : Consecutive a b rs) : a ≤ b := by
  induction rs generalizing a with
  | nil => exact le_of_eq h
  | cons r rs ih => exact h.2.1.trans (ih h.2.2)

theorem Consecutive.bounds {a b : α} (h : Consecutive a b rs) (hmem : r ∈ rs) :
    a ≤ r.1 ∧ r.1 ≤ r.2 ∧ r.2 ≤ b := by
  induction rs generalizing a with
  | nil => cases hmem
  | cons r' rs ih =>
    obtain ⟨rfl, hle, hrest⟩ := h
    cases hmem with
    | head => exact ⟨le_refl _, hle, hrest.le⟩
    | tail _ hmem =>
      obtain ⟨hge, hr, hstop⟩ := ih hrest hmem
      exact ⟨hle.trans hge, hr, hstop⟩

theorem Consecutive.pairwise {a b : α} (h : Consecutive a b rs) :
    rs.Pairwise fun r r' => r.2 ≤ r'.1 := by
  induction rs generalizing a with
  | nil => exact .nil
  | cons r rs ih => exact .cons (fun r' hmem => (h.2.2.bounds hmem).1) (ih h.2.2)

/-- The number of the ranges that hold `x`. -/
def holding (x : α) (rs : List (α × α)) : Nat := rs.countP fun r => r.1 ≤ x ∧ x < r.2

/-- **A partition.** Each element of the range is in one of the parts and no other is in any. -/
theorem Consecutive.holding_eq {a b : α} (h : Consecutive a b rs) (x : α) :
    holding x rs = if a ≤ x ∧ x < b then 1 else 0 := by
  induction rs generalizing a with
  | nil =>
    rw [if_neg fun hx => absurd (hx.1.trans_lt hx.2) (not_lt.mpr (le_of_eq h.symm))]
    rfl
  | cons r rs ih =>
    obtain ⟨rfl, hle, hrest⟩ := h
    have hrest_le := hrest.le
    have hcount := ih hrest
    rw [holding] at hcount
    rw [holding, List.countP_cons, hcount]
    by_cases hx : r.1 ≤ x ∧ x < r.2
    · rw [if_neg fun h => absurd hx.2 (not_lt.mpr h.1), if_pos (decide_eq_true hx),
        if_pos ⟨hx.1, hx.2.trans_le hrest_le⟩]
    · have hout : ¬ decide (r.1 ≤ x ∧ x < r.2) = true := by rwa [decide_eq_true_iff]
      rw [if_neg hout]
      refine if_congr ⟨fun h => ⟨hle.trans h.1, h.2⟩, fun h => ⟨?_, h.2⟩⟩ rfl rfl
      exact not_lt.mp fun hlt => hx ⟨h.1, hlt⟩

theorem Consecutive.mem_iff {a b : α} (h : Consecutive a b rs) (x : α) :
    (a ≤ x ∧ x < b) ↔ ∃ r ∈ rs, r.1 ≤ x ∧ x < r.2 := by
  constructor
  · intro hx
    have hpos : 0 < holding x rs := by rw [h.holding_eq, if_pos hx]; exact Nat.one_pos
    obtain ⟨r, hmem, hr⟩ := List.countP_pos_iff.mp hpos
    exact ⟨r, hmem, of_decide_eq_true hr⟩
  · rintro ⟨r, hmem, hge, hlt⟩
    obtain ⟨ha, _, hb⟩ := h.bounds hmem
    exact ⟨ha.trans hge, hlt.trans_le hb⟩

theorem Consecutive.append {a c b : α} (h : Consecutive a c rs) (h' : Consecutive c b rs') :
    Consecutive a b (rs ++ rs') := by
  induction rs generalizing a with
  | nil =>
    obtain rfl : a = c := h
    exact h'
  | cons r rs ih => exact ⟨h.1, h.2.1, ih h.2.2⟩

theorem Consecutive.map {β : Type _} [LinearOrder β] {a b : α} {f : α → β} (hf : Monotone f)
    (h : Consecutive a b rs) : Consecutive (f a) (f b) (rs.map (Prod.map f f)) := by
  induction rs generalizing a with
  | nil => exact congrArg f h
  | cons r rs ih => exact ⟨congrArg f h.1, hf h.2.1, ih h.2.2⟩

/-- Cutting a range off the front of what is left of a range. -/
theorem Consecutive.cut {a c b : α} (h : Consecutive c b rs) (hle : a ≤ c) :
    Consecutive a b ((a, c) :: rs) := ⟨rfl, hle, h⟩

end Segments
