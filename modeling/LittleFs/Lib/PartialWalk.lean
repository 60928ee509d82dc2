import Mathlib.Data.Finset.Card

/-! Walks by a partial step: where a step is possible from finitely many places only, a walk ends
unless it comes to a cycle. -/

namespace PartialWalk

variable {α : Type*} {next : α → Option α} {x y : α} {m n : Nat}

/-- The place after `n` steps, if there are as many. -/
def steps (next : α → Option α) : (n : Nat) → α → Option α
  | 0, x => some x
  | n + 1, x => (next x).bind (steps next n)

/-- The walk from `x` comes to a place that it leads back to. -/
def Cycles (next : α → Option α) (x : α) : Prop :=
  ∃ m n y, steps next m x = some y ∧ 0 < n ∧ steps next n y = some y

theorem steps_add (m n : Nat) (x : α) :
    steps next (m + n) x = (steps next m x).bind (steps next n) := by
  induction m generalizing x with
  | zero => rw [Nat.zero_add, steps, Option.bind_some]
  | succ m ih =>
    rw [Nat.succ_add, steps, steps, Option.bind_assoc]
    exact congrArg _ (funext ih)

theorem steps_of_le (h : steps next m x = none) (hle : m ≤ n) : steps next n x = none := by
  obtain ⟨k, rfl⟩ := Nat.exists_eq_add_of_le hle
  rw [steps_add, h, Option.bind_none]

theorem isSome_of_le (h : (steps next n x).isSome) (hle : m ≤ n) : (steps next m x).isSome := by
  rw [Option.isSome_iff_ne_none] at h ⊢
  exact fun hnone => h (steps_of_le hnone hle)

/-- Around a cycle. -/
theorem steps_mul (h : steps next n y = some y) (k : Nat) : steps next (n * k) y = some y := by
  induction k with
  | zero => rfl
  | succ k ih => rw [Nat.mul_succ, steps_add, ih, Option.bind_some, h]

theorem Cycles.steps_isSome (h : Cycles next x) (n : Nat) : (steps next n x).isSome := by
  obtain ⟨m, k, y, hreach, hpos, hcycle⟩ := h
  have hle : n ≤ m + k * n := (Nat.le_mul_of_pos_left n hpos).trans (Nat.le_add_left ..)
  refine isSome_of_le ?_ hle
  rw [steps_add, hreach, Option.bind_some, steps_mul hcycle]
  rfl

/-- Two visits of one place. -/
theorem cycles_of_eq (hlt : m < n) (hm : steps next m x = some y) (hn : steps next n x = some y) :
    Cycles next x := by
  refine ⟨m, n - m, y, hm, Nat.sub_pos_of_lt hlt, ?_⟩
  rwa [← Nat.add_sub_cancel' (Nat.le_of_lt hlt), steps_add, hm, Option.bind_some] at hn

/-- **The measure.** Without a cycle every place is visited once. -/
theorem steps_eq_none (S : Finset α) (hS : ∀ x, (next x).isSome → x ∈ S) (h : ¬ Cycles next x) :
    steps next (S.card + 1) x = none := by
  rw [← Option.not_isSome_iff_eq_none]
  intro hsome
  have hvisit : ∀ k ∈ Finset.range (S.card + 1), ∃ y ∈ S, steps next k x = some y := by
    intro k hk
    have hk := Finset.mem_range.mp hk
    obtain ⟨y, hy⟩ := Option.isSome_iff_exists.mp (isSome_of_le hsome (Nat.le_of_lt hk))
    have hnext := isSome_of_le hsome (Nat.succ_le_of_lt hk)
    rw [Nat.succ_eq_add_one, steps_add, hy, Option.bind_some, steps, Option.isSome_bind] at hnext
    refine ⟨y, hS y ?_, hy⟩
    cases hstep : next y with
    | none =>
      rw [hstep] at hnext
      cases hnext
    | some z => rfl
  have : Nonempty α := ⟨x⟩
  choose! place hmem hplace using hvisit
  have hcard : S.card < (Finset.range (S.card + 1)).card := by
    rw [Finset.card_range]
    exact Nat.lt_succ_self _
  have hmaps : Set.MapsTo place (Finset.range (S.card + 1)) S :=
    fun k hk => hmem k (Finset.mem_coe.mp hk)
  obtain ⟨i, hi, j, hj, hne, heq⟩ :=
    Finset.exists_ne_map_eq_of_card_lt_of_maps_to hcard hmaps
  rcases Nat.lt_or_gt_of_ne hne with hlt | hlt
  · exact h (cycles_of_eq hlt (hplace i hi) (heq ▸ hplace j hj))
  · exact h (cycles_of_eq hlt (hplace j hj) (heq ▸ hplace i hi))

/-- A walk ends if and only if it does not come to a cycle. -/
theorem halts_iff (S : Finset α) (hS : ∀ x, (next x).isSome → x ∈ S) :
    (∃ n, steps next n x = none) ↔ ¬ Cycles next x := by
  constructor
  · rintro ⟨n, hn⟩ h
    have := h.steps_isSome n
    rw [hn] at this
    cases this
  · exact fun h => ⟨_, steps_eq_none S hS h⟩

end PartialWalk
