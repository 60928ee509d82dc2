import Mathlib.Data.List.Basic

/-! Runs of a partial step function over a list of actions, with the two rules every run proof
uses: an invariant of the steps holds at the end of a run, and a forward simulation of steps
lifts to runs. -/

namespace Run

variable {σ τ α : Type*}

/-- The state after the actions in order, `none` as soon as one of them is not possible. -/
def exec (step : σ → α → Option σ) : σ → List α → Option σ
  | s, [] => some s
  | s, a :: as => (step s a).bind fun s' => exec step s' as

@[simp] theorem exec_nil (step : σ → α → Option σ) (s : σ) : exec step s [] = some s := rfl

theorem exec_cons {step : σ → α → Option σ} :
    exec step s (a :: as) = some s'' ↔ ∃ s', step s a = some s' ∧ exec step s' as = some s'' := by
  simp only [exec, Option.bind_eq_some_iff]

/-- **Simulation.** Every run of the abstract steps is matched by a run of the concrete ones. -/
theorem exec_simulation {cstep : σ → α → Option σ} {astep : τ → α → Option τ} {R : σ → τ → Prop}
    (hstep : ∀ c s a s', R c s → astep s a = some s' → ∃ c', cstep c a = some c' ∧ R c' s')
    (h : exec astep s as = some s') (hR : R c s) :
    ∃ c', exec cstep c as = some c' ∧ R c' s' := by
  induction as generalizing s c with
  | nil =>
    cases h
    exact ⟨c, rfl, hR⟩
  | cons a as ih =>
    obtain ⟨s₁, hs, hrest⟩ := exec_cons.mp h
    obtain ⟨c₁, hc, hR₁⟩ := hstep c s a s₁ hR hs
    obtain ⟨c', hc', hR'⟩ := ih hrest hR₁
    exact ⟨c', exec_cons.mpr ⟨c₁, hc, hc'⟩, hR'⟩

/-- Runs of a nondeterministic step relation all of whose steps meet `P`. -/
inductive Runs (step : σ → α → σ → Prop) (P : σ → α → Prop) : σ → σ → Prop where
  | refl : Runs step P s s
  | step : Runs step P s s' → P s' a → step s' a s'' → Runs step P s s''

/-- **Invariant rule.** What the allowed steps preserve holds at the end of every run. -/
theorem Runs.invariant {step : σ → α → σ → Prop} {P : σ → α → Prop} {I : σ → Prop}
    (hstep : ∀ s a s', I s → P s a → step s a s' → I s') (h : Runs step P s s') (hI : I s) :
    I s' := by
  induction h with
  | refl => exact hI
  | step _ hP hs ih => exact hstep _ _ _ ih hP hs

theorem Runs.trans {step : σ → α → σ → Prop} {P : σ → α → Prop} (h : Runs step P s s')
    (h' : Runs step P s' s'') : Runs step P s s'' := by
  induction h' with
  | refl => exact h
  | step _ hP hs ih => exact ih.step hP hs

/-- A run of a step function that checks `P` on the way. -/
theorem Runs.of_exec {step : σ → α → Option σ} {P : σ → α → Prop} [∀ s a, Decidable (P s a)]
    (h : exec (fun s a => if P s a then step s a else none) s as = some s') :
    Runs (fun s a s' => step s a = some s') P s s' := by
  induction as generalizing s with
  | nil =>
    cases h
    exact .refl
  | cons a as ih =>
    obtain ⟨s₁, hs, hrest⟩ := exec_cons.mp h
    split at hs
    · rename_i hP
      exact (Runs.refl.step hP hs).trans (ih hrest)
    · cases hs

end Run
