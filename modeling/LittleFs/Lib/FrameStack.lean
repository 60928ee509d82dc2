import Mathlib.Logic.Function.Iterate
import Mathlib.Order.RelClasses

/-! Machines with a stack of frames, each of which has a rank, the lowest frame first. A step lowers
the rank of one frame and does as it likes above it: it may push frames there, or have popped them.
When the stack stays bounded such a machine comes to an end. -/

namespace FrameStack

variable {α : Type*} [LT α]

/-- `Lowers s' s`: from `s` to `s'` one frame is lowered and the ones below it stay. -/
inductive Lowers : List α → List α → Prop where
  | top : a' < a → Lowers (a' :: post') (a :: post)
  | above : Lowers post' post → Lowers (a :: post') (a :: post)

theorem Lowers.append (h : Lowers post' post) (pre : List α) :
    Lowers (pre ++ post') (pre ++ post) := by
  induction pre with
  | nil => exact h
  | cons a pre ih => exact .above ih

/-- Stacks of bounded depth cannot be lowered for ever. -/
theorem acc_of_depth [WellFoundedLT α] (depth : Nat) (ranks : List α) :
    Acc (fun s' s => Lowers s' s ∧ s'.length ≤ depth) ranks := by
  induction depth generalizing ranks with
  | zero =>
    refine ⟨_, fun s' h => ?_⟩
    obtain ⟨h, hlen⟩ := h
    cases h <;> exact absurd hlen (Nat.not_succ_le_zero _)
  | succ depth ih =>
    cases ranks with
    | nil => exact ⟨_, fun s' h => by cases h.1⟩
    | cons a post =>
      -- by induction on the lowest frame, and for the same lowest frame on what is above it
      induction a using WellFoundedLT.induction generalizing post with
      | _ a iha =>
        induction ih post with
        | intro post _ ihpost =>
          refine ⟨_, fun s' h => ?_⟩
          obtain ⟨h, hlen⟩ := h
          cases h with
          | top hlt => exact iha _ hlt _
          | above h => exact ihpost _ ⟨h, Nat.le_of_succ_le_succ hlen⟩

/-- **Termination.** A machine whose steps lower its ranks, on a stack that stays bounded. -/
theorem terminates [WellFoundedLT α] {σ : Type*} {step : σ → σ} {ranks : σ → List α}
    {Inv Done : σ → Prop} {depth : Nat} {s : σ} (hdepth : ∀ s, Inv s → (ranks s).length ≤ depth)
    (hstep : ∀ s, Inv s → ¬ Done s → Inv (step s) ∧ Lowers (ranks (step s)) (ranks s))
    (h : Inv s) : ∃ n, Done (step^[n] s) := by
  have hacc := acc_of_depth depth (ranks s)
  generalize hr : ranks s = r at hacc
  induction hacc generalizing s with
  | intro r _ ih =>
    subst hr
    by_cases hdone : Done s
    · exact ⟨0, hdone⟩
    · obtain ⟨hinv, hlow⟩ := hstep s h hdone
      obtain ⟨n, hn⟩ := ih _ ⟨hlow, hdepth _ hinv⟩ hinv rfl
      exact ⟨n + 1, hn⟩

end FrameStack
