import Mathlib.Data.List.Basic

/-! Programs on a state whose loops are bounded by fuel: a program that runs out of it keeps the
state that it has come to. `Ensures` is the weakest precondition: what holds when the program
returns, and what holds of the state when it runs out of fuel. `Keeps` is the judgement for an
invariant, which holds in both cases. -/

namespace StateLogic

/-- A program on `σ`; it returns nothing when the fuel runs out. -/
def Prog (σ α : Type) : Type := σ → Option α × σ

variable {σ τ α β : Type}

instance : Monad (Prog σ) where
  pure a := fun s => (some a, s)
  bind m f := fun s =>
    match m s with
    | (some a, s) => f a s
    | (none, s) => (none, s)

namespace Prog

def get : Prog σ σ := fun s => (some s, s)

def modify (f : σ → σ) : Prog σ Unit := fun s => (some (), f s)

/-- The fuel has run out. -/
def stop : Prog σ α := fun s => (none, s)

/-- A program on a part of the state. -/
def within (get : τ → σ) (set : τ → σ → τ) (m : τ → Prog σ α) : Prog τ α := fun t =>
  ((m t (get t)).1, set t (m t (get t)).2)

/-- The program returns so that `Q` holds, or runs out of fuel so that `E` does. -/
def Ensures (m : Prog σ α) (s : σ) (Q : α → σ → Prop) (E : σ → Prop) : Prop :=
  match m s with
  | (some a, s') => Q a s'
  | (none, s') => E s'

variable {m : Prog σ α} {f : α → Prog σ β} {s : σ} {Q Q' : α → σ → Prop} {R : β → σ → Prop}
  {E E' : σ → Prop}

theorem Ensures.bind (hm : m.Ensures s Q E) (hf : ∀ a s', Q a s' → (f a).Ensures s' R E) :
    Ensures (m >>= f) s R E := by
  unfold Ensures at hm ⊢
  change match (match m s with
    | (some a, s) => f a s
    | (none, s) => (none, s)) with
    | (some a, s') => R a s'
    | (none, s') => E s'
  split at hm
  · exact hf _ _ hm
  · exact hm

theorem Ensures.mono (hm : m.Ensures s Q E) (hQ : ∀ a s', Q a s' → Q' a s')
    (hE : ∀ s', E s' → E' s') : m.Ensures s Q' E' := by
  unfold Ensures at hm ⊢
  split at hm
  · exact hQ _ _ hm
  · exact hE _ hm

theorem Ensures.ite {c : Prop} [Decidable c] {m' : Prog σ α} (hm : c → m.Ensures s Q E)
    (hm' : ¬ c → m'.Ensures s Q E) : (if c then m else m').Ensures s Q E := by
  split
  · exact hm ‹_›
  · exact hm' ‹_›

/-! ## Invariants -/

/-- From a state with `I` the program comes to states with `I` only, and returns so that `Q`
holds. -/
structure Keeps (I : σ → Prop) (m : Prog σ α) (s : σ) (Q : α → σ → Prop) : Prop where
  ensures : I s → m.Ensures s (fun a s' => I s' ∧ Q a s') I

variable {I : σ → Prop}

theorem Keeps.pure {a : α} (h : Q a s) : Keeps I (Pure.pure a) s Q := ⟨fun hI => ⟨hI, h⟩⟩

theorem Keeps.bind (hm : Keeps I m s Q) (hf : ∀ a s', Q a s' → Keeps I (f a) s' R) :
    Keeps I (m >>= f) s R :=
  ⟨fun hI => (hm.ensures hI).bind fun a s' h => (hf a s' h.2).ensures h.1⟩

theorem Keeps.mono (hm : Keeps I m s Q) (hQ : ∀ a s', Q a s' → Q' a s') : Keeps I m s Q' :=
  ⟨fun hI => (hm.ensures hI).mono (fun a s' h => ⟨h.1, hQ a s' h.2⟩) fun _ h => h⟩

/-- What is read is the state. -/
theorem Keeps.get_bind {f : σ → Prog σ β} (h : Keeps I (f s) s R) :
    Keeps I (Prog.get >>= f) s R := ⟨h.ensures⟩

theorem Keeps.modify_bind {f : Unit → Prog σ β} {g : σ → σ} (hI : I s → I (g s))
    (h : Keeps I (f ()) (g s) R) : Keeps I (Prog.modify g >>= f) s R :=
  ⟨fun hs => h.ensures (hI hs)⟩

theorem Keeps.stop : Keeps I (Prog.stop : Prog σ α) s Q := ⟨fun hI => hI⟩

theorem Keeps.ite {c : Prop} [Decidable c] {m' : Prog σ α} (hm : c → Keeps I m s Q)
    (hm' : ¬ c → Keeps I m' s Q) : Keeps I (if c then m else m') s Q :=
  ⟨fun hI => Ensures.ite (fun h => (hm h).ensures hI) fun h => (hm' h).ensures hI⟩

/-- What is known of the return, with the run itself. -/
theorem Keeps.attach (hm : Keeps I m s Q) :
    Keeps I m s fun a s' => Q a s' ∧ m s = (some a, s') := by
  refine ⟨fun hI => ?_⟩
  have hm := hm.ensures hI
  unfold Ensures at hm ⊢
  rcases heq : m s with ⟨_ | a, s'⟩ <;> rw [heq] at hm
  · exact hm
  · exact ⟨hm.1, hm.2, rfl⟩

/-- Two invariants. -/
theorem Keeps.and {J : σ → Prop} {R : α → σ → Prop} (hm : Keeps I m s Q) (hm' : Keeps J m s R) :
    Keeps (fun s => I s ∧ J s) m s fun a s' => Q a s' ∧ R a s' := by
  refine ⟨fun h => ?_⟩
  have hm := hm.ensures h.1
  have hm' := hm'.ensures h.2
  unfold Ensures at hm hm' ⊢
  rcases heq : m s with ⟨_ | a, s'⟩ <;> rw [heq] at hm hm'
  · exact ⟨hm, hm'⟩
  · exact ⟨⟨hm.1, hm'.1⟩, hm.2, hm'.2⟩

/-- An invariant that is kept from here on is stronger. -/
theorem Keeps.weaken {J : σ → Prop} (hm : Keeps J m s Q) (hJ : J s) (hI : ∀ s, J s → I s) :
    Keeps I m s fun a s' => J s' ∧ Q a s' :=
  ⟨fun _ => (hm.ensures hJ).mono (fun _ s' h => ⟨hI s' h.1, h⟩) hI⟩

/-- What a program on a part of the state keeps and returns. -/
theorem Keeps.within {get : τ → σ} {set : τ → σ → τ} {m : τ → Prog σ α} {t : τ} {I : τ → Prop}
    {J : σ → Prop} (hm : Keeps J (m t) (get t) Q) (hJ : J (get t)) (hI : ∀ s, J s → I (set t s)) :
    Keeps I (Prog.within get set m) t fun a t' => ∃ s, t' = set t s ∧ J s ∧ Q a s := by
  refine ⟨fun _ => ?_⟩
  have hm := hm.ensures hJ
  unfold Ensures at hm ⊢
  unfold Prog.within
  rcases heq : m t (get t) with ⟨_ | a, s'⟩ <;> rw [heq] at hm
  · exact hI _ hm
  · exact ⟨hI _ hm.1, _, rfl, hm⟩

/-- The state that the program comes to, with or without fuel. -/
theorem Keeps.holds (hm : Keeps I m s Q) (h : I s) : I (m s).2 := by
  have hm := hm.ensures h
  unfold Ensures at hm
  split at hm <;> rename_i heq
  · rw [heq]
    exact hm.1
  · rw [heq]
    exact hm

end Prog

end StateLogic
