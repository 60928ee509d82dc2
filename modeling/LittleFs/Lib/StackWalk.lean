import Mathlib.Data.List.Basic

/-! Walks down and up a tree: a list of moves, each of which goes down by a name or takes back the
last name that is left. The names that are left can be kept on a stack, or found by looking ahead
from each name for the move that takes it back. -/

namespace StackWalk

variable {α : Type _}

inductive Move (α : Type _) where
  | down (name : α)
  | up
  deriving DecidableEq

/-- A move, with the names on the way to where the walk is, the last one first. At the top there
is nothing to take back. -/
def step (stack : List α) : Move α → List α
  | .down name => name :: stack
  | .up => stack.tail

/-- The names that are left of a walk. -/
def walk (moves : List (Move α)) : List α := (moves.foldl step []).reverse

/-- How many levels above its start a walk gets. -/
def overdraw : List (Move α) → Nat
  | [] => 0
  | .down _ :: moves => overdraw moves - 1
  | .up :: moves => overdraw moves + 1

/-- The names that no move behind them takes back. -/
def kept : List (Move α) → List α
  | [] => []
  | .down name :: moves => if overdraw moves = 0 then name :: kept moves else kept moves
  | .up :: moves => kept moves

theorem foldl_step (moves : List (Move α)) (stack : List α) :
    moves.foldl step stack = (kept moves).reverse ++ stack.drop (overdraw moves) := by
  induction moves generalizing stack with
  | nil => rfl
  | cons move moves ih =>
    rw [List.foldl_cons, ih]
    cases move with
    | up => rw [kept, overdraw, step, List.drop_tail]
    | down name =>
      rw [kept, overdraw, step]
      cases overdraw moves with
      | zero => rw [if_pos rfl, List.reverse_cons, List.append_assoc]; rfl
      | succ n => rw [if_neg n.succ_ne_zero, List.drop_succ_cons]; rfl

/-- **The stack keeps what looking ahead does.** -/
theorem walk_eq_kept (moves : List (Move α)) : walk moves = kept moves := by
  rw [walk, foldl_step, List.drop_nil, List.append_nil, List.reverse_reverse]

/-! ## Looking ahead -/

/-- What follows the move that takes the walk the given number of levels above its start. -/
def resume : (depth : Nat) → List (Move α) → Option (List (Move α))
  | _, [] => none
  | depth, .down _ :: moves => resume (depth + 1) moves
  | depth, .up :: moves => if depth = 1 then some moves else resume (depth - 1) moves

theorem resume_eq_none (h : 0 < depth) {moves : List (Move α)} :
    resume depth moves = none ↔ overdraw moves < depth := by
  induction moves generalizing depth with
  | nil => exact ⟨fun _ => h, fun _ => rfl⟩
  | cons move moves ih =>
    cases move with
    | down name =>
      rw [resume, overdraw, ih (Nat.succ_pos depth)]
      omega
    | up =>
      rw [resume, overdraw]
      split
      · subst depth
        exact ⟨fun h => (by cases h), fun h => by omega⟩
      · rw [ih (by omega)]
        omega

/-- Up to there all names are taken back. -/
theorem kept_resume (h : 0 < depth) {moves : List (Move α)}
    (hresume : resume depth moves = some rest) :
    kept moves = kept rest := by
  induction moves generalizing depth with
  | nil => cases hresume
  | cons move moves ih =>
    cases move with
    | down name =>
      rw [resume] at hresume
      have hiff : resume (depth + 1) moves = none ↔ overdraw moves < depth + 1 :=
        resume_eq_none (Nat.succ_pos depth)
      have hnone := hiff.not.mp (by
        rw [hresume]
        exact fun h => by cases h)
      rw [kept, if_neg (by omega), ih (Nat.succ_pos depth) hresume]
    | up =>
      rw [resume] at hresume
      rw [kept]
      split at hresume
      · rw [Option.some.inj hresume]
      · exact ih (by omega) hresume

/-! ## Names that do not count -/

def Move.isUp : Move α → Bool
  | .down _ => false
  | .up => true

/-- A move down by a name under `p`. -/
def Move.isDown (p : α → Bool) : Move α → Bool
  | .down name => p name
  | .up => false

/-- The moves that are left when only the names under `p` are gone down by. -/
def Move.only (p : α → Bool) : Move α → Bool
  | .down name => p name
  | .up => true

/-- A walk gets `d` levels above its start when in some part from its beginning the moves up
outnumber those down by so many. -/
theorem le_overdraw_iff (p : α → Bool) (moves : List (Move α)) (d : Nat) :
    d ≤ overdraw (moves.filter (Move.only p)) ↔
      ∃ n, (moves.take n).countP (Move.isDown p) + d ≤ (moves.take n).countP Move.isUp := by
  induction moves generalizing d with
  | nil => simp [overdraw]
  | cons move moves ih =>
    have hcons : (∃ n, ((move :: moves).take n).countP (Move.isDown p) + d ≤
        ((move :: moves).take n).countP Move.isUp) ↔
        d = 0 ∨ ∃ n, (move :: moves.take n).countP (Move.isDown p) + d ≤
          (move :: moves.take n).countP Move.isUp := by
      constructor
      · rintro ⟨n, h⟩
        cases n with
        | zero => exact .inl (by simpa using h)
        | succ n => exact .inr ⟨n, h⟩
      · rintro (rfl | ⟨n, h⟩)
        · exact ⟨0, Nat.le_refl 0⟩
        · exact ⟨n + 1, h⟩
    rw [hcons]
    simp only [List.countP_cons]
    cases move with
    | down name =>
      by_cases hp : p name = true
      · have hrest := ih (d + 1)
        simp only [List.filter_cons, Move.only, Move.isDown, Move.isUp, hp, overdraw,
          Nat.add_right_comm _ 1 d, ← Nat.add_assoc, Bool.false_eq_true, ↓reduceIte,
          Nat.add_zero] at hrest ⊢
        rw [← hrest]
        omega
      · simp only [List.filter_cons, Move.only, Move.isDown, Move.isUp, hp, Bool.false_eq_true,
          ↓reduceIte, Nat.add_zero, ← ih]
        omega
    | up =>
      simp only [List.filter_cons, Move.only, Move.isDown, Move.isUp, overdraw, Bool.false_eq_true,
        ↓reduceIte, Nat.add_zero]
      cases d with
      | zero => simp
      | succ d =>
        have hrest := ih d
        simp only [← Nat.add_assoc, Nat.add_le_add_iff_right, ← hrest]
        omega

theorem overdraw_le_only (p : α → Bool) (moves : List (Move α)) :
    overdraw moves ≤ overdraw (moves.filter (Move.only p)) := by
  induction moves with
  | nil => exact Nat.le_refl 0
  | cons move moves ih =>
    cases move with
    | down name =>
      rw [List.filter_cons]
      split
      · rw [overdraw, overdraw]
        omega
      · rw [overdraw]
        omega
    | up =>
      rw [List.filter_cons_of_pos rfl, overdraw, overdraw]
      omega

theorem kept_only_sublist (p : α → Bool) (moves : List (Move α)) :
    (kept (moves.filter (Move.only p))).Sublist ((kept moves).filter p) := by
  induction moves with
  | nil => exact .slnil
  | cons move moves ih =>
    cases move with
    | up => rwa [List.filter_cons_of_pos rfl, kept, kept]
    | down name =>
      have hle := overdraw_le_only p moves
      by_cases hp : p name = true
      · rw [List.filter_cons_of_pos (show Move.only p (.down name) = true from hp), kept, kept]
        by_cases hzero : overdraw moves = 0
        · rw [if_pos hzero, List.filter_cons_of_pos hp]
          split
          · exact ih.cons_cons name
          · exact ih.cons name
        · rw [if_neg hzero, if_neg (by omega)]
          exact ih
      · rw [List.filter_cons_of_neg (show ¬ Move.only p (.down name) = true from hp), kept]
        split
        · rwa [List.filter_cons_of_neg hp]
        · exact ih

/-- No name under `p` is taken back only because the other names do not count. -/
def Harmless (p : α → Bool) (moves : List (Move α)) : Prop :=
  ∀ before name behind, moves = before ++ .down name :: behind → p name = true →
    0 < overdraw (behind.filter (Move.only p)) → 0 < overdraw behind

theorem harmless_cons (p : α → Bool) (move : Move α) (moves : List (Move α)) :
    Harmless p (move :: moves) ↔ (∀ name, move = .down name → p name = true →
      0 < overdraw (moves.filter (Move.only p)) → 0 < overdraw moves) ∧ Harmless p moves := by
  constructor
  · intro h
    refine ⟨fun name hmove => h [] name moves (by rw [hmove]; rfl),
      fun before name behind hmoves => h (move :: before) name behind (by rw [hmoves]; rfl)⟩
  · rintro ⟨hhead, htail⟩ before name behind hmoves
    cases before with
    | nil =>
      obtain ⟨rfl, rfl⟩ := List.cons_eq_cons.mp hmoves
      exact hhead name rfl
    | cons move' before =>
      obtain ⟨rfl, rfl⟩ := List.cons_eq_cons.mp hmoves
      exact htail before name behind rfl

/-- **When the other names may as well count.** -/
theorem kept_only_iff (p : α → Bool) (moves : List (Move α)) :
    (kept moves).filter p = kept (moves.filter (Move.only p)) ↔ Harmless p moves := by
  induction moves with
  | nil =>
    refine ⟨fun _ before name behind h => ?_, fun _ => rfl⟩
    exact absurd h (List.append_ne_nil_of_right_ne_nil _ (List.cons_ne_nil _ _)).symm
  | cons move moves ih =>
    rw [harmless_cons, ← ih]
    cases move with
    | up =>
      rw [List.filter_cons_of_pos rfl, kept, kept]
      exact ⟨fun h => ⟨fun _ h => (by cases h), h⟩, And.right⟩
    | down name =>
      have hle := overdraw_le_only p moves
      by_cases hp : p name = true
      · rw [List.filter_cons_of_pos (show Move.only p (.down name) = true from hp), kept, kept]
        by_cases hzero : overdraw moves = 0
        · rw [if_pos hzero, List.filter_cons_of_pos hp]
          split
          · rename_i hzero'
            rw [List.cons_inj_right, hzero']
            exact ⟨fun h => ⟨fun _ _ _ h => absurd h (Nat.lt_irrefl 0), h⟩, And.right⟩
          · -- one name more is kept
            rename_i hne
            have hlen := (kept_only_sublist p moves).length_le
            constructor
            · intro h
              have := congrArg List.length h
              rw [List.length_cons] at this
              omega
            · rintro ⟨h, _⟩
              have := h name rfl hp (Nat.pos_of_ne_zero hne)
              omega
        · rw [if_neg hzero, if_neg (by omega)]
          exact ⟨fun h => ⟨fun _ _ _ _ => Nat.pos_of_ne_zero hzero, h⟩, And.right⟩
      · have hfilter : (kept (Move.down name :: moves)).filter p = (kept moves).filter p := by
          rw [kept]
          split
          · rw [List.filter_cons_of_neg hp]
          · rfl
        rw [List.filter_cons_of_neg (show ¬ Move.only p (.down name) = true from hp), hfilter]
        refine ⟨fun h => ⟨fun name' hname hp' => ?_, h⟩, And.right⟩
        cases hname
        exact absurd hp' hp

end StackWalk
