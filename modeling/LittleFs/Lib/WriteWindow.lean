import Mathlib.Data.List.Basic

/-! A write buffer that holds one window of one target at a time: bytes are put into the window,
and the window is programmed into its target. `Disciplined` says of the events of a run, newest
first, that no window is opened over bytes that are still held, and that what is programmed into a
target is what was put into the window of that target. -/

namespace WriteWindow

variable {β α : Type*}

inductive Event (β α : Type*) where
  | opened (target : β)
  | put (target : β) (offset : Nat) (bytes : List α)
  | programmed (target : β) (offset : Nat) (bytes : List α)
  | emptied
  deriving DecidableEq, Repr

/-- The target whose window is open after the events. -/
def held : List (Event β α) → Option β
  | [] => none
  | .opened target :: _ => some target
  | .put .. :: pre => held pre
  | .programmed .. :: pre => held pre
  | .emptied :: _ => none

/-- What was put at an offset since the window was opened. -/
def pending : List (Event β α) → Nat → Option α
  | .put _ offset bytes :: pre, i =>
    if offset ≤ i ∧ i < offset + bytes.length then bytes[i - offset]? else pending pre i
  | .programmed .. :: pre, i => pending pre i
  | _, _ => none

/-- No bytes are lost under a new window, and none reach another target than their own. -/
def Disciplined : List (Event β α) → Prop
  | [] => True
  | .opened _ :: pre => held pre = none ∧ Disciplined pre
  | .put target _ _ :: pre => held pre = some target ∧ Disciplined pre
  | .programmed target offset bytes :: pre =>
    (held pre = some target ∧
      ∀ i x, pending pre i = some x → offset ≤ i ∧ bytes[i - offset]? = some x) ∧ Disciplined pre
  | .emptied :: pre => Disciplined pre

theorem Disciplined.of_append {post pre : List (Event β α)} (h : Disciplined (post ++ pre)) :
    Disciplined pre := by
  induction post with
  | nil => exact h
  | cons e post ih => cases e <;> first | exact ih h.2 | exact ih h

/-- Every window is opened on an empty buffer. -/
theorem Disciplined.held_of_opened {post pre : List (Event β α)}
    (h : Disciplined (post ++ .opened target :: pre)) : held pre = none := h.of_append.1

end WriteWindow
