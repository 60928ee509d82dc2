import Mathlib.Data.List.Basic
import Mathlib.Logic.Function.Basic

/-! Lists that are linked through their nodes: a pointer to the first node and one in each node to
the next. Nodes are put in front, looked for and unlinked through the pointers. -/

namespace LinkedList

variable {α : Type*}

/-- The pointers: to the first node, and out of each node. -/
structure Links (α : Type*) where
  head : Option α
  next : α → Option α

/-- The nodes that come from a pointer on. -/
inductive IsList (next : α → Option α) : Option α → List α → Prop
  | nil : IsList next none []
  | cons : IsList next (next a) xs → IsList next (some a) (a :: xs)

/-- A node in front of the list. -/
def Links.prepend [DecidableEq α] (l : Links α) (a : α) : Links α :=
  ⟨some a, Function.update l.next a l.head⟩

/-- A pointer: the one to the first node, or the one in a node. -/
def Links.read (l : Links α) : (cell : Option α) → Option α
  | none => l.head
  | some a => l.next a

def Links.write [DecidableEq α] (l : Links α) (p : Option α) : (cell : Option α) → Links α
  | none => { l with head := p }
  | some a => { l with next := Function.update l.next a p }

/-- Whether a node comes from a pointer on; `none` when `fuel` nodes are not enough. -/
def contains [DecidableEq α] (next : α → Option α) (a : α) : (fuel : Nat) → Option α → Option Bool
  | 0, _ => none
  | _ + 1, none => some false
  | fuel + 1, some b => if b = a then some true else contains next a fuel (next b)

/-- The loop that unlinks the first occurrence of a node, from a pointer on. -/
def Links.unlink [DecidableEq α] (l : Links α) (a : α) : (fuel : Nat) → Option α → Option (Links α)
  | 0, _ => none
  | fuel + 1, cell =>
    match l.read cell with
    | none => some l
    | some b => if b = a then some (l.write (l.next b) cell) else Links.unlink l a fuel (some b)

section
variable {next next' : α → Option α} {p : Option α} {xs ys : List α} {a : α}

/-- **Frame.** Only the pointers of the nodes matter. -/
theorem IsList.congr (H : IsList next p xs) (h : ∀ a ∈ xs, next' a = next a) :
    IsList next' p xs := by
  induction H with
  | nil => exact .nil
  | @cons a xs hrest ih =>
    obtain ⟨ha, hxs⟩ := List.forall_mem_cons.mp h
    exact .cons (ha ▸ ih hxs)

theorem IsList.unique (H : IsList next p xs) (H' : IsList next p ys) : xs = ys := by
  induction H generalizing ys with
  | nil =>
    cases H'
    rfl
  | cons _ ih =>
    cases H' with
    | cons hrest => rw [ih hrest]

theorem IsList.prepend [DecidableEq α] {l : Links α} (H : IsList l.next l.head xs) (ha : a ∉ xs) :
    IsList (l.prepend a).next (l.prepend a).head (a :: xs) := by
  have hself : (l.prepend a).next a = l.head := Function.update_self ..
  refine .cons ?_
  rw [hself]
  exact H.congr fun b hb => Function.update_of_ne (ne_of_mem_of_not_mem hb ha) ..

theorem IsList.contains [DecidableEq α] (H : IsList next p xs) (a : α) (hfuel : xs.length < fuel) :
    contains next a fuel p = some (decide (a ∈ xs)) := by
  induction H generalizing fuel with
  | nil =>
    cases fuel with
    | zero => exact absurd hfuel (Nat.not_lt_zero _)
    | succ fuel => rfl
  | @cons b xs hrest ih =>
    cases fuel with
    | zero => exact absurd hfuel (Nat.not_lt_zero _)
    | succ fuel =>
      rw [LinkedList.contains]
      by_cases hb : b = a
      · rw [if_pos hb, decide_eq_true (hb ▸ List.mem_cons_self ..)]
      · have hmem : a ∈ b :: xs ↔ a ∈ xs := by
          rw [List.mem_cons]
          exact or_iff_right (Ne.symm hb)
        rw [if_neg hb, ih (Nat.lt_of_succ_lt_succ hfuel)]
        exact congrArg some (decide_eq_decide.mpr hmem.symm)

/-- The loop from any pointer of the list on; it leaves the pointers before alone. -/
theorem IsList.unlink_cell [DecidableEq α] {l : Links α} (cell : Option α)
    (H : IsList l.next (l.read cell) xs) (hnodup : xs.Nodup) (hcell : ∀ c ∈ cell, c ∉ xs) (a : α)
    (hfuel : xs.length < fuel) :
    ∃ l', l.unlink a fuel cell = some l' ∧ IsList l'.next (l'.read cell) (xs.erase a) ∧
      (∀ c ∉ cell, c ∉ xs → l'.next c = l.next c) ∧ (cell ≠ none → l'.head = l.head) := by
  induction xs generalizing cell fuel with
  | nil =>
    cases fuel with
    | zero => exact absurd hfuel (Nat.not_lt_zero _)
    | succ fuel =>
      have hnone : l.read cell = none := by
        generalize l.read cell = p at H
        cases H
        rfl
      rw [Links.unlink, hnone]
      exact ⟨l, rfl, by rw [hnone]; exact .nil, fun _ _ _ => rfl, fun _ => rfl⟩
  | cons b xs ih =>
    cases fuel with
    | zero => exact absurd hfuel (Nat.not_lt_zero _)
    | succ fuel =>
      obtain ⟨hb, hnodup⟩ := List.nodup_cons.mp hnodup
      obtain ⟨hread, hrest⟩ : l.read cell = some b ∧ IsList l.next (l.next b) xs := by
        generalize l.read cell = p at H
        cases H with
        | cons hrest => exact ⟨rfl, hrest⟩
      rw [Links.unlink, hread]
      dsimp only
      by_cases hba : b = a
      · subst hba
        rw [if_pos rfl, List.erase_cons_head]
        cases cell with
        | none => exact ⟨_, rfl, hrest, fun _ _ _ => rfl, fun h => absurd rfl h⟩
        | some c =>
          have hc := List.not_mem_of_not_mem_cons (hcell c rfl)
          refine ⟨_, rfl, ?_, fun d hd _ => ?_, fun _ => rfl⟩
          · have hnew : (l.write (l.next b) (some c)).read (some c) = l.next b :=
              Function.update_self ..
            rw [hnew]
            exact hrest.congr fun d hd => Function.update_of_ne (ne_of_mem_of_not_mem hd hc) ..
          · exact Function.update_of_ne (fun h => hd (congrArg some h.symm)) ..
      · rw [if_neg hba, List.erase_cons_tail (by simpa using hba)]
        obtain ⟨l', hloop, hlist, hframe, hhead⟩ := ih (some b) hrest hnodup
          (fun c hc => by cases hc; exact hb) (Nat.lt_of_succ_lt_succ hfuel)
        have hhead := hhead (fun h => by cases h)
        have hout : ∀ c ∉ cell, c ∉ b :: xs → l'.next c = l.next c := fun c _ hc => by
          obtain ⟨hcb, hcxs⟩ := List.ne_and_not_mem_of_not_mem_cons hc
          exact hframe c (fun h => hcb (Option.some.inj h).symm) hcxs
        refine ⟨l', hloop, ?_, hout, fun _ => hhead⟩
        -- the pointer itself is one of those before
        have hsame : l'.read cell = some b := by
          rw [← hread]
          cases cell with
          | none => exact hhead
          | some c =>
            obtain ⟨hcb, hcxs⟩ := List.ne_and_not_mem_of_not_mem_cons (hcell c rfl)
            exact hframe c (fun h => hcb (Option.some.inj h).symm) hcxs
        rw [hsame]
        exact .cons hlist

/-- **Unlinking.** The loop leaves the other nodes in their order. -/
theorem IsList.unlink [DecidableEq α] {l : Links α} (H : IsList l.next l.head xs)
    (hnodup : xs.Nodup) (a : α) (hfuel : xs.length < fuel) :
    ∃ l', l.unlink a fuel none = some l' ∧ IsList l'.next l'.head (xs.erase a) := by
  obtain ⟨l', hloop, hlist, -⟩ :=
    IsList.unlink_cell (l := l) none H hnodup (fun c hc => by cases hc) a hfuel
  exact ⟨l', hloop, hlist⟩

end

end LinkedList
