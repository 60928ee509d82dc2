import Mathlib.Data.List.Perm.Basic

/-! A scan through calls that may fail. Each call follows a link or looks an item up; a failed call
ends the scan, but some failures of a lookup read as if there were no item, and it goes on. -/

namespace FaultyScan

variable {α β ε : Type*}

/-- A call of a scan: to follow a link, or to look up what may be there. -/
inductive Call (α : Type*)
  | link
  | item (shown : Option α)

def Call.shown : Call α → Option α
  | .link => none
  | .item r => r

theorem Call.shown_item (a : α) : (Call.item (some a)).shown = some a := rfl

/-- What a call does to the search for the next item. -/
inductive Outcome (ε α : Type*)
  | pass
  | found (a : α)
  | failed (e : ε)

/-- What a search for the next item comes to. -/
inductive Result (ε α : Type*)
  | found (a : α)
  | failed (e : ε)
  | ended

section
variable (skips : ε → Bool) (fail : Nat → Option ε)

def Call.outcome : Call α → Option ε → Outcome ε α
  | .link, none => .pass
  | .link, some e => .failed e
  | .item none, none => .pass
  | .item (some a), none => .found a
  | .item _, some e => if skips e then .pass else .failed e

/-- The search for the next item, from call number `n` on: the number and the calls behind it. -/
def next : Nat → List (Call α) → Nat × List (Call α) × Result ε α
  | n, [] => (n, [], .ended)
  | n, c :: calls =>
    match c.outcome skips (fail n) with
    | .pass => next (n + 1) calls
    | .found a => (n + 1, calls, .found a)
    | .failed e => (n + 1, calls, .failed e)

/-- All items that searches in a row find, and whether they come to the end of the calls. -/
def scan : Nat → List (Call α) → List α × Bool
  | _, [] => ([], true)
  | n, c :: calls =>
    match c.outcome skips (fail n) with
    | .pass => scan (n + 1) calls
    | .found a => (a :: (scan (n + 1) calls).1, (scan (n + 1) calls).2)
    | .failed _ => ([], false)

/-- No failure shows: one that a call meets is skipped, where nothing of interest is shown. -/
def Unnoticed (g : α → Option β) (n : Nat) (calls : List (Call α)) : Prop :=
  ∀ i e c, fail (n + i) = some e → calls[i]? = some c →
    skips e = true ∧ ∃ r, c = .item r ∧ r.bind g = none

end

variable {skips : ε → Bool} {fail : Nat → Option ε} {calls : List (Call α)}

theorem Call.outcome_item_some (r : Option α) (e : ε) :
    (Call.item r).outcome skips (some e) = if skips e then .pass else .failed e := by
  cases r <;> rfl

theorem Call.outcome_found {c : Call α} {o : Option ε} (h : c.outcome skips o = .found a) :
    o = none ∧ c = .item (some a) := by
  cases o with
  | none =>
    cases c with
    | link => cases h
    | item r =>
      cases r with
      | none => cases h
      | some b =>
        cases h
        exact ⟨rfl, rfl⟩
  | some e =>
    cases c with
    | link => cases h
    | item r =>
      rw [outcome_item_some] at h
      split at h <;> cases h

theorem Call.outcome_pass {c : Call α} {o : Option ε} (h : c.outcome skips o = .pass) :
    o = none ∧ c.shown = none ∨ ∃ e r, o = some e ∧ skips e = true ∧ c = .item r := by
  cases o with
  | none =>
    cases c with
    | link => exact .inl ⟨rfl, rfl⟩
    | item r =>
      cases r with
      | none => exact .inl ⟨rfl, rfl⟩
      | some b => cases h
  | some e =>
    cases c with
    | link => cases h
    | item r =>
      rw [outcome_item_some] at h
      split at h
      · exact .inr ⟨e, r, rfl, ‹_›, rfl⟩
      · cases h

theorem Call.outcome_failed {c : Call α} {o : Option ε} (h : c.outcome skips o = .failed e) :
    o = some e ∧ ∀ r, c = .item r → skips e = false := by
  cases o with
  | none =>
    cases c with
    | link => cases h
    | item r => cases r <;> cases h
  | some e' =>
    cases c with
    | link =>
      cases h
      exact ⟨rfl, fun r hr => by cases hr⟩
    | item r =>
      rw [outcome_item_some] at h
      split at h
      · cases h
      · cases h
        exact ⟨rfl, fun _ _ => Bool.eq_false_iff.mpr ‹_›⟩

theorem next_of_pass {c : Call α} (h : c.outcome skips (fail n) = .pass) :
    next skips fail n (c :: calls) = next skips fail (n + 1) calls := by
  rw [next, h]

theorem next_of_found {c : Call α} (h : c.outcome skips (fail n) = .found a) :
    next skips fail n (c :: calls) = (n + 1, calls, .found a) := by
  rw [next, h]

theorem next_of_failed {c : Call α} (h : c.outcome skips (fail n) = .failed e) :
    next skips fail n (c :: calls) = (n + 1, calls, .failed e) := by
  rw [next, h]

/-- Without failures a search comes to the first item that is shown, or to the end. -/
theorem next_of_no_failure (hfail : ∀ n, fail n = none) (n : Nat) (calls : List (Call α)) :
    (∃ n' calls' a, next skips fail n calls = (n', calls', .found a) ∧
      calls.filterMap Call.shown = a :: calls'.filterMap Call.shown) ∨
    ∃ n', next skips fail n calls = (n', [], .ended) ∧ calls.filterMap Call.shown = [] := by
  induction calls generalizing n with
  | nil => exact .inr ⟨n, rfl, rfl⟩
  | cons c calls ih =>
    cases houtcome : c.outcome skips (fail n) with
    | pass =>
      rw [next_of_pass houtcome]
      rcases Call.outcome_pass houtcome with ⟨-, hshown⟩ | ⟨e, r, hsome, -⟩
      · rw [List.filterMap_cons_none hshown]
        exact ih (n + 1)
      · cases (hfail n).symm.trans hsome
    | found a =>
      obtain ⟨-, rfl⟩ := Call.outcome_found houtcome
      exact .inl ⟨n + 1, calls, a, next_of_found houtcome,
        List.filterMap_cons_some (Call.shown_item a)⟩
    | failed e => cases (hfail n).symm.trans (Call.outcome_failed houtcome).1

/-- What a scan is when the search for the next item finds one. -/
theorem scan_of_found (h : next skips fail n calls = (n', calls', .found a)) :
    calls'.length < calls.length ∧ scan skips fail n calls =
      (a :: (scan skips fail n' calls').1, (scan skips fail n' calls').2) := by
  induction calls generalizing n with
  | nil => cases h
  | cons c calls ih =>
    rw [next] at h
    rw [scan]
    cases houtcome : c.outcome skips (fail n) with
    | pass =>
      rw [houtcome] at h
      obtain ⟨hlen, hscan⟩ := ih h
      exact ⟨Nat.lt_succ_of_lt hlen, hscan⟩
    | found b =>
      rw [houtcome] at h
      cases h
      exact ⟨Nat.lt_succ_self _, rfl⟩
    | failed e =>
      rw [houtcome] at h
      cases h

theorem scan_of_failed (h : next skips fail n calls = (n', calls', .failed e)) :
    scan skips fail n calls = ([], false) := by
  induction calls generalizing n with
  | nil => cases h
  | cons c calls ih =>
    rw [next] at h
    rw [scan]
    cases houtcome : c.outcome skips (fail n) with
    | pass =>
      rw [houtcome] at h
      exact ih h
    | found b =>
      rw [houtcome] at h
      cases h
    | failed e => rfl

theorem scan_of_ended (h : next skips fail n calls = (n', calls', .ended)) :
    scan skips fail n calls = ([], true) := by
  induction calls generalizing n with
  | nil => rfl
  | cons c calls ih =>
    rw [next] at h
    rw [scan]
    cases houtcome : c.outcome skips (fail n) with
    | pass =>
      rw [houtcome] at h
      exact ih h
    | found b | failed e =>
      rw [houtcome] at h
      cases h

theorem unnoticed_cons {g : α → Option β} :
    Unnoticed skips fail g n (c :: calls) ↔
      (∀ e, fail n = some e → skips e = true ∧ ∃ r, c = .item r ∧ r.bind g = none) ∧
        Unnoticed skips fail g (n + 1) calls := by
  constructor
  · intro h
    refine ⟨fun e he => h 0 e c he rfl, fun i e d he hd => h (i + 1) e d ?_ hd⟩
    rwa [Nat.add_right_comm] at he
  · rintro ⟨hfirst, hrest⟩ i e d he hd
    cases i with
    | zero =>
      cases hd
      exact hfirst e he
    | succ i =>
      refine hrest i e d ?_ hd
      rwa [Nat.add_right_comm]

/-- What a scan finds is among what the calls show. -/
theorem scan_sublist {g g' : α → Option β} (hg : ∀ a, g a = none ∨ g a = g' a) (n : Nat)
    (calls : List (Call α)) :
    ((scan skips fail n calls).1.filterMap g).Sublist
      ((calls.filterMap Call.shown).filterMap g') := by
  induction calls generalizing n with
  | nil => exact List.Sublist.slnil
  | cons c calls ih =>
    have hpass : ((scan skips fail (n + 1) calls).1.filterMap g).Sublist
        (((c :: calls).filterMap Call.shown).filterMap g') :=
      (ih (n + 1)).trans (((List.sublist_cons_self c calls).filterMap _).filterMap _)
    rw [scan]
    cases houtcome : c.outcome skips (fail n) with
    | pass => exact hpass
    | failed e => exact List.nil_sublist _
    | found a =>
      obtain ⟨-, rfl⟩ := Call.outcome_found houtcome
      rw [List.filterMap_cons_some (Call.shown_item a)]
      have hrest := ih (n + 1)
      rcases hg a with hnone | hsome
      · rw [List.filterMap_cons_none hnone]
        exact hrest.trans ((List.sublist_cons_self a _).filterMap g')
      · rw [List.filterMap_cons, List.filterMap_cons, hsome]
        cases g' a with
        | none => exact hrest
        | some b => exact hrest.cons_cons b

theorem scan_eq_iff {g g' : α → Option β} (hg : ∀ a, g a = none ∨ g a = g' a) (n : Nat)
    (calls : List (Call α)) :
    ((scan skips fail n calls).2 = true ∧ (scan skips fail n calls).1.filterMap g =
        (calls.filterMap Call.shown).filterMap g') ↔
      (Unnoticed skips fail g' n calls ∧ ∀ a ∈ calls.filterMap Call.shown, g a = g' a) := by
  induction calls generalizing n with
  | nil =>
    refine ⟨fun _ => ⟨fun i e c hfail hc => ?_, fun a ha => ?_⟩, fun _ => ⟨rfl, rfl⟩⟩
    · cases hc
    · cases ha
  | cons c calls ih =>
    have hih := ih (n + 1)
    have hshort : ∀ b, (scan skips fail (n + 1) calls).1.filterMap g ≠
        b :: (calls.filterMap Call.shown).filterMap g' := fun b h => by
      have hsub : ((scan skips fail (n + 1) calls).1.filterMap g).Sublist
          ((calls.filterMap Call.shown).filterMap g') := scan_sublist hg (n + 1) calls
      have hlen := hsub.length_le
      rw [h, List.length_cons] at hlen
      exact Nat.not_succ_le_self _ hlen
    rw [scan, unnoticed_cons]
    cases houtcome : c.outcome skips (fail n) with
    | pass =>
      dsimp only
      rcases Call.outcome_pass houtcome with ⟨hfail, hshown⟩ | ⟨e, r, hfail, hskip, rfl⟩
      · have hfirst : ∀ e, fail n = some e →
            skips e = true ∧ ∃ r, c = .item r ∧ r.bind g' = none := fun e he => by
          cases hfail.symm.trans he
        rw [List.filterMap_cons_none hshown, hih, and_iff_right hfirst]
      · -- the item that is skipped
        have hfirst : (∀ e, fail n = some e →
            skips e = true ∧ ∃ r', Call.item r = .item r' ∧ r'.bind g' = none) ↔
            r.bind g' = none := by
          constructor
          · intro h
            obtain ⟨-, r', hr, hbind⟩ := h e hfail
            cases hr
            exact hbind
          · intro h e' he
            cases hfail.symm.trans he
            exact ⟨hskip, r, rfl, h⟩
        rw [hfirst]
        cases r with
        | none =>
          rw [List.filterMap_cons_none rfl, hih]
          exact ⟨fun h => ⟨⟨rfl, h.1⟩, h.2⟩, fun h => ⟨h.1.2, h.2⟩⟩
        | some a =>
          rw [List.filterMap_cons_some (Call.shown_item a), List.forall_mem_cons,
            Option.bind_some]
          cases ha : g' a with
          | none =>
            have hnone : g a = none := by
              rcases hg a with h | h
              · exact h
              · rw [h, ha]
            rw [List.filterMap_cons_none ha, hih, hnone]
            exact ⟨fun h => ⟨⟨rfl, h.1⟩, rfl, h.2⟩, fun h => ⟨h.1.2, h.2.2⟩⟩
          | some b =>
            rw [List.filterMap_cons_some ha]
            exact ⟨fun h => absurd h.2 (hshort b), fun h => by cases h.1.1⟩
    | found a =>
      obtain ⟨hfail, rfl⟩ := Call.outcome_found houtcome
      dsimp only
      have hfirst : ∀ e, fail n = some e →
          skips e = true ∧ ∃ r, Call.item (some a) = .item r ∧ r.bind g' = none := fun e he => by
        cases hfail.symm.trans he
      rw [List.filterMap_cons_some (Call.shown_item a), List.forall_mem_cons,
        and_iff_right hfirst]
      rcases hg a with hnone | hsome
      · rw [List.filterMap_cons_none hnone, hnone]
        cases ha : g' a with
        | none =>
          rw [List.filterMap_cons_none ha, hih]
          exact ⟨fun h => ⟨h.1, rfl, h.2⟩, fun h => ⟨h.1, h.2.2⟩⟩
        | some b =>
          rw [List.filterMap_cons_some ha]
          exact ⟨fun h => absurd h.2 (hshort b), fun h => by cases h.2.1⟩
      · rw [List.filterMap_cons, List.filterMap_cons, hsome]
        cases ha : g' a with
        | none =>
          dsimp only
          rw [hih]
          exact ⟨fun h => ⟨h.1, rfl, h.2⟩, fun h => ⟨h.1, h.2.2⟩⟩
        | some b =>
          dsimp only
          rw [List.cons_inj_right, hih]
          exact ⟨fun h => ⟨h.1, rfl, h.2⟩, fun h => ⟨h.1, h.2.2⟩⟩
    | failed e =>
      obtain ⟨hfail, hskip⟩ := Call.outcome_failed houtcome
      constructor
      · intro h
        cases h.1
      · intro h
        obtain ⟨hskip', r, hr, -⟩ := h.1.1 e hfail
        cases hskip'.symm.trans (hskip r hr)

/-- **A complete scan.** It comes to the end with everything that the calls show exactly when no
failure shows, and nothing that is of interest is left out on purpose. -/
theorem scan_complete_iff {g g' : α → Option β} (hg : ∀ a, g a = none ∨ g a = g' a) (n : Nat)
    (calls : List (Call α)) :
    ((scan skips fail n calls).2 = true ∧ ((scan skips fail n calls).1.filterMap g).Perm
        ((calls.filterMap Call.shown).filterMap g')) ↔
      (Unnoticed skips fail g' n calls ∧ ∀ a ∈ calls.filterMap Call.shown, g a = g' a) := by
  rw [← scan_eq_iff hg n calls]
  refine and_congr_right fun _ => ⟨fun h => ?_, fun h => h ▸ .refl _⟩
  exact (scan_sublist hg n calls).eq_of_length h.length_eq

end FaultyScan
