import Mathlib.Data.List.Perm.Basic
import Mathlib.Data.List.ReduceOption

/-! A cursor into a list that is edited behind its back: what lies ahead of it is the list without
its first elements. An insertion behind the cursor and a deletion behind it leave what is ahead
alone when the cursor moves along; ahead of it they add and take one element. -/

namespace ListCursor

variable {α β : Type*}

theorem drop_insertIdx_of_le (l : List α) (x : α) (h : i ≤ k) :
    (l.insertIdx i x).drop (k + 1) = l.drop k := by
  refine List.ext_getElem? fun n => ?_
  rw [List.getElem?_drop, List.getElem?_drop, List.getElem?_insertIdx_of_gt (by omega)]
  congr 1
  omega

theorem drop_insertIdx_perm (l : List α) (x : α) (h : k ≤ i) (hi : i ≤ l.length) :
    ((l.insertIdx i x).drop k).Perm (x :: l.drop k) := by
  have htake : (l.insertIdx i x).take k = l.take k := by
    refine List.ext_getElem? fun n => ?_
    rw [List.getElem?_take, List.getElem?_take]
    split
    · exact List.getElem?_insertIdx_of_lt (by omega)
    · rfl
  have hperm := List.perm_insertIdx x l hi
  rw [← List.take_append_drop k (l.insertIdx i x), htake] at hperm
  have hsplit : (x :: l).Perm (l.take k ++ x :: l.drop k) := by
    conv_lhs => rw [← List.take_append_drop k l]
    exact List.perm_middle.symm
  exact (List.perm_append_left_iff _).mp (hperm.trans hsplit)

theorem drop_eraseIdx_of_lt (l : List α) (h : i < k) : (l.eraseIdx i).drop (k - 1) = l.drop k := by
  refine List.ext_getElem? fun n => ?_
  rw [List.getElem?_drop, List.getElem?_drop, List.getElem?_eraseIdx_of_ge (by omega)]
  congr 1
  omega

theorem drop_eraseIdx_perm (l : List α) (h : k ≤ i) (hi : i < l.length) :
    (l.drop k).Perm (l[i] :: (l.eraseIdx i).drop k) := by
  have htake : (l.eraseIdx i).take k = l.take k := by
    refine List.ext_getElem? fun n => ?_
    rw [List.getElem?_take, List.getElem?_take]
    split
    · exact List.getElem?_eraseIdx_of_lt (by omega)
    · rfl
  have hperm : (l.take k ++ l.drop k).Perm (l.take k ++ l[i] :: (l.eraseIdx i).drop k) := by
    rw [List.take_append_drop]
    refine (List.getElem_cons_eraseIdx_perm hi).symm.trans (.trans ?_ List.perm_middle.symm)
    rw [← htake, List.take_append_drop]
  exact (List.perm_append_left_iff _).mp hperm

/-- Two elements of one list: they are the same one, or one lies behind the other. -/
theorem split_cases {b b' a a' : List α} (h : b ++ x :: a = b' ++ y :: a') :
    (b = b' ∧ x = y ∧ a = a') ∨ (∃ c, b' = b ++ x :: c ∧ a = c ++ y :: a') ∨
      ∃ c, b = b' ++ y :: c ∧ a' = c ++ x :: a := by
  rcases List.append_eq_append_iff.mp h with ⟨c, hb, ha⟩ | ⟨c, hb, ha⟩
  · cases c with
    | nil =>
      obtain ⟨hx, ha⟩ := List.cons.inj ha
      exact .inl ⟨(hb.trans (List.append_nil b)).symm, hx, ha⟩
    | cons z c =>
      obtain ⟨rfl, hrest⟩ := List.cons.inj ha
      exact .inr (.inl ⟨c, hb, hrest⟩)
  · cases c with
    | nil =>
      obtain ⟨hx, ha⟩ := List.cons.inj ha
      exact .inl ⟨hb.trans (List.append_nil b'), hx.symm, ha.symm⟩
    | cons z c =>
      obtain ⟨rfl, hrest⟩ := List.cons.inj ha
      exact .inr (.inr ⟨c, hb, hrest⟩)

/-- A table of the values below a bound. -/
theorem map_range_insertIdx (f g : Nat → α) (x : α) (hi : i ≤ n)
    (hg : ∀ j, g j = if j < i then f j else if j = i then x else f (j - 1)) :
    (List.range (n + 1)).map g = ((List.range n).map f).insertIdx i x := by
  have hlen : ((List.range n).map f).length = n := by rw [List.length_map, List.length_range]
  refine List.ext_getElem (by
    rw [List.length_insertIdx_of_le_length (by omega)]
    simp) fun j h1 h2 => ?_
  rw [List.getElem_map, List.getElem_range, hg, List.getElem_insertIdx]
  split
  · rw [List.getElem_map, List.getElem_range]
  · split
    · rfl
    · rw [List.getElem_map, List.getElem_range]

theorem map_range_eraseIdx (f g : Nat → α) (hi : i < n)
    (hg : ∀ j, g j = if j < i then f j else f (j + 1)) :
    (List.range (n - 1)).map g = ((List.range n).map f).eraseIdx i := by
  have hlen : ((List.range n).map f).length = n := by rw [List.length_map, List.length_range]
  refine List.ext_getElem (by
    rw [List.length_eraseIdx_of_lt (by omega)]
    simp) fun j h1 h2 => ?_
  rw [List.getElem_map, List.getElem_range, hg, List.getElem_eraseIdx]
  split <;> rw [List.getElem_map, List.getElem_range]

/-! A cursor that counts the slots of a list against one that counts its elements. -/

theorem reduceOption_take_drop (l : List (Option α)) (m : Nat) :
    l.reduceOption = (l.take m).reduceOption ++ (l.drop m).reduceOption := by
  rw [← List.reduceOption_append, List.take_append_drop]

/-- The same elements are ahead exactly when as many lie behind. -/
theorem reduceOption_drop_eq_iff {l : List (Option α)} (hj : j ≤ l.reduceOption.length) :
    (l.drop m).reduceOption = l.reduceOption.drop j ↔ (l.take m).reduceOption.length = j := by
  rw [reduceOption_take_drop l m] at hj ⊢
  rw [List.length_append] at hj
  constructor
  · intro h
    have hlen := congrArg List.length h
    rw [List.length_drop, List.length_append] at hlen
    omega
  · rintro rfl
    exact List.drop_left.symm

/-- There are as many elements as slots exactly when every slot holds one. -/
theorem length_reduceOption_take_eq_iff {l : List (Option α)} (hj : j ≤ l.length) :
    (l.take j).reduceOption.length = j ↔ ∀ i < j, ∃ a, l[i]? = some (some a) := by
  have hlen : (l.take j).length = j := List.length_take_of_le hj
  constructor
  · intro h i hi
    have hmem : l[i] ∈ l.take j := List.mem_take_iff_getElem.mpr ⟨i, by omega, rfl⟩
    obtain ⟨a, ha⟩ := Option.isSome_iff_exists.mp
      (List.reduceOption_length_eq_iff.mp (h.trans hlen.symm) _ hmem)
    exact ⟨a, by rw [List.getElem?_eq_getElem (by omega), ha]⟩
  · intro h
    refine Eq.trans (List.reduceOption_length_eq_iff.mpr fun x hx => ?_) hlen
    obtain ⟨i, hi, rfl⟩ := List.mem_take_iff_getElem.mp hx
    obtain ⟨a, ha⟩ := h i (by omega)
    rw [List.getElem?_eq_getElem (by omega), Option.some.injEq] at ha
    rw [ha]
    rfl

end ListCursor
