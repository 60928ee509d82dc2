import Mathlib.Data.List.Basic

/-! Bitmaps kept in a list of machine words. An access outside the words is `none`. -/

namespace Bitmap

variable {w : Nat} {words words' : List (BitVec w)} {i j : Nat}

/-- `words[i / w] & (1 << (i % w))`. -/
def get? (words : List (BitVec w)) (i : Nat) : Option Bool :=
  words[i / w]?.map fun word => word &&& (1#w <<< (i % w)) != 0#w

/-- `words[i / w] |= 1 << (i % w)`. -/
def set? (words : List (BitVec w)) (i : Nat) : Option (List (BitVec w)) :=
  if i / w < words.length then some (words.modify (i / w) (· ||| (1#w <<< (i % w)))) else none

theorem test_eq_getLsbD (word : BitVec w) (h : i < w) :
    (word &&& (1#w <<< i) != 0#w) = word.getLsbD i := by
  have hbit : word &&& (1#w <<< i) = if word.getLsbD i then 1#w <<< i else 0#w := by
    ext j hj
    by_cases hij : j = i
    · subst hij
      by_cases hword : word.getLsbD j <;> simp_all [← BitVec.getLsbD_eq_getElem]
    · have hshift : (1#w <<< i)[j] = false := by
        simp only [BitVec.getElem_shiftLeft, BitVec.getElem_one, Bool.and_eq_false_imp,
          Bool.not_eq_true', decide_eq_false_iff_not]
        omega
      by_cases hword : word.getLsbD i <;> simp [hword, hshift]
  have hne : (1#w <<< i) ≠ 0#w := by
    intro hzero
    have := congrArg (·.getLsbD i) hzero
    simp [h] at this
  rw [hbit]
  by_cases hword : word.getLsbD i <;> simp [hword, hne]

theorem get?_eq (hw : 0 < w) (i : Nat) :
    get? words i = words[i / w]?.map (·.getLsbD (i % w)) := by
  unfold get?
  congr 1
  funext word
  exact test_eq_getLsbD word (Nat.mod_lt _ hw)

theorem get?_isSome (hw : 0 < w) : (get? words i).isSome ↔ i < words.length * w := by
  rw [get?, Option.isSome_map, ← Nat.div_lt_iff_lt_mul hw]
  simp

theorem get?_replicate (hw : 0 < w) (h : i < n * w) :
    get? (List.replicate n 0#w) i = some false := by
  rw [get?_eq hw, List.getElem?_replicate, if_pos ((Nat.div_lt_iff_lt_mul hw).mpr h)]
  simp

theorem set?_isSome (hw : 0 < w) : (set? words i).isSome ↔ i < words.length * w := by
  rw [set?, ← Nat.div_lt_iff_lt_mul hw]
  split <;> simp_all

theorem length_set? (h : set? words i = some words') : words'.length = words.length := by
  simp only [set?, Option.ite_none_right_eq_some, Option.some.injEq] at h
  obtain ⟨_, rfl⟩ := h
  exact List.length_modify ..

theorem get?_set? (hw : 0 < w) (h : set? words i = some words') :
    get? words' j = if j = i then some true else get? words j := by
  simp only [set?, Option.ite_none_right_eq_some, Option.some.injEq] at h
  obtain ⟨hlt, rfl⟩ := h
  rw [get?_eq hw, get?_eq hw, List.getElem?_modify]
  have hi := Nat.div_add_mod i w
  have hj := Nat.div_add_mod j w
  by_cases hword : i / w = j / w
  · obtain ⟨word, hget⟩ : ∃ word, words[j / w]? = some word :=
      ⟨_, List.getElem?_eq_getElem (hword ▸ hlt)⟩
    have hmod := Nat.mod_lt j hw
    simp only [hword, if_true, hget, Option.map_some]
    by_cases hij : j = i
    · subst hij
      simp [hmod]
    · have hbit : i % w ≠ j % w := by
        intro hbit
        rw [hword, hbit] at hi
        exact hij (hj.symm.trans hi)
      rw [if_neg hij]
      have hone : (1#w <<< (i % w)).getLsbD (j % w) = false := by
        by_cases hle : j % w < i % w
        · simp [hle]
        · have : j % w - i % w ≠ 0 := by omega
          simp [this]
      simp [hone]
  · have hij : j ≠ i := by
      rintro rfl
      exact hword rfl
    rw [if_neg hij]
    simp only [if_neg hword]
    cases words[j / w]? <;> rfl

end Bitmap
