import Mathlib.Data.Finset.Max
import Mathlib.Order.Interval.Finset.Nat

/-! A pair whose halves are written in turn: every step writes the second half and puts it first,
and every `m`-th step takes something new in its place. With an odd `m` the halves are replaced in
turn, and none is written more than `m` times while it stays. -/

namespace AlternatingPair

variable {α : Type*}

/-- The pairs behind each of `n` steps; the first half is the one that the step has written. -/
structure Alternates (m n : Nat) (pairs : Nat → α × α) (fresh : Nat → α) : Prop where
  swap : ∀ k < n, ¬ m ∣ k + 1 → pairs (k + 1) = ((pairs k).2, (pairs k).1)
  replace : ∀ k < n, m ∣ k + 1 → pairs (k + 1) = (fresh (k + 1), (pairs k).1)

/-- The halves differ at the start, and what a step takes in is in no half. -/
structure Fresh (m n : Nat) (pairs : Nat → α × α) (fresh : Nat → α) : Prop where
  start : (pairs 0).1 ≠ (pairs 0).2
  taken : ∀ k < n, m ∣ k + 1 → fresh (k + 1) ≠ (pairs k).1 ∧ fresh (k + 1) ≠ (pairs k).2

def Mem (b : α) (p : α × α) : Prop := p.1 = b ∨ p.2 = b

namespace Alternates

variable {m n : Nat} {pairs : Nat → α × α} {fresh : Nat → α} {b : α} {i j k : Nat}

theorem snd_succ (H : Alternates m n pairs fresh) (hk : k < n) :
    (pairs (k + 1)).2 = (pairs k).1 := by
  by_cases h : m ∣ k + 1
  · rw [H.replace k hk h]
  · rw [H.swap k hk h]

theorem fst_succ (H : Alternates m n pairs fresh) (hk : k < n) (h : ¬ m ∣ k + 1) :
    (pairs (k + 1)).1 = (pairs k).2 := by
  rw [H.swap k hk h]

theorem fst_succ_of_dvd (H : Alternates m n pairs fresh) (hk : k < n) (h : m ∣ k + 1) :
    (pairs (k + 1)).1 = fresh (k + 1) := by
  rw [H.replace k hk h]

/-- The halves stay apart. -/
theorem ne (H : Alternates m n pairs fresh) (hfresh : Fresh m n pairs fresh) (hk : k ≤ n) :
    (pairs k).1 ≠ (pairs k).2 := by
  induction k with
  | zero => exact hfresh.start
  | succ k ih =>
    rw [H.snd_succ hk]
    by_cases h : m ∣ k + 1
    · rw [H.fst_succ_of_dvd hk h]
      exact (hfresh.taken k hk h).1
    · rw [H.fst_succ hk h]
      exact (ih (Nat.le_of_lt hk)).symm

/-- A half that was written and stays is written again two steps later, which is no step that
replaces it. -/
theorem fst_add_two (H : Alternates m n pairs fresh) (hfresh : Fresh m n pairs fresh)
    (hk : k + 2 ≤ n) (hb : (pairs k).1 = b) (hmem : Mem b (pairs (k + 2))) :
    (pairs (k + 2)).1 = b ∧ ¬ m ∣ k + 2 := by
  have hlt : k + 1 < n := hk
  have hsnd : (pairs (k + 1)).2 = b := (H.snd_succ (Nat.lt_of_succ_lt hk)).trans hb
  have hother : (pairs (k + 1)).1 ≠ b := fun h =>
    H.ne hfresh (Nat.le_of_lt hlt) (h.trans hsnd.symm)
  by_cases h : m ∣ k + 2
  · rcases hmem with hfst | hmem
    · rw [H.fst_succ_of_dvd hlt h, ← hsnd] at hfst
      exact absurd hfst (hfresh.taken (k + 1) hlt h).2
    · exact absurd ((H.snd_succ hlt).symm.trans hmem) hother
  · exact ⟨(H.fst_succ hlt h).trans hsnd, h⟩

/-- The steps that write a half that stays are every other one, and `m` divides none of them but the
first. -/
theorem fst_add_two_mul (H : Alternates m n pairs fresh) (hfresh : Fresh m n pairs fresh)
    (hj : j ≤ n) (hb : (pairs k).1 = b) (hmem : ∀ i, k ≤ i → i ≤ j → Mem b (pairs i)) (t : Nat)
    (ht : k + 2 * t ≤ j) : (pairs (k + 2 * t)).1 = b ∧ (t ≠ 0 → ¬ m ∣ k + 2 * t) := by
  induction t with
  | zero => exact ⟨hb, fun h => absurd rfl h⟩
  | succ t ih =>
    have hstep := H.fst_add_two hfresh (show k + 2 * t + 2 ≤ n by omega) (ih (by omega)).1
      (hmem (k + 2 * t + 2) (by omega) (by omega))
    exact ⟨hstep.1, fun _ => hstep.2⟩

/-- Steps of two come by a multiple of an odd number. -/
theorem exists_dvd_add_two_mul (hodd : m % 2 = 1) (k : Nat) :
    ∃ t, t ≠ 0 ∧ t ≤ m ∧ m ∣ k + 2 * t := by
  have hlt := Nat.mod_lt k (show 0 < m by omega)
  have hdiv := Nat.div_add_mod k m
  by_cases heven : k % m % 2 = 0
  · refine ⟨m - k % m / 2, by omega, by omega, k / m + 2, ?_⟩
    rw [Nat.mul_add]
    omega
  · refine ⟨(m - k % m) / 2, by omega, by omega, k / m + 1, ?_⟩
    rw [Nat.mul_add]
    omega

/-- **The wear of a half.** What stays in the pair is written at most `m` times. -/
theorem card_le [DecidableEq α] (H : Alternates m n pairs fresh) (hfresh : Fresh m n pairs fresh)
    (hodd : m % 2 = 1) (hj : j ≤ n)
    (hmem : ∀ k, i ≤ k → k ≤ j → Mem b (pairs k)) :
    ((Finset.Icc i j).filter fun k => (pairs k).1 = b).card ≤ m := by
  by_cases hempty : ((Finset.Icc i j).filter fun k => (pairs k).1 = b) = ∅
  · rw [hempty]
    exact Nat.zero_le m
  -- count from the first step that writes it
  obtain ⟨first, hfirst, hleast⟩ :=
    Finset.exists_min_image _ id (Finset.nonempty_iff_ne_empty.mpr hempty)
  rw [Finset.mem_filter, Finset.mem_Icc] at hfirst
  obtain ⟨⟨hi, -⟩, hwrites⟩ := hfirst
  have hstays : ∀ k, first ≤ k → k ≤ j → Mem b (pairs k) := fun k hk => hmem k (hi.trans hk)
  have hrun := H.fst_add_two_mul hfresh hj hwrites hstays
  have hend : j < first + 2 * m := by
    obtain ⟨t, ht, hle, hdvd⟩ := exists_dvd_add_two_mul hodd first
    by_contra hlt
    exact (hrun t (by omega)).2 ht hdvd
  refine (Finset.card_le_card fun k hk => ?_).trans
    ((Finset.card_image_le (s := Finset.range m) (f := fun t => first + 2 * t)).trans
      (Nat.le_of_eq (Finset.card_range m)))
  have hle := hleast k hk
  rw [Finset.mem_filter, Finset.mem_Icc] at hk
  obtain ⟨⟨-, hkj⟩, hk⟩ := hk
  have heven : (k - first) % 2 = 0 := by
    by_contra hodd'
    -- one step behind a write it is the other half
    have hwrite := (hrun ((k - first) / 2) (by dsimp only [id] at hle; omega)).1
    have hsucc : first + 2 * ((k - first) / 2) + 1 = k := by
      dsimp only [id] at hle
      omega
    have hsnd : (pairs k).2 = b := by rw [← hsucc, H.snd_succ (by omega), hwrite]
    exact H.ne hfresh (hkj.trans hj) (hk.trans hsnd.symm)
  dsimp only [id] at hle
  exact Finset.mem_image.mpr ⟨(k - first) / 2, Finset.mem_range.mpr (by omega), by omega⟩

/-- Between two replacements the halves only change places. -/
theorem pairs_add (H : Alternates m n pairs fresh) (hr : r < m) (hn : q * m + r ≤ n) :
    pairs (q * m + r) =
      if r % 2 = 0 then pairs (q * m) else ((pairs (q * m)).2, (pairs (q * m)).1) := by
  induction r with
  | zero => rfl
  | succ r ih =>
    have hndvd : ¬ m ∣ q * m + r + 1 := fun h => by
      have := Nat.le_of_dvd (Nat.succ_pos r) ((Nat.dvd_add_right (Nat.dvd_mul_left m q)).mp h)
      omega
    rw [← Nat.add_assoc, H.swap (q * m + r) hn hndvd, ih (by omega) (by omega)]
    by_cases heven : r % 2 = 0
    · rw [if_pos heven, if_neg (by omega)]
    · rw [if_neg heven, if_pos (by omega)]

/-- **The halves are replaced in turn**: the one that goes is the one that stayed the last time. -/
theorem replaced_in_turn (H : Alternates m n pairs fresh) (hodd : m % 2 = 1)
    (hn : (q + 1) * m - 1 ≤ n) :
    (pairs ((q + 1) * m - 1)).2 = (pairs (q * m)).2 := by
  have hend : (q + 1) * m - 1 = q * m + (m - 1) := by
    rw [Nat.add_mul]
    omega
  rw [hend, H.pairs_add (by omega) (hend ▸ hn), if_pos (by omega)]

end Alternates

end AlternatingPair
