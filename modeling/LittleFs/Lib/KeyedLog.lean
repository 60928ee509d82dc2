import Mathlib.Data.List.Induction

/-! Logs over a sequence of keyed records: entries that insert a record, delete one, or patch one,
with the ids of the records behind it moving along.

A log is compacted by carrying its patches past every later entry: a patch moves with its record,
and goes when its record does, when a later patch covers it, or when all it does is remove keys.
`Compacts.read` says that what is left reads as the whole log does. -/

namespace KeyedLog

variable {K V : Type*}

/-- What an entry writes into a record: `none` leaves a key alone, `some none` removes it. -/
abbrev Patch (K V : Type*) := K → Option (Option V)

abbrev Records (K V : Type*) := Nat → K → Option V

inductive Op (K V : Type*) where
  | create (i : Nat)
  | delete (i : Nat)
  | put (i : Nat) (f : Patch K V)
  | skip

def Op.apply : Op K V → Records K V → Records K V
  | .create i, s => fun j k => if j < i then s j k else if j = i then none else s (j - 1) k
  | .delete i, s => fun j k => if j < i then s j k else s (j + 1) k
  | .put i f, s => fun j k => if j = i then (f k).getD (s j k) else s j k
  | .skip, s => s

/-- The records after a log that starts from no records. -/
def replay (ops : List (Op K V)) : Records K V :=
  ops.foldl (fun s u => u.apply s) fun _ _ => none

theorem replay_snoc (ops : List (Op K V)) (u : Op K V) :
    replay (ops ++ [u]) = u.apply (replay ops) := by
  rw [replay, List.foldl_append]
  rfl

/-! ## Lists of patches -/

/-- What the last patch that mentions key `k` of record `j` says. -/
def value : List (Nat × Patch K V) → Nat → K → Option (Option V)
  | [], _, _ => none
  | p :: P, j, k => (value P j k).or (if p.1 = j then p.2 k else none)

def read (P : List (Nat × Patch K V)) : Records K V := fun j k => (value P j k).join

theorem value_append (P Q : List (Nat × Patch K V)) (j : Nat) (k : K) :
    value (P ++ Q) j k = (value Q j k).or (value P j k) := by
  induction P with
  | nil => simp only [List.nil_append, value, Option.or_none]
  | cons p P ih => rw [List.cons_append, value, ih, value, Option.or_assoc]

theorem value_singleton (p : Nat × Patch K V) (j : Nat) (k : K) :
    value [p] j k = if p.1 = j then p.2 k else none := by
  simp only [value, Option.none_or]

theorem exists_of_value (h : value P j k = some v) : ∃ p ∈ P, p.1 = j ∧ p.2 k = some v := by
  induction P with
  | nil => cases h
  | cons p P ih =>
    rw [value] at h
    cases hP : value P j k with
    | some w =>
      rw [hP, Option.some_or] at h
      obtain ⟨q, hq, hj, hk⟩ := ih (hP.trans h)
      exact ⟨q, .tail _ hq, hj, hk⟩
    | none =>
      rw [hP, Option.none_or] at h
      split at h
      · exact ⟨p, .head _, ‹_›, h⟩
      · cases h

theorem value_ne_none (hp : p ∈ P) (hk : p.2 k ≠ none) : value P p.1 k ≠ none := by
  induction P with
  | nil => cases hp
  | cons q P ih =>
    rw [value]
    rcases List.mem_cons.mp hp with rfl | hp
    · rw [if_pos rfl]
      cases value P p.1 k with
      | some v => simp
      | none => exact hk
    · obtain ⟨v, hv⟩ := Option.ne_none_iff_exists'.mp (ih hp)
      rw [hv]
      simp

theorem read_append_singleton (P : List (Nat × Patch K V)) (i : Nat) (f : Patch K V) :
    read (P ++ [(i, f)]) = (Op.put i f).apply (read P) := by
  funext j k
  simp only [read, value_append, value_singleton, Op.apply, eq_comm]
  split
  · cases f k <;> rfl
  · rw [Option.none_or]

/-- Replaying patches reads the last one of each key. -/
theorem replay_puts (P : List (Nat × Patch K V)) :
    replay (P.map fun p => .put p.1 p.2) = read P := by
  induction P using List.reverseRecOn with
  | nil => rfl
  | append_singleton P p ih =>
    rw [List.map_append, List.map_singleton, replay_snoc, ih, read_append_singleton]

/-! ## Carrying patches past an entry -/

/-- Where an entry moves record `j`, `none` when it deletes it. -/
def Op.move : Op K V → Nat → Option Nat
  | .create i, j => some (if i ≤ j then j + 1 else j)
  | .delete i, j => if j = i then none else some (if i < j then j - 1 else j)
  | .put _ _, j => some j
  | .skip, j => some j

/-- Where an entry takes record `j` from, `none` when it creates it. -/
def Op.origin : Op K V → Nat → Option Nat
  | .create i, j => if j < i then some j else if j = i then none else some (j - 1)
  | .delete i, j => some (if j < i then j else j + 1)
  | .put _ _, j => some j
  | .skip, j => some j

/-- The entry writes key `k` of record `j`. -/
def Op.Writes : Op K V → Nat → K → Prop
  | .put i f, j, k => i = j ∧ f k ≠ none
  | _, _, _ => False

def Op.puts : Op K V → List (Nat × Patch K V)
  | .put i f => [(i, f)]
  | _ => []

/-- What an entry does not write comes from where it takes the record from. -/
theorem Op.apply_of_not_writes {u : Op K V} (h : ¬ u.Writes j k) (s : Records K V) :
    u.apply s j k = (u.origin j).bind (s · k) := by
  cases u with
  | create i =>
    simp only [apply, origin]
    split
    · rfl
    · split <;> rfl
  | delete i =>
    simp only [apply, origin, Option.bind_some]
    split <;> rfl
  | put i f =>
    simp only [apply, origin, Option.bind_some]
    split
    · have hf : f k = none := Classical.not_not.mp fun hf => h ⟨(‹j = i›).symm, hf⟩
      rw [hf, Option.getD_none]
    · rfl
  | skip => rfl

theorem Op.move_inj {u : Op K V} (ha : u.move a = some j) (hb : u.move b = some j) : a = b := by
  cases u with
  | create i =>
    simp only [move, Option.some.injEq] at ha hb
    split at ha <;> split at hb <;> omega
  | delete i =>
    simp only [move, Option.ite_none_left_eq_some, Option.some.injEq] at ha hb
    obtain ⟨_, ha⟩ := ha
    obtain ⟨_, hb⟩ := hb
    split at ha <;> split at hb <;> omega
  | put i f => exact (Option.some.inj ha).trans (Option.some.inj hb).symm
  | skip => exact (Option.some.inj ha).trans (Option.some.inj hb).symm

/-- The reasons for which a patch may go when it meets the entry `u`. -/
inductive Droppable (u : Op K V) (p : Nat × Patch K V) : Prop where
  | deleted (h : u.move p.1 = none)
  | covered (h : ∀ k, p.2 k ≠ none → u.Writes p.1 k)
  | removal (h : ∀ k v, p.2 k ≠ some (some v))

/-- `P'` is what is left of the patches `P` behind the entry `u`. -/
inductive Filtered (u : Op K V) : List (Nat × Patch K V) → List (Nat × Patch K V) → Prop where
  | nil : Filtered u [] []
  | keep : u.move p.1 = some j → Filtered u P P' → Filtered u (p :: P) ((j, p.2) :: P')
  | drop : Droppable u p → Filtered u P P' → Filtered u (p :: P) P'

/-- No patch removes a key that an earlier one in the list still sets: removals can be dropped. -/
def Settled (P : List (Nat × Patch K V)) : Prop :=
  P.Pairwise fun q p => q.1 = p.1 → ∀ k, p.2 k = some none → ∀ v, q.2 k ≠ some (some v)

theorem Filtered.exists_of_mem {u : Op K V} (H : Filtered u P P') (h : p' ∈ P') :
    ∃ p ∈ P, u.move p.1 = some p'.1 ∧ p.2 = p'.2 := by
  induction H with
  | nil => cases h
  | keep hmove _ ih =>
    rcases List.mem_cons.mp h with rfl | h
    · exact ⟨_, .head _, hmove, rfl⟩
    · obtain ⟨q, hq, hm, hf⟩ := ih h
      exact ⟨q, .tail _ hq, hm, hf⟩
  | drop _ _ ih =>
    obtain ⟨q, hq, hm, hf⟩ := ih h
    exact ⟨q, .tail _ hq, hm, hf⟩

theorem Filtered.settled {u : Op K V} (H : Filtered u P P') (hs : Settled P) : Settled P' := by
  induction H with
  | nil => exact .nil
  | @keep p j P P' hmove H ih =>
    obtain ⟨hp, hs⟩ := List.pairwise_cons.mp hs
    refine List.pairwise_cons.mpr ⟨fun p' hp' (hj : j = p'.1) k hk v => ?_, ih hs⟩
    obtain ⟨q, hq, hm, hf⟩ := H.exists_of_mem hp'
    exact hp q hq (Op.move_inj (hj ▸ hmove) hm) k (hf ▸ hk) v
  | drop _ _ ih => exact ih (List.pairwise_cons.mp hs).2

/-- Nothing is left under an id that no record moves to. -/
theorem Filtered.value_eq_none {u : Op K V} (H : Filtered u P P') (hj : ∀ i, u.move i ≠ some j)
    (k : K) : value P' j k = none := by
  cases hv : value P' j k with
  | none => rfl
  | some v =>
    obtain ⟨p', hp', hid, _⟩ := exists_of_value hv
    obtain ⟨p, _, hm, _⟩ := H.exists_of_mem hp'
    exact absurd (hid ▸ hm) (hj p.1)

/-- A key the entry does not write keeps its value where its record goes. -/
theorem Filtered.value_join {u : Op K V} (H : Filtered u P P') (hs : Settled P)
    (hmove : u.move i = some j) (hk : ¬ u.Writes i k) :
    (value P' j k).join = (value P i k).join ∧ (value P' j k ≠ none → value P i k ≠ none) := by
  induction H with
  | nil => exact ⟨rfl, id⟩
  | @keep p j' P P' hm H ih =>
    obtain ⟨hp, hs⟩ := List.pairwise_cons.mp hs
    obtain ⟨hjoin, hsome⟩ := ih hs
    have hid : j' = j ↔ p.1 = i :=
      ⟨fun h => Op.move_inj (h ▸ hm) hmove,
        fun h => Option.some.inj ((h ▸ hm : u.move i = some j').symm.trans hmove)⟩
    simp only [value, hid]
    cases hP : value P i k with
    | none =>
      have hP' : value P' j k = none := Classical.not_not.mp (mt hsome (· hP))
      rw [hP']
      exact ⟨rfl, id⟩
    | some w =>
      rw [hP] at hjoin
      refine ⟨?_, fun _ => by simp⟩
      cases hP' : value P' j k with
      | some w' => simpa [hP'] using hjoin
      | none =>
        -- a dropped removal: no earlier patch sets the key
        obtain rfl : w = none := by simpa [hP'] using hjoin.symm
        obtain ⟨q, hq, hqi, hqk⟩ := exists_of_value hP
        rw [Option.none_or, Option.some_or]
        split
        · have hset := hp q hq (‹p.1 = i›.trans hqi.symm) k hqk
          rcases hpk : p.2 k with _ | _ | v
          · rfl
          · rfl
          · exact absurd hpk (hset v)
        · rfl
  | @drop p P P' hd _ ih =>
    obtain ⟨_, hs⟩ := List.pairwise_cons.mp hs
    obtain ⟨hjoin, hsome⟩ := ih hs
    rw [value]
    cases hP : value P i k with
    | some w =>
      rw [hP] at hjoin
      exact ⟨hjoin, fun _ => by simp⟩
    | none =>
      have hP' : value P' j k = none := Classical.not_not.mp (mt hsome (· hP))
      rw [hP', Option.none_or]
      refine ⟨?_, fun h => absurd rfl h⟩
      split
      · subst i
        cases hd with
        | deleted h => cases h.symm.trans hmove
        | covered h =>
          have hnone : p.2 k = none := Classical.not_not.mp (mt (h k) hk)
          rw [hnone]
        | removal h =>
          rcases hpk : p.2 k with _ | _ | v
          · rfl
          · rfl
          · exact absurd hpk (h k v)
      · rfl

theorem Filtered.read_eq {u : Op K V} (H : Filtered u P P') (hs : Settled P)
    (hmove : u.move i = some j) (hk : ¬ u.Writes i k) : read P' j k = read P i k :=
  (H.value_join hs hmove hk).1

/-- **One entry.** What is left of the patches, with the entry's own behind it, reads as the entry
applied to what they read. -/
theorem Filtered.read_append {u : Op K V} (H : Filtered u P P') (hs : Settled P) :
    read (P' ++ u.puts) = u.apply (read P) := by
  funext j k
  cases u with
  | create i =>
    simp only [Op.puts, List.append_nil, Op.apply]
    split
    · exact H.read_eq hs (by simp only [Op.move]; rw [if_neg (by omega)]) id
    · split
      · rw [read, H.value_eq_none (fun a => ?_), Option.join_none]
        simp only [Op.move, ne_eq, Option.some.injEq]
        split <;> omega
      · refine H.read_eq hs ?_ id
        simp only [Op.move]
        rw [if_pos (by omega), Nat.sub_add_cancel (by omega)]
  | delete i =>
    simp only [Op.puts, List.append_nil, Op.apply]
    split
    · refine H.read_eq hs ?_ id
      simp only [Op.move]
      rw [if_neg (by omega), if_neg (by omega)]
    · refine H.read_eq hs ?_ id
      simp only [Op.move]
      rw [if_neg (by omega), if_pos (by omega), Nat.add_sub_cancel]
  | put i f =>
    simp only [Op.puts, read_append_singleton, Op.apply]
    split
    · subst i
      cases hf : f k with
      | some v => rfl
      | none => exact H.read_eq hs rfl (fun h => h.2 hf)
    · exact H.read_eq hs rfl (fun h => ‹¬ _› h.1.symm)
  | skip =>
    simp only [Op.puts, List.append_nil, Op.apply]
    exact H.read_eq hs rfl id

/-- The entry removes no key that a patch under the same id still sets. -/
def CleanRemoval (P : List (Nat × Patch K V)) (u : Op K V) : Prop :=
  ∀ p ∈ u.puts, ∀ q ∈ P, q.1 = p.1 → ∀ k, p.2 k = some none → ∀ v, q.2 k ≠ some (some v)

/-- `P` is what is left of the patches of a log after all of it. -/
inductive Compacts : List (Op K V) → List (Nat × Patch K V) → Prop where
  | nil : Compacts [] []
  | snoc : Compacts T P → Filtered u P P' → CleanRemoval P' u → Compacts (T ++ [u]) (P' ++ u.puts)

theorem Compacts.settled {T : List (Op K V)} (H : Compacts T P) : Settled P := by
  induction H with
  | nil => exact .nil
  | @snoc T P u P' _ hfilter hclean ih =>
    refine List.pairwise_append.mpr ⟨hfilter.settled ih, ?_, fun q hq p hp => hclean p hp q hq⟩
    cases u <;> simp [Op.puts]

/-- **Compaction.** -/
theorem Compacts.read {T : List (Op K V)} (H : Compacts T P) : read P = replay T := by
  induction H with
  | nil => rfl
  | snoc H hfilter _ ih => rw [hfilter.read_append H.settled, ih, replay_snoc]

/-! ## Logs without some of their keys -/

/-- `T'` is `T` as far as the keys in `C` go. -/
inductive Restricts (C : K → Prop) : List (Op K V) → List (Op K V) → Prop where
  | nil : Restricts C [] []
  | same : Restricts C T T' → (∀ k, ¬ C k → ∀ j, ¬ u.Writes j k) →
      Restricts C (T ++ [u]) (T' ++ [u])
  | other : Restricts C T T' → (∀ k, C k → f k = none) →
      Restricts C (T ++ [.put i f]) (T' ++ [.skip])

theorem Restricts.replay_eq {C : K → Prop} {T T' : List (Op K V)} (H : Restricts C T T') :
    (∀ j k, C k → replay T' j k = replay T j k) ∧ ∀ j k, ¬ C k → replay T' j k = none := by
  induction H with
  | nil => exact ⟨fun _ _ _ => rfl, fun _ _ _ => rfl⟩
  | @same T T' u _ hu ih =>
    obtain ⟨hin, hout⟩ := ih
    rw [replay_snoc, replay_snoc]
    refine ⟨fun j k hk => ?_, fun j k hk => ?_⟩
    · cases u <;> simp only [Op.apply, hin _ k hk]
    · cases u with
      | put i f =>
        have hf : f k = none := Classical.not_not.mp fun h => hu k hk i ⟨rfl, h⟩
        simp only [Op.apply, hf, Option.getD_none, hout _ k hk, ite_self]
      | _ => simp only [Op.apply, hout _ k hk, ite_self]
  | other _ hf ih =>
    obtain ⟨hin, hout⟩ := ih
    rw [replay_snoc, replay_snoc]
    refine ⟨fun j k hk => ?_, hout⟩
    simp only [Op.apply, hf k hk, Option.getD_none, hin j k hk, ite_self]

end KeyedLog
