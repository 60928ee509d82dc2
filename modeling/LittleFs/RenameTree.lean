import LittleFs.RenameFailure
import Mathlib.Logic.Relation

/-! What a successful rename does to the tree of directories: one entry moves and every other one
stays. `lfs_raw_rename` compares the types at the two ends only, so a directory can be moved below
itself, and then it hangs in the air. -/

namespace LittleFs

/-! ## The entries behind a rename -/

/-- The disk behind the commits of a rename. -/
def Renaming.moved (r : Renaming) (name : List UInt8) (disk : List Mdir) : List Mdir :=
  let disk := editPair r.pair (r.edit name) disk
  if r.samepair then disk else editPair r.old.pair (·.eraseIdx r.old.id) disk

namespace Renaming.Checked

variable {s : Tree} {old new : Link} {r : Renaming}

/-- What the first commit leaves in the pair: the new entry, and the old ones that are neither
replaced nor moved within the pair. -/
theorem mem_edit (H : r.Checked s old new) {es : List DirEntry} (he : e ∈ r.edit name es) :
    e = { r.old.entry with name } ∨
      ∃ i : Nat, es[i]? = some e ∧ (r.prev.isSome → i ≠ r.id) ∧
        (r.samepair = true → i ≠ r.old.id) := by
  obtain ⟨k, hk, hne⟩ : ∃ k : Nat, ((if r.prev.isSome then es.eraseIdx r.id else es).insertIdx r.id
      { r.old.entry with name })[k]? = some e ∧ (r.samepair = true → k ≠ r.newoldid) := by
    rw [edit] at he
    split at he
    · obtain ⟨k, hne, hk⟩ := List.mem_eraseIdx_iff_getElem?.mp he
      exact ⟨k, hk, fun _ => hne⟩
    · obtain ⟨k, hk⟩ := List.mem_iff_getElem?.mp he
      exact ⟨k, hk, fun h => absurd h ‹_›⟩
  rw [List.getElem?_insertIdx] at hk
  rcases Nat.lt_trichotomy k r.id with hlt | rfl | hgt
  · rw [if_pos hlt] at hk
    cases H.target with
    | fresh hprev =>
      have hid : r.samepair = true →
        r.newoldid = if r.id ≤ r.old.id then r.old.id + 1 else r.old.id :=
        fun hsame => by simp [newoldid, hprev, hsame]
      rw [hprev] at hk ⊢
      refine .inr ⟨k, hk, by simp, fun hsame heq => hne hsame ?_⟩
      rw [hid hsame, if_neg (by omega), heq]
    | replace hprev =>
      have hid : r.newoldid = r.old.id := by simp [newoldid, hprev]
      rw [hprev, Option.isSome_some, if_pos rfl, List.getElem?_eraseIdx, if_pos hlt] at hk
      exact .inr ⟨k, hk, fun _ => Nat.ne_of_lt hlt, fun hsame => hid ▸ hne hsame⟩
  · rw [if_neg (Nat.lt_irrefl _), if_pos rfl] at hk
    obtain ⟨-, hk⟩ := Option.ite_none_right_eq_some.mp hk
    exact .inl (Option.some.inj hk).symm
  · rw [if_neg (by omega), if_neg (by omega)] at hk
    cases H.target with
    | fresh hprev =>
      have hid : r.samepair = true →
        r.newoldid = if r.id ≤ r.old.id then r.old.id + 1 else r.old.id :=
        fun hsame => by simp [newoldid, hprev, hsame]
      rw [hprev] at hk ⊢
      refine .inr ⟨k - 1, hk, by simp, fun hsame heq => hne hsame ?_⟩
      rw [hid hsame, if_pos (by omega)]
      omega
    | replace hprev =>
      have hid : r.newoldid = r.old.id := by simp [newoldid, hprev]
      rw [hprev, Option.isSome_some, if_pos rfl, List.getElem?_eraseIdx, if_neg (by omega),
        Nat.sub_add_cancel (by omega)] at hk
      exact .inr ⟨k, hk, fun _ => Nat.ne_of_gt hgt, fun hsame => hid ▸ hne hsame⟩

/-- What the first commit keeps. -/
theorem mem_edit_of_getElem? (H : r.Checked s old new) {es : List DirEntry} (hi : es[i]? = some e)
    (hid : r.prev.isSome → i ≠ r.id) (hold : r.samepair = true → i ≠ r.old.id)
    (name : List UInt8) : e ∈ r.edit name es := by
  suffices h : ∃ k : Nat, ((if r.prev.isSome then es.eraseIdx r.id else es).insertIdx r.id
      { r.old.entry with name })[k]? = some e ∧ (r.samepair = true → k ≠ r.newoldid) by
    obtain ⟨k, hk, hne⟩ := h
    rw [edit]
    split
    · exact List.mem_eraseIdx_iff_getElem?.mpr ⟨k, hne ‹_›, hk⟩
    · exact List.mem_iff_getElem?.mpr ⟨k, hk⟩
  cases H.target with
  | fresh hprev =>
    have hnewoldid : r.samepair = true →
        r.newoldid = if r.id ≤ r.old.id then r.old.id + 1 else r.old.id :=
      fun hsame => by simp [newoldid, hprev, hsame]
    rw [hprev, Option.isSome_none, if_neg Bool.false_ne_true]
    by_cases hlt : i < r.id
    · refine ⟨i, by rw [List.getElem?_insertIdx, if_pos hlt, hi], fun hsame => ?_⟩
      have hne := hold hsame
      rw [hnewoldid hsame]
      split <;> omega
    · refine ⟨i + 1, by rw [List.getElem?_insertIdx, if_neg (by omega), if_neg (by omega),
        Nat.add_sub_cancel, hi], fun hsame => ?_⟩
      have hne := hold hsame
      rw [hnewoldid hsame]
      split <;> omega
  | replace hprev =>
    have hnewoldid : r.newoldid = r.old.id := by simp [newoldid, hprev]
    have hne := hid (by rw [hprev]; rfl)
    refine ⟨i, ?_, fun hsame => hnewoldid ▸ hold hsame⟩
    rw [hprev, Option.isSome_some, if_pos rfl, List.getElem?_insertIdx]
    rcases Nat.lt_or_gt_of_ne hne with hlt | hgt
    · rw [if_pos hlt, List.getElem?_eraseIdx, if_pos hlt, hi]
    · rw [if_neg (by omega), if_neg (by omega), List.getElem?_eraseIdx, if_neg (by omega),
        Nat.sub_add_cancel (by omega), hi]

/-- The new entry has a place in the pair. -/
theorem id_le (H : r.Checked s old new) (hs : s.Quiet) (hm : m ∈ s.disk)
    (hp : pairCmp r.pair m.pair = false) :
    r.id ≤ (if r.prev.isSome then m.entries.eraseIdx r.id else m.entries).length := by
  cases H.target with
  | fresh hprev h =>
    rw [hprev, Option.isSome_none, if_neg Bool.false_ne_true]
    rw [Tree.insertion, Option.or_eq_some_iff, hs.clean.gdisk] at h
    rcases h with h | ⟨-, h⟩
    · obtain ⟨m', hm', h⟩ := List.exists_of_findSome?_eq_some h
      obtain ⟨id, hid, heq⟩ := Option.map_eq_some_iff.mp h
      obtain ⟨hpair, rfl⟩ := Prod.mk.inj heq
      rw [← hpair] at hp
      obtain rfl := hs.disjoint.eq_of_shares (List.mem_filter.mp hm').1 hm hp
      exact Nat.le_of_lt (List.findIdx?_eq_some_iff_findIdx_eq.mp hid).1
    · obtain ⟨m', hm', heq⟩ := Option.map_eq_some_iff.mp h
      obtain ⟨hpair, hid⟩ := Prod.mk.inj heq
      rw [← hpair] at hp
      obtain rfl := hs.disjoint.eq_of_shares (List.mem_filter.mp (List.mem_of_getLast? hm')).1 hm hp
      exact Nat.le_of_eq hid.symm
  | replace hprev h =>
    obtain ⟨-, hentry, -⟩ := hs.find_unique h hm hp
    have hlt := (List.getElem?_eq_some_iff.mp hentry).1
    rw [hprev, Option.isSome_some, if_pos rfl, List.length_eraseIdx_of_lt hlt]
    exact Nat.le_sub_one_of_lt hlt

theorem newoldid_ne (H : r.Checked s old new) (hsame : r.samepair = true) : r.id ≠ r.newoldid := by
  cases H.target with
  | fresh hprev =>
    have hid : r.newoldid = if r.id ≤ r.old.id then r.old.id + 1 else r.old.id := by
      simp [newoldid, hprev, hsame]
    rw [hid]
    split <;> omega
  | replace hprev _ hne =>
    have hid : r.newoldid = r.old.id := by simp [newoldid, hprev]
    have hshares : pairCmp r.old.pair r.pair = false := by simpa [samepair] using hsame
    rw [hid]
    exact fun h => hne ⟨hshares, h⟩

theorem new_mem_edit (H : r.Checked s old new) (hs : s.Quiet) (hm : m ∈ s.disk)
    (hp : pairCmp r.pair m.pair = false) (name : List UInt8) :
    { r.old.entry with name } ∈ r.edit name m.entries := by
  have hle := H.id_le hs hm hp
  have hget : ((if r.prev.isSome then m.entries.eraseIdx r.id else m.entries).insertIdx r.id
      { r.old.entry with name })[r.id]? = some { r.old.entry with name } := by
    rw [List.getElem?_insertIdx, if_neg (Nat.lt_irrefl _), if_pos rfl, if_pos hle]
  rw [edit]
  split
  · exact List.mem_eraseIdx_iff_getElem?.mpr ⟨r.id, H.newoldid_ne ‹_›, hget⟩
  · exact List.mem_iff_getElem?.mpr ⟨r.id, hget⟩

/-- The source is not the target. -/
theorem ne (H : r.Checked s old new) (hcheck : s.renameCheck old new = .ok r) : old ≠ new := by
  rintro rfl
  rw [Tree.renameCheck, H.old] at hcheck
  dsimp only at hcheck
  rw [if_neg (fun h => h rfl), if_pos ⟨pairCmp_self _, rfl⟩] at hcheck
  cases hcheck

end Renaming.Checked

theorem mem_editPair : e ∈ entriesIn d (editPair p edit disk) ↔ ∃ m ∈ disk, m.dir = d ∧
    e ∈ if pairCmp p m.pair = false then edit m.entries else m.entries := by
  rw [mem_entriesIn]
  constructor
  · rintro ⟨m', hm', hdir, he⟩
    obtain ⟨m, hm, rfl⟩ := List.mem_map.mp hm'
    refine ⟨m, hm, ?_⟩
    split at hdir <;> rename_i hp
    · rw [if_pos hp] at he ⊢
      exact ⟨hdir, he⟩
    · rw [if_neg hp] at he ⊢
      exact ⟨hdir, he⟩
  · rintro ⟨m, hm, hdir, he⟩
    refine ⟨_, List.mem_map.mpr ⟨m, hm, rfl⟩, ?_⟩
    split <;> rename_i hp
    · rw [if_pos hp] at he
      exact ⟨hdir, he⟩
    · rw [if_neg hp] at he
      exact ⟨hdir, he⟩

namespace Renaming.Checked

variable {s : Tree} {old new : Link} {r : Renaming}

/-- What a rename leaves: the new entry, and the old ones but two. -/
theorem mem_moved_getElem? (H : r.Checked s old new) (hs : s.Quiet)
    (he : e ∈ entriesIn d (r.moved name s.disk)) :
    (d = new.dir ∧ e = { r.old.entry with name }) ∨
      ∃ m ∈ s.disk, m.dir = d ∧ ∃ i : Nat, m.entries[i]? = some e ∧
        (pairCmp r.pair m.pair = false → r.prev.isSome → i ≠ r.id) ∧
          (pairCmp r.old.pair m.pair = false → i ≠ r.old.id) := by
  obtain ⟨mr, hmr, hdirr, hpairr⟩ := H.exists_mdir
  obtain ⟨mo, hmo, -, hpairo, -⟩ := Tree.find_spec H.old
  have hmr' : ∀ m ∈ s.disk, pairCmp r.pair m.pair = false → mr = m := fun m hm hp =>
    hs.disjoint.eq_of_shares hmr hm (hpairr ▸ hp)
  have hmo' : ∀ m ∈ s.disk, pairCmp r.old.pair m.pair = false → mo = m := fun m hm hp =>
    hs.disjoint.eq_of_shares hmo hm (hpairo ▸ hp)
  cases hsame : r.samepair with
  | true =>
    rw [moved, hsame, if_pos rfl] at he
    obtain ⟨m, hm, hdir, he⟩ := mem_editPair.mp he
    have hpairs : pairCmp r.old.pair r.pair = false := by simpa [samepair] using hsame
    split at he
    · rename_i hshares
      rcases H.mem_edit he with rfl | ⟨i, hi, hid, hold⟩
      · exact .inl ⟨hdir.symm.trans (hmr' m hm hshares ▸ hdirr), rfl⟩
      · exact .inr ⟨m, hm, hdir, i, hi, fun _ => hid, fun _ => hold hsame⟩
    · rename_i hshares
      obtain ⟨i, hi⟩ := List.mem_iff_getElem?.mp he
      refine .inr ⟨m, hm, hdir, i, hi, fun hp => absurd hp hshares, fun hp => ?_⟩
      obtain rfl := hmo' m hm hp
      rw [hpairr] at hpairs
      obtain rfl := hmo' mr hmr hpairs
      rw [hpairr, pairCmp_self] at hshares
      exact absurd rfl hshares
  | false =>
    rw [moved, hsame, if_neg Bool.false_ne_true] at he
    obtain ⟨m', hm', hdir, he⟩ := mem_editPair.mp he
    obtain ⟨m, hm, rfl⟩ := List.mem_map.mp hm'
    by_cases hshares : pairCmp r.pair m.pair = false
    · have hother : ¬ pairCmp r.old.pair m.pair = false := by
        intro hp
        rw [samepair, hpairr, hmr' m hm hshares, hp] at hsame
        cases hsame
      rw [if_pos hshares] at he hdir
      rw [if_neg hother] at he
      rcases H.mem_edit he with rfl | ⟨i, hi, hid, -⟩
      · exact .inl ⟨hdir.symm.trans (hmr' m hm hshares ▸ hdirr), rfl⟩
      · exact .inr ⟨m, hm, hdir, i, hi, fun _ => hid, fun hp => absurd hp hother⟩
    · rw [if_neg hshares] at he hdir
      split at he
      · obtain ⟨i, hid, hi⟩ := List.mem_eraseIdx_iff_getElem?.mp he
        exact .inr ⟨m, hm, hdir, i, hi, fun hp => absurd hp hshares, fun _ => hid⟩
      · rename_i hp
        obtain ⟨i, hi⟩ := List.mem_iff_getElem?.mp he
        exact .inr ⟨m, hm, hdir, i, hi, fun hp => absurd hp hshares, fun h => absurd h hp⟩

theorem mem_moved (H : r.Checked s old new) (hs : s.Quiet)
    (he : e ∈ entriesIn d (r.moved name s.disk)) :
    e ∈ entriesIn d s.disk ∨ d = new.dir ∧ e = { r.old.entry with name } := by
  rcases H.mem_moved_getElem? hs he with h | ⟨m, hm, hdir, i, hi, -⟩
  · exact .inr h
  · exact .inl (mem_entriesIn.mpr ⟨m, hm, hdir, List.mem_iff_getElem?.mpr ⟨i, hi⟩⟩)

/-- Two entries go: the one that moves and the one that is replaced. -/
theorem kept_moved (H : r.Checked s old new) (hs : s.Quiet) (he : e ∈ entriesIn d s.disk)
    (name : List UInt8) : e ∈ entriesIn d (r.moved name s.disk) ∨
      (d = old.dir ∧ e = r.old.entry) ∨ (d = new.dir ∧ r.prev = some e) := by
  obtain ⟨m, hm, hdirm, he⟩ := mem_entriesIn.mp he
  obtain ⟨i, hi⟩ := List.mem_iff_getElem?.mp he
  obtain ⟨mr, hmr, hdirr, hpairr⟩ := H.exists_mdir
  by_cases hold : pairCmp r.old.pair m.pair = false ∧ i = r.old.id
  · obtain ⟨hdir, hentry, -⟩ := hs.find_unique H.old hm hold.1
    rw [← hold.2, hi] at hentry
    exact .inr (.inl ⟨hdirm.symm.trans hdir, Option.some.inj hentry⟩)
  by_cases hnew : pairCmp r.pair m.pair = false ∧ i = r.id ∧ r.prev.isSome
  · obtain ⟨hshares, rfl, hsome⟩ := hnew
    cases H.target with
    | fresh hprev => simp [hprev] at hsome
    | replace hprev h =>
      obtain ⟨hdir, hentry, -⟩ := hs.find_unique h hm hshares
      exact .inr (.inr ⟨hdirm.symm.trans hdir, hprev.trans (hentry.symm.trans hi)⟩)
  left
  have hfirst : pairCmp r.pair m.pair = false → e ∈ r.edit name m.entries := by
    intro hshares
    refine H.mem_edit_of_getElem? hi (fun hsome hid => hnew ⟨hshares, hid, hsome⟩)
      (fun hsame hid => hold ⟨?_, hid⟩) name
    rw [hpairr] at hshares
    obtain rfl := hs.disjoint.eq_of_shares hmr hm hshares
    rw [← hpairr]
    simpa [samepair] using hsame
  rw [moved]
  cases hsame : r.samepair with
  | true =>
    refine mem_editPair.mpr ⟨m, hm, hdirm, ?_⟩
    split
    · exact hfirst ‹_›
    · exact he
  | false =>
    rw [if_neg Bool.false_ne_true]
    refine mem_editPair.mpr ⟨_, List.mem_map.mpr ⟨m, hm, rfl⟩, by split <;> exact hdirm, ?_⟩
    by_cases hshares : pairCmp r.pair m.pair = false
    · have hother : ¬ pairCmp r.old.pair m.pair = false := by
        intro hsold
        rw [hpairr] at hshares
        obtain rfl := hs.disjoint.eq_of_shares hmr hm hshares
        rw [samepair, hpairr, hsold] at hsame
        cases hsame
      rw [if_pos hshares, if_neg hother]
      exact hfirst hshares
    · rw [if_neg hshares]
      split
      · rename_i hsold
        exact List.mem_eraseIdx_iff_getElem?.mpr ⟨i, fun hid => hold ⟨hsold, hid⟩, hi⟩
      · exact he

theorem new_mem_moved (H : r.Checked s old new) (hs : s.Quiet) (name : List UInt8) :
    { r.old.entry with name } ∈ entriesIn new.dir (r.moved name s.disk) := by
  obtain ⟨mr, hmr, hdir, hpair⟩ := H.exists_mdir
  have hshares : pairCmp r.pair mr.pair = false := by rw [hpair, pairCmp_self]
  have hmem := H.new_mem_edit hs hmr hshares name
  rw [moved]
  cases hsame : r.samepair with
  | true => exact mem_editPair.mpr ⟨mr, hmr, hdir, by rwa [if_pos hshares]⟩
  | false =>
    rw [if_neg Bool.false_ne_true]
    refine mem_editPair.mpr ⟨{ mr with entries := r.edit name mr.entries },
      List.mem_map.mpr ⟨mr, hmr, if_pos hshares⟩, hdir, ?_⟩
    have hother : ¬ pairCmp r.old.pair mr.pair = false := by
      rw [← hpair]
      simpa [samepair] using hsame
    rw [if_neg hother]
    exact hmem

end Renaming.Checked

/-- The entry that a rename replaces is the one with the new name. -/
theorem renameCheck_prev {s : Tree} (h : s.renameCheck old new = .ok r) :
    r.prev = (s.find new).map Found.entry := by
  rw [Tree.renameCheck] at h
  split at h
  · cases h
  · split at h
    · rename_i hnone
      rw [hnone, Option.map_none]
      split at h
      · cases h
      · split at h
        · cases h
        · cases h
          rfl
    · rename_i f hf
      rw [hf, Option.map_some]
      split at h
      · cases h
      · split at h
        · cases h
        · split at h
          · split at h
            · cases h
            · cases h
              rfl
          · cases h
            rfl

/-- What a successful rename writes. -/
structure Renaming.Done (s s' : Tree) (old new : Link) (name : List UInt8) (r : Renaming) :
    Prop where
  check : s.renameCheck old new = .ok r
  quiet : s'.Quiet
  entries : ∀ d, entriesIn d s'.disk = entriesIn d (r.moved name s.disk)

/-- An entry of `d` refers to the directory `d'`. -/
def Tree.Child (s : Tree) (d d' : Nat) : Prop := ∃ e ∈ entriesIn d s.seen, e.node = .dir d'

/-- `d'` is `d` or lies below it. -/
abbrev Tree.Below (s : Tree) : Nat → Nat → Prop := Relation.ReflTransGen s.Child

/-- What a rename leaves on disk, and the pair that can no longer be fetched. -/
structure Renamed where
  tree : Tree
  unreadable : Option BlockPair := none
  deriving DecidableEq, Repr

/-- The directory can be reached, and each of its pairs can be fetched. -/
structure Renamed.Reaches (s : Renamed) (d : Nat) : Prop where
  below : s.tree.Below 0 d
  readable : ∀ m ∈ s.tree.disk, m.dir = d → s.unreadable ≠ some m.pair

/-- What a rename does to the directories: one entry moves, and one may be replaced. -/
structure Tree.Moves (s s' : Tree) (old new : Link) (node : Node) : Prop where
  ne : old ≠ new
  source : s.lookup old = some node
  target : ∀ d, node = .dir d → s'.Child new.dir d
  child : ∀ d d', s'.Child d d' → s.Child d d' ∨ d = new.dir ∧ node = .dir d'
  kept : ∀ d d', s.Child d d' → s'.Child d d' ∨ (d = old.dir ∧ node = .dir d') ∨
    (d = new.dir ∧ s.lookup new = some (.dir d'))
  /-- A directory that is replaced is empty. -/
  empty : ∀ d, s.lookup new = some (.dir d) → ∀ d', ¬ s.Child d d'

theorem Renaming.replaced_eq_some {r : Renaming} {e : DirEntry} (hprev : r.prev = some e)
    (hnode : e.node = .dir d) : r.replaced = some d := by
  obtain ⟨name, node, attrs⟩ := e
  obtain rfl : node = .dir d := hnode
  rw [Renaming.replaced, hprev]

theorem Renaming.Done.moves {s s' : Tree} {r : Renaming} {old : Link}
    (D : r.Done s s' old new name) (H : s.Quiet) : s.Moves s' old new r.old.entry.node := by
  have hr := renameCheck_ok D.check
  have hlookup : s.lookup new = r.prev.map DirEntry.node := by
    rw [renameCheck_prev D.check, Option.map_map]
    rfl
  have hchild : ∀ d d', s.Child d d' ↔ ∃ e ∈ entriesIn d s.disk, e.node = .dir d' :=
    fun d d' => by rw [Tree.Child, H.clean.seen]
  have hchild' : ∀ d d', s'.Child d d' ↔ ∃ e ∈ entriesIn d (r.moved name s.disk),
    e.node = .dir d' :=
    fun d d' => by rw [Tree.Child, D.quiet.clean.seen, D.entries]
  refine ⟨hr.ne D.check, by rw [Tree.lookup, hr.old, Option.map_some], fun d hnode => ?_,
    fun d d' h => ?_, fun d d' h => ?_, fun d hd d' h => ?_⟩
  · exact (hchild' _ _).mpr ⟨_, hr.new_mem_moved H name, hnode⟩
  · obtain ⟨e, he, hnode⟩ := (hchild' d d').mp h
    rcases hr.mem_moved H he with he | ⟨rfl, rfl⟩
    · exact .inl ((hchild d d').mpr ⟨e, he, hnode⟩)
    · exact .inr ⟨rfl, hnode⟩
  · obtain ⟨e, he, hnode⟩ := (hchild d d').mp h
    rcases hr.kept_moved H he name with he | ⟨rfl, rfl⟩ | ⟨rfl, hprev⟩
    · exact .inl ((hchild' d d').mpr ⟨e, he, hnode⟩)
    · exact .inr (.inl ⟨rfl, hnode⟩)
    · exact .inr (.inr ⟨rfl, by rw [hlookup, hprev, Option.map_some, hnode]⟩)
  · obtain ⟨prev, hprev, hnode⟩ := Option.map_eq_some_iff.mp (hlookup.symm.trans hd)
    cases hr.target with
    | fresh hnone => cases hnone.symm.trans hprev
    | replace _ _ _ hempty =>
      obtain ⟨e, he, -⟩ := (hchild d d').mp h
      obtain ⟨m, hm, hdir, he⟩ := mem_entriesIn.mp he
      rw [emptyDir_entries (hempty d (Renaming.replaced_eq_some hprev hnode)) hm hdir] at he
      cases he

namespace Tree.Moves

variable {s s' : Tree} {old new : Link} {node : Node}

/-- What lies below a directory still does, unless it did so through the entry that has moved. -/
theorem below (M : s.Moves s' old new node) (h : s.Below a d)
    (hmoved : ∀ d', node = .dir d' → s.Below a old.dir → ¬ s.Below d' d)
    (hreplaced : s.lookup new ≠ some (.dir d)) : s'.Below a d := by
  induction h with
  | refl => exact .refl
  | @tail y d habove hchild ih =>
    have hy := ih (fun d' hnode hbelow h => hmoved d' hnode hbelow (h.tail hchild))
      fun hnew => M.empty y hnew d hchild
    rcases M.kept y d hchild with hchild | ⟨rfl, hnode⟩ | ⟨-, hnew⟩
    · exact hy.tail hchild
    · exact absurd .refl (hmoved d hnode habove)
    · exact absurd hnew hreplaced

end Tree.Moves

/-! ## Paths -/

def slash : UInt8 := 47
def dotName : List UInt8 := [46]
def dotdotName : List UInt8 := [46, 46]

/-- What follows the `..` that takes back a name, which is followed by the given parts. -/
def matchedBy : (depth : Nat) → List (List UInt8) → Option (List (List UInt8))
  | _, [] => none
  | depth, part :: rest =>
    if part = [] then matchedBy depth rest
    else if part = dotdotName then if depth = 1 then some rest else matchedBy (depth - 1) rest
    else matchedBy (depth + 1) rest

/-- The names that `lfs_dir_find` looks up, each with the parts of the path behind it. -/
def partSteps : (fuel : Nat) → List (List UInt8) → List (List UInt8 × List (List UInt8))
  | fuel + 1, part :: rest =>
    -- skip slashes, '.' and root '..'
    if part = [] ∨ part = dotName ∨ part = dotdotName then partSteps fuel rest
    else
      -- skip if matched by '..' in name
      match matchedBy 1 rest with
      | some rest => partSteps fuel rest
      | none => (part, rest) :: partSteps fuel rest
  | _, _ => []

def pathSteps (path : List UInt8) : List (List UInt8 × List (List UInt8)) :=
  partSteps (path.splitOn slash).length (path.splitOn slash)

/-- Where a path leads to: its last name, and the parts behind it, which are skipped. -/
structure PathEnd where
  link : Link
  rest : List (List UInt8)
  deriving DecidableEq, Repr

/-- `lfs_dir_find`, with what the path has led to so far. The root is an error of
`lfs_raw_rename`. -/
def Tree.dirFind (s : Tree) : Node → Option PathEnd → List (List UInt8 × List (List UInt8)) →
    Except Int PathEnd
  | _, found, [] => found.elim (.error errInval) .ok
  | .dir d, _, (name, rest) :: steps =>
    match s.lookup ⟨d, name⟩ with
    | none => .ok ⟨⟨d, name⟩, rest⟩
    | some node => s.dirFind node (some ⟨⟨d, name⟩, rest⟩) steps
  | .superblock, _, _ :: _ | .reg _, _, _ :: _ => .error errNotdir

def Tree.pathEnd (s : Tree) (path : List UInt8) : Except Int PathEnd :=
  s.dirFind (.dir 0) none (pathSteps path)

/-- The name that `lfs_raw_rename` writes: the rest of the path from its last name on. -/
def PathEnd.name (e : PathEnd) : List UInt8 := e.link.name ++ e.rest.flatMap (slash :: ·)

/-! ## A name of the id 0x3ff -/

theorem FetchScan.modify_besttag {s : FetchScan} (h : s.besttag = -1#32) (e : LogEntry) :
    (s.modify e).besttag = -1#32 := by
  rw [modify]
  split
  · exact h
  · split
    · simp only [h, spliceBesttag]
      split
      · rfl
      · exact if_neg (fun hne => hne.1 rfl)
    · split <;> exact h

/-- A fetch that looks for no tag counts the entries. -/
theorem FetchScan.step_fetch {s : FetchScan} (hvalid : tagIsValid e.tag = true)
    (h : s.besttag = -1#32) :
    (s.step (-1#32) (-1#32) (fun _ _ => .lt) e).count = (s.modify e).count ∧
      (s.step (-1#32) (-1#32) (fun _ _ => .lt) e).besttag = -1#32 := by
  have hne : ¬ (-1#32 &&& e.tag = -1#32 &&& -1#32) := by
    intro htag
    rw [BitVec.neg_one_eq_allOnes, BitVec.allOnes_and, BitVec.allOnes_and] at htag
    rw [htag] at hvalid
    exact absurd hvalid (by decide)
  rw [step, if_neg hne]
  split
  · rename_i hcrc
    rw [tagType1_of_valid hvalid, typeCrc] at hcrc
    exact ⟨(s.modify_other hvalid (by omega) (by omega)).1.symm, h⟩
  · exact ⟨rfl, modify_besttag h e⟩

theorem fetch_besttag {log : List LogEntry} {s : FetchScan}
    (hvalid : ∀ e ∈ log, tagIsValid e.tag = true) (h : s.besttag = -1#32) :
    (log.foldl (FetchScan.step (-1#32) (-1#32) fun _ _ => .lt) s).besttag = -1#32 := by
  induction log generalizing s with
  | nil => exact h
  | cons e log ih =>
    obtain ⟨he, hlog⟩ := List.forall_mem_cons.mp hvalid
    exact ih hlog (FetchScan.step_fetch he h).2

/-- Tags that are neither names nor splices do not count. -/
theorem fetch_count {log : List LogEntry} {s : FetchScan} (h : ∀ e ∈ log,
      tagIsValid e.tag = true ∧ tagTy e.tag / 2 ^ 8 ≠ 0 ∧ tagTy e.tag / 2 ^ 8 ≠ 4)
    (hbest : s.besttag = -1#32) :
    (log.foldl (FetchScan.step (-1#32) (-1#32) fun _ _ => .lt) s).count = s.count := by
  induction log generalizing s with
  | nil => rfl
  | cons e log ih =>
    obtain ⟨⟨hvalid, hname, hsplice⟩, hlog⟩ := List.forall_mem_cons.mp h
    obtain ⟨hcount, hbest'⟩ := FetchScan.step_fetch hvalid hbest
    rw [List.foldl_cons, ih hlog hbest', hcount]
    exact (s.modify_other hvalid hname hsplice).1

/-- What the first commit of a rename appends under the id 0x3ff; `behind` are the struct and the
attributes that it copies, the move and the checksum. -/
def unsetTags (name : List UInt8) (behind : List LogEntry) : List LogEntry :=
  ⟨mkTag typeDelete 0x3ff 0, []⟩ :: ⟨mkTag typeCreate 0x3ff 0, []⟩ ::
    ⟨mkTag typeReg 0x3ff name.length, name⟩ :: behind

/-- A pair with a name of the id 0x3ff counts one entry more than there are ids, and each fetch
without a match, also that of `lfs_dir_fetch`, answers `LFS_ERR_NOENT`. -/
theorem dirFetchmatch_unset {dev : Device} (hlog : logCount log = some count) (hpos : 0 < count)
    (hname : name.length < 2 ^ 10) (hbehind : ∀ e ∈ behind,
      tagIsValid e.tag = true ∧ tagTy e.tag / 2 ^ 8 ≠ 0 ∧ tagTy e.tag / 2 ^ 8 ≠ 4)
    (hrange : ¬ (pair.1 ≥ blockCount ∨ pair.2 ≥ blockCount))
    (hdev : dev pair = some (pair', log ++ unsetTags name behind)) (gdisk : GState) :
    ∃ dir, dirFetchmatch dev blockCount gdisk pair (-1#32) (-1#32) (fun _ _ => .lt) =
      some (dir, .noent) := by
  have hlt := logCount_lt hlog
  have hcount := scan_count (-1#32) (-1#32) (fun _ _ => .lt) hlog
  have hbest := fetch_besttag (s := {}) (fun e he =>
    (exists_tagCount (Option.isSome_of_eq_some hlog) he).1) rfl
  obtain ⟨hty, hid, -⟩ := mkTag_fields (show typeReg < 2 ^ 11 by decide)
    (show 0x3ff < 2 ^ 10 by decide) hname
  have hvalid : tagIsValid (mkTag typeReg 0x3ff name.length) = true := by
    rw [tagIsValid_iff, mkTag_toNat (by decide) (by decide) hname]
    simp only [typeReg]
    omega
  generalize hs₀ : log.foldl (FetchScan.step (-1#32) (-1#32) fun _ _ => .lt) {} = s₀ at hcount hbest
  obtain ⟨hdelete, hbest₁⟩ := FetchScan.step_fetch (e := ⟨mkTag typeDelete 0x3ff 0, []⟩) (by decide)
    hbest
  generalize hs₁ : s₀.step (-1#32) (-1#32) (fun _ _ => .lt) ⟨mkTag typeDelete 0x3ff 0, []⟩ = s₁
    at hdelete hbest₁
  obtain ⟨hcreate, hbest₂⟩ := FetchScan.step_fetch (e := ⟨mkTag typeCreate 0x3ff 0, []⟩) (by decide)
    hbest₁
  generalize hs₂ : s₁.step (-1#32) (-1#32) (fun _ _ => .lt) ⟨mkTag typeCreate 0x3ff 0, []⟩ = s₂
    at hcreate hbest₂
  obtain ⟨hreg, hbest₃⟩ := FetchScan.step_fetch (e := ⟨mkTag typeReg 0x3ff name.length, name⟩)
    hvalid
    hbest₂
  generalize hs₃ : s₂.step (-1#32) (-1#32) (fun _ _ => .lt)
    ⟨mkTag typeReg 0x3ff name.length, name⟩ = s₃ at hreg hbest₃
  -- the delete and the create cancel out, and the name counts
  have hcount₃ : s₃.count = 0x400 := by
    rw [FetchScan.modify_splice _ (by decide) (by decide), tagSplice_delete (by decide)] at hdelete
    rw [FetchScan.modify_splice _ (by decide) (by decide), tagSplice_create (by decide)] at hcreate
    rw [FetchScan.modify_name _ hvalid (by rw [hty]; rfl), hid] at hreg
    dsimp only at hdelete hcreate hreg
    rw [hreg, if_pos (by omega)]
  have hlast := fetch_count hbehind hbest₃
  have hbest₄ := fetch_besttag (fun e he => (hbehind e he).1) hbest₃
  have hmove : syntheticMove gdisk pair' (-1#32) = -1#32 := by
    rw [syntheticMove]
    split
    · split
      · rfl
      · exact if_neg fun h => h.1 rfl
    · rfl
  rw [dirFetchmatch, if_neg hrange, hdev]
  simp only [List.foldl_append, hs₀, unsetTags, List.foldl_cons, hs₁, hs₂, hs₃, hbest₄, hmove,
    hlast, hcount₃]
  exact ⟨_, rfl⟩

/-! ## A rename of paths -/

/-- What `lfs_raw_rename` has found when it starts to write, and the name that it writes. -/
structure PathRenaming extends Renaming where
  name : List UInt8
  /-- The id of the new entry was not asked for, and `newid` is still 0x3ff. -/
  unset : Bool
  deriving DecidableEq, Repr

/-- The checks of `lfs_raw_rename` when something stands behind the last name of the new path, so
that `lfs_dir_find` passes no id to `lfs_dir_fetchmatch` (`strchr(name, '/')`). -/
def Tree.renameCheckUnset (s : Tree) (old new : Link) : Except Int Renaming :=
  match s.find old with
  | none => .error errNoent
  | some o =>
    match s.find new with
    | none => .error errNoent
    | some prev =>
      if prev.entry.node.isDir ≠ o.entry.node.isDir then .error errIsdir
      else
        match prev.entry.node with
        -- no struct has the id 0x3ff
        | .dir _ => .error errNoent
        | _ => .ok ⟨o, some prev.entry, prev.pair, 0x3ff⟩

/-- The part of `lfs_raw_rename` up to its first write. -/
def Tree.renamePathCheck (s : Tree) (oldpath newpath : List UInt8) : Except Int PathRenaming :=
  -- find old entry
  match s.pathEnd oldpath with
  | .error err => .error err
  | .ok old =>
    if s.find old.link = none then .error errNoent
    else
      -- find new entry
      match s.pathEnd newpath with
      | .error err => .error err
      | .ok new =>
        if new.rest = [] then (s.renameCheck old.link new.link).map (⟨·, new.name, false⟩)
        else (s.renameCheckUnset old.link new.link).map (⟨·, new.name, true⟩)

/-- What the first commit makes of the entries of its pair. An entry with the id 0x3ff is behind all
others, with a name that no path can lead to, and a compaction leaves it out. -/
def PathRenaming.edit (p : PathRenaming) (es : List DirEntry) : List DirEntry :=
  if p.unset then if p.samepair then es.eraseIdx p.newoldid else es
  else p.toRenaming.edit p.name es

/-- The pair that can no longer be fetched, if the first commit is appended to its log: with a name
of the id 0x3ff the fetch counts one entry more than there are ids (`dirFetchmatch_unset`). -/
def PathRenaming.unreadable (p : PathRenaming) (appends : Bool) : Option BlockPair :=
  if p.unset = true ∧ appends = true ∧ p.samepair = false then some p.pair
  else none

/-- The commits of `lfs_raw_rename`. The entry that is replaced under the id 0x3ff is a file. -/
def Tree.renamePathCommits (s : Tree) (p : PathRenaming) (res : Nat → Int) : Option (Tree × Int) :=
  if p.unset then
    if res 0 ≠ errOk then some (s, res 0)
    else
      let s := s.commit p.pair p.edit
      if p.samepair = false ∧ gstateHasmove s.gstate = true then
        let s := { s with gstate := fsPrepmove s.gstate 0x3ff#16 (0, 0) }
        if res 1 ≠ errOk then some (s, res 1)
        else some (s.commit p.old.pair (·.eraseIdx p.old.id), errOk)
      else some (s, errOk)
  else s.renameCommits p.toRenaming p.name res

/-- `lfs_raw_rename` of paths; `appends` says that the first commit is appended to the log of its
pair, which is compacted otherwise. -/
def Tree.rawRenamePath (s : Tree) (oldpath newpath : List UInt8) (res : Nat → Int)
    (appends : Bool) : Option (Renamed × Int) :=
  s.forceconsistency.bind fun s =>
    match s.renamePathCheck oldpath newpath with
    | .error err => some ({ tree := s }, err)
    | .ok p =>
      (s.mark p.marks).bind fun s =>
        (s.renamePathCommits p res).map fun o =>
          ({ tree := o.1, unreadable := if res 0 = errOk then p.unreadable appends else none }, o.2)

/-- What has been found at the ends of the paths. -/
inductive PathRenaming.Found (s : Tree) (old new : PathEnd) (p : PathRenaming) : Prop where
  | set (hrest : new.rest = []) (hunset : p.unset = false) (hname : p.name = new.name)
    (h : s.renameCheck old.link new.link = .ok p.toRenaming)
  | unset (hrest : new.rest ≠ []) (hunset : p.unset = true)
    (h : s.renameCheckUnset old.link new.link = .ok p.toRenaming)

theorem renamePathCheck_ok {s : Tree} (hold : s.pathEnd oldpath = .ok old)
    (hnew : s.pathEnd newpath = .ok new) (h : s.renamePathCheck oldpath newpath = .ok p) :
    p.Found s old new := by
  rw [Tree.renamePathCheck, hold, hnew] at h
  dsimp only at h
  split at h
  · cases h
  · split at h
    · rename_i hrest
      cases hcheck : s.renameCheck old.link new.link with
      | error err =>
        rw [hcheck] at h
        cases h
      | ok r =>
        rw [hcheck] at h
        cases h
        exact .set hrest rfl rfl hcheck
    · rename_i hrest
      cases hcheck : s.renameCheckUnset old.link new.link with
      | error err =>
        rw [hcheck] at h
        cases h
      | ok r =>
        rw [hcheck] at h
        cases h
        exact .unset hrest rfl hcheck

/-- A file is replaced, under the id 0x3ff. -/
structure Renaming.Unset (s : Tree) (old new : Link) (r : Renaming) : Prop where
  old : s.find old = some r.old
  new : ∃ f, s.find new = some f ∧ r.prev = some f.entry ∧ r.pair = f.pair
  old_file : r.old.entry.node.isDir = false
  new_file : ∀ e, r.prev = some e → e.node.isDir = false

theorem renameCheckUnset_ok {s : Tree} (h : s.renameCheckUnset old new = .ok r) :
    r.Unset s old new := by
  rw [Tree.renameCheckUnset] at h
  split at h
  · cases h
  · rename_i o ho
    split at h
    · cases h
    · rename_i f hf
      split at h
      · cases h
      · rename_i htypes
        rw [not_not] at htypes
        split at h
        · cases h
        · rename_i hnode
          cases h
          have hfile : f.entry.node.isDir = false := by
            cases hn : f.entry.node with
            | dir d => exact absurd hn (hnode d)
            | superblock | reg => rfl
          refine ⟨ho, ⟨f, hf, rfl, rfl⟩, htypes.symm.trans hfile, fun e he => ?_⟩
          cases he
          exact hfile

end LittleFs
