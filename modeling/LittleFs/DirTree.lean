import LittleFs.DirFind

/-! The directory tree as its metadata pairs hold it: a directory is a chain of pairs with the
entries in the order of their ids. What a lookup sees depends on the global state on disk, which
hides the entry of a pending move, and every commit publishes the global state in memory. -/

namespace LittleFs

/-! ## The tree -/

/-- What an entry refers to; directories are numbered. -/
inductive Node where
  | superblock
  | reg (data : List UInt8)
  | dir (d : Nat)
  deriving DecidableEq, Repr

/-- An entry of a directory, with its user attributes. -/
structure DirEntry where
  name : List UInt8
  node : Node
  attrs : List (UInt8 × List UInt8) := []
  deriving DecidableEq, Repr

/-- `lfs_dir_find_match` for the types under the mask `0x780`, which leaves out the superblock. -/
def DirEntry.named (name : List UInt8) (e : DirEntry) : Bool :=
  e.node != .superblock && e.name == name

def DirEntry.sortsAfter (name : List UInt8) (e : DirEntry) : Bool :=
  e.node != .superblock && decide (nameKey name < nameKey e.name)

/-- A metadata pair, and the directory it belongs to. -/
structure Mdir where
  pair : BlockPair
  dir : Nat
  entries : List DirEntry
  deriving DecidableEq, Repr

/-- A step of a path: a name in a directory. -/
structure Link where
  dir : Nat
  name : List UInt8
  deriving DecidableEq, Repr

structure Tree where
  disk : List Mdir
  root : BlockPair
  gstate : GState
  gdisk : GState
  nameMax : Nat
  deriving DecidableEq, Repr

/-- The entries that a lookup sees. -/
def Mdir.visible (gdisk : GState) (m : Mdir) : List DirEntry :=
  if gstateHasmovehere gdisk m.pair then m.entries.eraseIdx (tagId gdisk.tag) else m.entries

/-- An entry, with the pair and the id it was found at. -/
structure Found where
  pair : BlockPair
  id : Nat
  entry : DirEntry
  deriving DecidableEq, Repr

def Mdir.find (gdisk : GState) (name : List UInt8) (m : Mdir) : Option Found :=
  ((m.visible gdisk).zipIdx.find? fun e => e.1.named name).map fun e => ⟨m.pair, e.2, e.1⟩

/-- `lfs_dir_find` in the last directory of the path. -/
def Tree.find (s : Tree) (l : Link) : Option Found :=
  s.disk.findSome? fun m => if m.dir = l.dir then m.find s.gdisk l.name else none

def Tree.lookup (s : Tree) (l : Link) : Option Node := (s.find l).map (·.entry.node)

/-- The pair and the id that `lfs_dir_find` leaves for a name it has not found: before the first
entry that sorts after it, or behind all entries. -/
def Tree.insertion (s : Tree) (l : Link) : Option (BlockPair × Nat) :=
  let chain := s.disk.filter (·.dir = l.dir)
  (chain.findSome? fun m =>
    ((m.visible s.gdisk).findIdx? (·.sortsAfter l.name)).map fun id => (m.pair, id)).or
    (chain.getLast?.map fun m => (m.pair, (m.visible s.gdisk).length))

/-- The rest of a path from what its first part refers to. -/
def Tree.resolve (s : Tree) : Node → List (List UInt8) → Option Node
  | node, [] => some node
  | .dir d, name :: path => (s.lookup ⟨d, name⟩).bind (s.resolve · path)
  | _, _ :: _ => none

/-- The steps that `Tree.resolve` takes. -/
def Tree.links (s : Tree) : Node → List (List UInt8) → List Link
  | .dir d, name :: path =>
    ⟨d, name⟩ :: ((s.lookup ⟨d, name⟩).map (s.links · path)).getD []
  | _, _ => []

/-! ## Commits -/

/-- The change of the entries of one pair. -/
def editPair (p : BlockPair) (edit : List DirEntry → List DirEntry) (disk : List Mdir) :
    List Mdir :=
  disk.map fun m => if pairCmp p m.pair = false then { m with entries := edit m.entries } else m

/-- A `lfs_dir_commit` that reached the disk, with the global state. -/
def Tree.commit (s : Tree) (p : BlockPair) (edit : List DirEntry → List DirEntry) : Tree :=
  { s with disk := editPair p edit s.disk, gdisk := s.gstate }

/-- `lfs_fs_demove`; `none` when there is nothing to fetch. -/
def Tree.demove (s : Tree) : Option Tree :=
  if gstateHasmove s.gdisk = false then some s
  else if s.disk.any fun m => !pairCmp s.gdisk.pair m.pair then
    -- prep gstate and delete move id
    some ({ s with gstate := fsPrepmove s.gstate 0x3ff#16 (0, 0) }.commit s.gdisk.pair
      (·.eraseIdx (tagId s.gdisk.tag)))
  else none

/-- `lfs_fs_forceconsistency`; `none` when there are orphans, whose repair is left out. -/
def Tree.forceconsistency (s : Tree) : Option Tree :=
  s.demove.bind fun s => if gstateHasorphans s.gstate then none else some s

/-- Nothing is pending. -/
structure Tree.Clean (s : Tree) : Prop where
  gstate : s.gstate = {}
  gdisk : s.gdisk = {}

/-- No two pairs share a block. -/
def PairsDisjoint (disk : List Mdir) : Prop :=
  disk.Pairwise fun a b => pairCmp a.pair b.pair = true

instance (disk : List Mdir) : Decidable (PairsDisjoint disk) :=
  inferInstanceAs (Decidable (List.Pairwise _ disk))

/-! ## Pairs -/

theorem pairCmp_comm (paira pairb : BlockPair) : pairCmp paira pairb = pairCmp pairb paira := by
  have hshares : SharesBlock paira pairb ↔ SharesBlock pairb paira := by
    simp only [SharesBlock, eq_comm (b := pairb.1), eq_comm (b := pairb.2), or_comm, or_left_comm]
  rw [← pairCmp_eq_false, ← pairCmp_eq_false] at hshares
  cases h : pairCmp paira pairb <;> cases h' : pairCmp pairb paira <;> simp_all

theorem pairCmp_self (pair : BlockPair) : pairCmp pair pair = false :=
  pairCmp_eq_false.mpr (.inl rfl)

theorem PairsDisjoint.eq_of_shares (H : PairsDisjoint disk) (ha : a ∈ disk) (hb : b ∈ disk)
    (h : pairCmp a.pair b.pair = false) : a = b := by
  by_contra hne
  have : Std.Symm fun a b : Mdir => pairCmp a.pair b.pair = true :=
    ⟨fun a b h => (pairCmp_comm b.pair a.pair).trans h⟩
  have hcmp := List.Pairwise.forall H ha hb hne
  rw [h] at hcmp
  cases hcmp

theorem PairsDisjoint.editPair (H : PairsDisjoint disk) (p : BlockPair)
    (edit : List DirEntry → List DirEntry) : PairsDisjoint (editPair p edit disk) := by
  rw [PairsDisjoint, LittleFs.editPair, List.pairwise_map]
  refine List.Pairwise.imp (fun {a b} h => ?_) H
  split <;> split <;> exact h

theorem PairsDisjoint.filter (H : PairsDisjoint disk) (f : Mdir → Bool) :
    PairsDisjoint (disk.filter f) :=
  List.Pairwise.filter f H

/-- A directory without entries that the edit does not give any. -/
theorem editPair_empty {d : Nat} (h : ∀ m ∈ disk, m.dir = d → m.entries = [])
    (hedit : ∀ m ∈ disk, m.dir = d → pairCmp p m.pair = false → edit m.entries = []) :
    ∀ m ∈ editPair p edit disk, m.dir = d → m.entries = [] := by
  intro m hm hd
  obtain ⟨m', hm', rfl⟩ := List.mem_map.mp hm
  by_cases hp : pairCmp p m'.pair = false
  · rw [if_pos hp] at hd ⊢
    exact hedit m' hm' hd hp
  · rw [if_neg hp] at hd ⊢
    exact h m' hm' hd

/-! ## Lookups as searches in the directory -/

/-- The entries of a directory. -/
def entriesIn (d : Nat) (disk : List Mdir) : List DirEntry :=
  disk.flatMap fun m => if m.dir = d then m.entries else []

theorem entriesIn_cons (d : Nat) (m : Mdir) (disk : List Mdir) :
    entriesIn d (m :: disk) = (if m.dir = d then m.entries else []) ++ entriesIn d disk := rfl

theorem mem_entriesIn : e ∈ entriesIn d disk ↔ ∃ m ∈ disk, m.dir = d ∧ e ∈ m.entries := by
  refine List.mem_flatMap.trans (exists_congr fun m => and_congr_right fun _ => ?_)
  split <;> simp [*]

/-- The first entry of the directory with the name. -/
def searchIn (l : Link) (disk : List Mdir) : Option DirEntry :=
  (entriesIn l.dir disk).find? (·.named l.name)

/-- The disk as lookups see it. -/
def Tree.seen (s : Tree) : List Mdir :=
  s.disk.map fun m => { m with entries := m.visible s.gdisk }

theorem find?_zipIdx (f : α → Bool) (l : List α) (n : Nat) :
    ((l.zipIdx n).find? fun e => f e.1).map Prod.fst = l.find? f := by
  induction l generalizing n with
  | nil => rfl
  | cons a l ih =>
    rw [List.zipIdx_cons, List.find?_cons, List.find?_cons]
    cases f a with
    | true => rfl
    | false => exact ih (n + 1)

theorem Mdir.find_entry (gdisk : GState) (name : List UInt8) (m : Mdir) :
    (m.find gdisk name).map Found.entry = (m.visible gdisk).find? (·.named name) := by
  rw [Mdir.find, Option.map_map]
  exact find?_zipIdx _ _ 0

theorem Mdir.find_spec {m : Mdir} (h : m.find gdisk name = some f) :
    f.pair = m.pair ∧ (m.visible gdisk)[f.id]? = some f.entry ∧ f.entry.named name = true := by
  rw [Mdir.find, Option.map_eq_some_iff] at h
  obtain ⟨e, he, rfl⟩ := h
  have hmem := List.mem_of_find?_eq_some he
  have hnamed := List.find?_some he
  exact ⟨rfl, List.mem_zipIdx_iff_getElem?.mp hmem, hnamed⟩

theorem find_eq_findSome? (gdisk : GState) (l : Link) (disk : List Mdir) :
    (disk.findSome? fun m => if m.dir = l.dir then m.find gdisk l.name else none).map Found.entry =
      searchIn l (disk.map fun m => { m with entries := m.visible gdisk }) := by
  induction disk with
  | nil => rfl
  | cons m disk ih =>
    rw [List.findSome?_cons, List.map_cons, searchIn, entriesIn_cons, List.find?_append, ← searchIn,
      ← ih]
    dsimp only
    split
    · rename_i b hb
      split at hb
      · rw [if_pos ‹_›, ← Mdir.find_entry, hb]
        rfl
      · cases hb
    · rename_i hb
      split at hb
      · rw [if_pos ‹_›, ← Mdir.find_entry, hb]
        rfl
      · rw [if_neg ‹_›]
        rfl

/-- A lookup searches the directory as it is seen. -/
theorem Tree.lookup_eq (s : Tree) (l : Link) :
    s.lookup l = (searchIn l s.seen).map DirEntry.node := by
  rw [Tree.seen, ← find_eq_findSome?, Option.map_map]
  rfl

theorem Tree.find_spec {s : Tree} (h : s.find l = some f) :
    ∃ m ∈ s.disk, m.dir = l.dir ∧ f.pair = m.pair ∧
      (m.visible s.gdisk)[f.id]? = some f.entry ∧ f.entry.named l.name = true := by
  obtain ⟨m, hm, hf⟩ := List.exists_of_findSome?_eq_some h
  split at hf
  · exact ⟨m, hm, ‹_›, Mdir.find_spec hf⟩
  · cases hf

@[simp] theorem Mdir.visible_clean (m : Mdir) : m.visible {} = m.entries := rfl

theorem Tree.Clean.seen {s : Tree} (H : s.Clean) : s.seen = s.disk := by
  rw [Tree.seen, H.gdisk]
  exact List.map_id' s.disk

/-! ## Attributes -/

/-- A user attribute gets a value, or it is removed. -/
def DirEntry.setAttr (type : UInt8) (value : Option (List UInt8)) (e : DirEntry) : DirEntry :=
  { e with attrs := e.attrs.filter (·.1 != type) ++ (value.map (type, ·)).toList }

/-- The entry without its attributes, which is all that a lookup asks for. -/
def DirEntry.bare (e : DirEntry) : DirEntry := { e with attrs := [] }

def Mdir.bare (m : Mdir) : Mdir := { m with entries := m.entries.map DirEntry.bare }

theorem searchIn_bare (l : Link) (disk : List Mdir) :
    searchIn l (disk.map Mdir.bare) = (searchIn l disk).map DirEntry.bare := by
  have hentries : entriesIn l.dir (disk.map Mdir.bare) =
      (entriesIn l.dir disk).map DirEntry.bare := by
    induction disk with
    | nil => rfl
    | cons m disk ih =>
      rw [List.map_cons, entriesIn_cons, ih, entriesIn_cons, List.map_append]
      congr 1
      rw [apply_ite (List.map DirEntry.bare)]
      rfl
  rw [searchIn, hentries, List.find?_map]
  rfl

theorem Tree.seen_bare (s : Tree) :
    s.seen.map Mdir.bare = ({ s with disk := s.disk.map Mdir.bare } : Tree).seen := by
  rw [Tree.seen, Tree.seen, List.map_map, List.map_map]
  refine List.map_congr_left fun m _ => ?_
  simp only [Function.comp_apply, Mdir.bare, Mdir.visible, List.eraseIdx_map,
    apply_ite (List.map DirEntry.bare)]

/-- A lookup does not notice a change of attributes. -/
theorem Tree.lookup_bare (s : Tree) {disk : List Mdir} (l : Link)
    (h : disk.map Mdir.bare = s.disk.map Mdir.bare) :
    ({ s with disk } : Tree).lookup l = s.lookup l := by
  have hnode : ∀ s : Tree, s.lookup l =
      (searchIn l ({ s with disk := s.disk.map Mdir.bare } : Tree).seen).map DirEntry.node := by
    intro s
    rw [← s.seen_bare, searchIn_bare, Option.map_map, Tree.lookup_eq]
    rfl
  rw [hnode, hnode s]
  dsimp only
  rw [h]

theorem editPair_setAttr (p : BlockPair) (id : Nat) (type : UInt8) (value : Option (List UInt8))
    (disk : List Mdir) :
    (editPair p (·.modify id (·.setAttr type value)) disk).map Mdir.bare = disk.map Mdir.bare := by
  rw [editPair, List.map_map]
  refine List.map_congr_left fun m _ => ?_
  rw [Function.comp_apply]
  split
  · rw [Mdir.bare, Mdir.bare]
    congr 1
    refine List.ext_getElem? fun i => ?_
    rw [List.getElem?_map, List.getElem?_map, List.getElem?_modify]
    cases m.entries[i]? with
    | none => rfl
    | some e =>
      simp only [Option.map_eq_map, Option.map_some]
      split <;> rfl
  · rfl

/-! ## Edits that a lookup does not notice -/

theorem find?_insertIdx {f : α → Bool} (ha : f a = false) (l : List α) (i : Nat) :
    (l.insertIdx i a).find? f = l.find? f := by
  induction l generalizing i with
  | nil =>
    cases i with
    | zero => exact List.find?_cons_of_neg (by simp [ha])
    | succ i => rfl
  | cons b l ih =>
    cases i with
    | zero => exact List.find?_cons_of_neg (by simp [ha])
    | succ i => rw [List.insertIdx_succ_cons, List.find?_cons, List.find?_cons, ih]

theorem find?_eraseIdx {f : α → Bool} {l : List α} {i : Nat}
    (h : ∀ a, l[i]? = some a → f a = false) :
    (l.eraseIdx i).find? f = l.find? f := by
  induction l generalizing i with
  | nil => rfl
  | cons b l ih =>
    cases i with
    | zero => exact (List.find?_cons_of_neg (by simp [h b rfl])).symm
    | succ i =>
      rw [List.eraseIdx_cons_succ, List.find?_cons, List.find?_cons, ih (fun a ha => h a ha)]

theorem find?_modify {f : α → Bool} {g : α → α} {l : List α} {i : Nat}
    (h : ∀ a, l[i]? = some a → f a = false ∧ f (g a) = false) :
    (l.modify i g).find? f = l.find? f := by
  induction l generalizing i with
  | nil => rw [List.modify_nil]
  | cons b l ih =>
    cases i with
    | zero =>
      obtain ⟨hb, hg⟩ := h b rfl
      rw [List.modify_zero_cons, List.find?_cons, List.find?_cons, hb, hg]
    | succ i =>
      rw [List.modify_succ_cons, List.find?_cons, List.find?_cons, ih (fun a ha => h a ha)]

/-- **Frame.** A lookup does not notice an edit that leaves its search in the edited pair alone. -/
theorem searchIn_editPair {l : Link} (h : ∀ m ∈ disk, pairCmp p m.pair = false → m.dir = l.dir →
      (edit m.entries).find? (DirEntry.named l.name) =
        m.entries.find? (DirEntry.named l.name)) :
    searchIn l (editPair p edit disk) = searchIn l disk := by
  induction disk with
  | nil => rfl
  | cons m disk ih =>
    have ih := ih fun m hm => h m (.tail _ hm)
    have hm := h m (.head _)
    rw [editPair, List.map_cons, ← editPair, searchIn, searchIn, entriesIn_cons, entriesIn_cons,
      List.find?_append, List.find?_append, ← searchIn, ← searchIn, ih]
    congr 1
    by_cases hd : m.dir = l.dir
    · by_cases hp : pairCmp p m.pair = false
      · rw [if_pos hp, if_pos hd, if_pos hd, hm hp hd]
      · rw [if_neg hp]
    · rw [if_neg hd, if_neg (by split <;> exact hd)]

theorem searchIn_append_empty (l : Link) (disk : List Mdir) (pair : BlockPair) (d : Nat) :
    searchIn l (disk ++ [⟨pair, d, []⟩]) = searchIn l disk := by
  rw [searchIn, searchIn, entriesIn, entriesIn, List.flatMap_append, List.flatMap_singleton,
    ite_self,
    List.append_nil]

theorem entriesIn_filter_empty (h : ∀ m ∈ disk, m.dir = d → m.entries = []) (d' : Nat) :
    entriesIn d' (disk.filter (·.dir ≠ d)) = entriesIn d' disk := by
  induction disk with
  | nil => rfl
  | cons m disk ih =>
    have ih := ih fun m hm => h m (.tail _ hm)
    by_cases hd : m.dir = d
    · rw [List.filter_cons_of_neg (by simp [hd]), ih, entriesIn_cons, h m (.head _) hd, ite_self,
        List.nil_append]
    · rw [List.filter_cons_of_pos (by simp [hd]), entriesIn_cons, entriesIn_cons, ih]

theorem searchIn_filter_empty (h : ∀ m ∈ disk, m.dir = d → m.entries = []) (l : Link) :
    searchIn l (disk.filter (·.dir ≠ d)) = searchIn l disk := by
  rw [searchIn, entriesIn_filter_empty h, searchIn]

theorem named_ne {e : DirEntry} (h : e.named a = true) (hne : b ≠ a) : e.named b = false := by
  simp only [DirEntry.named, Bool.and_eq_true, beq_iff_eq] at h
  simp [DirEntry.named, h.2, hne.symm]

theorem Link.name_ne {l l' : Link} (hne : l ≠ l') (hdir : l.dir = l'.dir) : l.name ≠ l'.name := by
  intro hname
  obtain ⟨d, n⟩ := l
  cases hdir
  cases hname
  exact hne rfl

theorem Tree.insertion_spec {s : Tree} (h : s.insertion l = some i) :
    ∃ m ∈ s.disk, m.dir = l.dir ∧ i.1 = m.pair := by
  rw [Tree.insertion, Option.or_eq_some_iff] at h
  rcases h with h | ⟨-, h⟩
  · obtain ⟨m, hm, h⟩ := List.exists_of_findSome?_eq_some h
    obtain ⟨id, -, rfl⟩ := Option.map_eq_some_iff.mp h
    obtain ⟨hm, hdir⟩ := List.mem_filter.mp hm
    exact ⟨m, hm, of_decide_eq_true hdir, rfl⟩
  · obtain ⟨m, hm, rfl⟩ := Option.map_eq_some_iff.mp h
    obtain ⟨hm, hdir⟩ := List.mem_filter.mp (List.mem_of_getLast? hm)
    exact ⟨m, hm, of_decide_eq_true hdir, rfl⟩

/-- A tree with nothing pending and disjoint pairs. -/
structure Tree.Quiet (s : Tree) : Prop where
  clean : s.Clean
  disjoint : PairsDisjoint s.disk

namespace Tree.Quiet

variable {s : Tree}

theorem lookup_eq (H : s.Quiet) (l : Link) :
    s.lookup l = (searchIn l s.disk).map DirEntry.node := by
  rw [Tree.lookup_eq, H.clean.seen]

/-- What was found is the entry of every pair with a block of its pair. -/
theorem find_unique (H : s.Quiet) (h : s.find l = some f) (hm : m ∈ s.disk)
    (hp : pairCmp f.pair m.pair = false) :
    m.dir = l.dir ∧ m.entries[f.id]? = some f.entry ∧ f.entry.named l.name = true := by
  obtain ⟨m', hm', hdir, hpair, hentry, hnamed⟩ := Tree.find_spec h
  rw [hpair] at hp
  obtain rfl := H.disjoint.eq_of_shares hm' hm hp
  rw [H.clean.gdisk, Mdir.visible_clean] at hentry
  exact ⟨hdir, hentry, hnamed⟩

theorem searchIn_erase (H : s.Quiet) (h : s.find l' = some f) (hne : l ≠ l') :
    searchIn l (editPair f.pair (·.eraseIdx f.id) s.disk) = searchIn l s.disk := by
  refine searchIn_editPair fun m hm hp hdir => find?_eraseIdx fun e he => ?_
  obtain ⟨hdir', hentry, hnamed⟩ := H.find_unique h hm hp
  obtain rfl : f.entry = e := Option.some.inj (hentry.symm.trans he)
  exact named_ne hnamed (Link.name_ne hne (hdir.symm.trans hdir'))

theorem searchIn_modify (H : s.Quiet) (h : s.find l' = some f) (hne : l ≠ l') (node : Node) :
    searchIn l (editPair f.pair (·.modify f.id fun e => { e with node := node }) s.disk) =
      searchIn l s.disk := by
  refine searchIn_editPair fun m hm hp hdir => find?_modify fun e he => ?_
  obtain ⟨hdir', hentry, hnamed⟩ := H.find_unique h hm hp
  obtain rfl : f.entry = e := Option.some.inj (hentry.symm.trans he)
  have hname := Link.name_ne hne (hdir.symm.trans hdir')
  refine ⟨named_ne hnamed hname, ?_⟩
  simp only [DirEntry.named, Bool.and_eq_true, beq_iff_eq] at hnamed
  simp [DirEntry.named, hnamed.2, hname.symm]

/-- The pairs with a block of the insertion point belong to the directory. -/
theorem insertion_dir (H : s.Quiet) (h : s.insertion l = some i) (hm : m ∈ s.disk)
    (hp : pairCmp i.1 m.pair = false) : m.dir = l.dir := by
  obtain ⟨m', hm', hdir, hpair⟩ := Tree.insertion_spec h
  rw [hpair] at hp
  obtain rfl := H.disjoint.eq_of_shares hm' hm hp
  exact hdir

theorem searchIn_insert (H : s.Quiet) (h : s.insertion l' = some i) (hne : l ≠ l') (node : Node) :
    searchIn l (editPair i.1 (·.insertIdx i.2 { name := l'.name, node }) s.disk) =
      searchIn l s.disk := by
  refine searchIn_editPair fun m hm hp hdir => find?_insertIdx ?_ _ _
  have hname := Link.name_ne hne (hdir.symm.trans (H.insertion_dir h hm hp))
  simp [DirEntry.named, hname.symm]

end Tree.Quiet

end LittleFs
