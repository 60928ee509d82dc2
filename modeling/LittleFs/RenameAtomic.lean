import LittleFs.RenameTree

/-! A rename to another metadata pair under power loss. Between its two commits the entry is on disk
twice, and the move in the global state hides the copy under the old name, so that at every point
one of the two paths leads to it. -/

namespace LittleFs

/-! ## Lookups behind a rename -/

/-- No name that a path can lead to occurs twice in a directory. -/
def UniquePathNames (disk : List Mdir) : Prop :=
  ∀ m ∈ disk, ∀ m' ∈ disk, m.dir = m'.dir → ∀ e ∈ m.entries.zipIdx, ∀ e' ∈ m'.entries.zipIdx,
    slash ∉ e.1.name → e.1.node ≠ .superblock → e'.1.named e.1.name = true → m = m' ∧ e.2 = e'.2

instance (disk : List Mdir) : Decidable (UniquePathNames disk) :=
  inferInstanceAs (Decidable (∀ m ∈ disk, _))

theorem Tree.find_entry (s : Tree) (l : Link) :
    (s.find l).map Found.entry = searchIn l s.seen :=
  find_eq_findSome? s.gdisk l s.disk

namespace Renaming.Checked

variable {s : Tree} {old new : Link} {r : Renaming}

theorem searchIn_moved_other (H : r.Checked s old new) (hs : s.Quiet) (hold : k ≠ old)
    (hnew : k ≠ new) (hname : k.dir = new.dir → k.name ≠ name) :
    searchIn k (r.moved name s.disk) = searchIn k s.disk := by
  rw [moved]
  cases hsame : r.samepair with
  | true => exact H.searchIn_edit hs hold hnew hname
  | false => exact (H.searchIn_erase hs hsame hold name).trans (H.searchIn_edit hs hold hnew hname)

end Renaming.Checked

/-! ## Walks along a path -/

section
variable {s t : Tree} {r : Renaming} {old new : PathEnd}

/-- What lookups see once the entry has moved: the two paths lead there in `s`, and `t` is a tree in
which the entry has been written with the new name and its old copy is gone or hidden. -/
structure SeesMoved (s t : Tree) (r : Renaming) (oldpath newpath : List UInt8) (old new : PathEnd) :
    Prop where
  quiet : s.Quiet
  unique : UniquePathNames s.disk
  oldEnd : s.pathEnd oldpath = .ok old
  newEnd : s.pathEnd newpath = .ok new
  check : s.renameCheck old.link new.link = .ok r
  /-- Nothing stands behind the last name. -/
  rest : new.rest = []
  file : ∀ e, r.prev = some e → e.node.isDir = false
  seen : ∀ l, searchIn l t.seen = searchIn l (r.moved new.link.name s.disk)

namespace SeesMoved

theorem checked (M : SeesMoved s t r oldpath newpath old new) : r.Checked s old.link new.link :=
  renameCheck_ok M.check

theorem lookup (M : SeesMoved s t r oldpath newpath old new) (hold : l ≠ old.link)
    (hnew : l ≠ new.link) : t.lookup l = s.lookup l := by
  rw [Tree.lookup_eq, M.seen, M.checked.searchIn_moved_other M.quiet hold hnew (Link.name_ne hnew),
    M.quiet.lookup_eq]

theorem lookup_new (M : SeesMoved s t r oldpath newpath old new) :
    s.lookup new.link = r.prev.map DirEntry.node := by
  rw [renameCheck_prev M.check, Option.map_map]
  rfl

theorem new_file (M : SeesMoved s t r oldpath newpath old new) (d : Nat) :
    s.lookup new.link ≠ some (.dir d) := by
  rw [M.lookup_new]
  intro h
  obtain ⟨e, he, hnode⟩ := Option.map_eq_some_iff.mp h
  have hfile := M.file e he
  rw [hnode] at hfile
  cases hfile

end SeesMoved

end

/-! ## Commits that regroup a pair -/

/-- What a commit can do to its pair besides its edit: compact it, split it into several, or drop it
when it is empty. -/
structure Regroups (p : BlockPair) (disk disk' : List Mdir) : Prop where
  disjoint : PairsDisjoint disk'
  parts : ∃ f : Mdir → List Mdir,
    (∀ m ∈ disk, (f m).flatMap Mdir.entries = m.entries ∧ ∀ m' ∈ f m, m'.dir = m.dir) ∧
      disk' = disk.flatMap fun m => if pairCmp p m.pair = false then f m else [m]

theorem regroups_refl (H : PairsDisjoint disk) (p : BlockPair) : Regroups p disk disk := by
  refine ⟨H, fun m => [m], fun m _ => ⟨List.append_nil _, fun m' hm' => ?_⟩, ?_⟩
  · rw [List.mem_singleton.mp hm']
  · simp only [ite_self]
    exact (List.flatMap_singleton' disk).symm

/-- The tree after the next mount. -/
def Tree.mounted (s : Tree) : Tree :=
  { s with gstate := mountedGstate s.gdisk, gdisk := mountedGstate s.gdisk }

/-- The mount fetches all pairs. -/
def Renamed.mounted (s : Renamed) : Option Tree :=
  if s.unreadable = none then some s.tree.mounted else none

/-- What is on disk when the power is lost before, between or after the commits of a rename to
another pair. -/
inductive Tree.Interrupted (s : Tree) (oldpath newpath : List UInt8) : Renamed → Prop where
  | start : s.Interrupted oldpath newpath { tree := s }
  | repaired (h : s.forceconsistency = some s₁) : s.Interrupted oldpath newpath { tree := s₁ }
  | between (h : s.forceconsistency = some s₁)
    (hcheck : s₁.renamePathCheck oldpath newpath = .ok p)
    (hmark : s₁.mark p.marks = some s₂)
    (hdisk : Regroups p.pair (editPair p.pair p.edit s₂.disk) disk₁) (appends : Bool) :
    s.Interrupted oldpath newpath
      { tree := { s₂ with disk := disk₁, gdisk := s₂.gstate }, unreadable := p.unreadable appends }
  | done (h : s.forceconsistency = some s₁)
    (hcheck : s₁.renamePathCheck oldpath newpath = .ok p)
    (hmark : s₁.mark p.marks = some s₂)
    (hdisk : Regroups p.pair (editPair p.pair p.edit s₂.disk) disk₁) (appends : Bool)
    (hdisk' : Regroups p.old.pair (editPair p.old.pair (·.eraseIdx p.old.id) disk₁) disk₂)
    (hgstate : g = fsPrepmove s₂.gstate 0x3ff#16 (0, 0)) :
    s.Interrupted oldpath newpath
      { tree := { s₂ with disk := disk₂, gstate := g, gdisk := g },
        unreadable := p.unreadable appends }

theorem Regroups.mem (G : Regroups p disk disk') (hm : m ∈ disk) (hp : pairCmp p m.pair = true) :
    m ∈ disk' := by
  obtain ⟨f, -, rfl⟩ := G.parts
  exact List.mem_flatMap.mpr ⟨m, hm, by rw [if_neg (by rw [hp]; decide)]; exact .head _⟩

section
variable {s : Tree} {r : Renaming} {g : GState} {old new : Link}

end

theorem PathRenaming.edit_set {p : PathRenaming} (hunset : p.unset = false) :
    p.edit = p.toRenaming.edit p.name := by
  funext es
  rw [edit, if_neg (by rw [hunset]; decide)]

/-- A rename that is not interrupted ends behind its second commit. -/
theorem interrupted_of_rename {s : Tree} {s' : Renamed} {p : PathRenaming} (H : s.Mounted)
    (hold : s₁.pathEnd oldpath = .ok old) (hnew : s₁.pathEnd newpath = .ok new)
    (hs₁ : s.forceconsistency = some s₁)
    (hcheck : s₁.renamePathCheck oldpath newpath = .ok p) (hother : p.samepair = false)
    (hrep : p.replaced = none)
    (h : s.rawRenamePath oldpath newpath (fun _ => errOk) appends = some (s', errOk)) :
    s.Interrupted oldpath newpath s' := by
  obtain ⟨hquiet, hdisk⟩ := H.forceconsistency hs₁
  have hfound : s₁.find old.link = some p.old := by
    cases renamePathCheck_ok hold hnew hcheck with
    | set _ _ _ hcheck => exact (renameCheck_ok hcheck).old
    | unset _ _ hcheck => exact (renameCheckUnset_ok hcheck).old
  obtain ⟨g, hg, hpending⟩ := p.marks_stores
  have hmark : s₁.mark p.marks = some { s₁ with gstate := g } := by
    rw [Tree.mark, hquiet.clean.gstate, hg, Option.map_some]
  have hmove : gstateHasmove g = true := by
    have hsome := (move_pending hquiet (hdisk ▸ H.count_seen) hfound hother).1
    exact hpending.hasmove.mpr (.inr (by rw [hsome]; rfl))
  have hdisjoint := hquiet.disjoint.editPair p.pair p.edit
  have hdone := Tree.Interrupted.done hs₁ hcheck hmark (regroups_refl hdisjoint _) appends
    (regroups_refl (hdisjoint.editPair p.old.pair (·.eraseIdx p.old.id)) _) rfl
  have hcommits : ({ s₁ with gstate := g } : Tree).renamePathCommits p (fun _ => errOk) =
      some ({ s₁ with
        disk := editPair p.old.pair (·.eraseIdx p.old.id) (editPair p.pair p.edit s₁.disk)
        gstate := fsPrepmove g 0x3ff#16 (0, 0)
        gdisk := fsPrepmove g 0x3ff#16 (0, 0) }, errOk) := by
    rw [Tree.renamePathCommits]
    cases hunset : p.unset with
    | true =>
      rw [if_pos rfl, if_neg (by decide)]
      dsimp only
      rw [if_pos ⟨hother, hmove⟩, if_neg (by decide)]
      rfl
    | false =>
      rw [if_neg (by decide), Tree.renameCommits, if_neg (by decide)]
      dsimp only
      rw [if_pos ⟨hother, hmove⟩, if_neg (by decide), Tree.renameDrop, hrep,
        PathRenaming.edit_set hunset]
      rfl
  rw [Tree.rawRenamePath, hs₁, Option.bind_some, hcheck] at h
  dsimp only at h
  rw [hmark, Option.bind_some, hcommits, Option.map_some, if_pos rfl] at h
  cases h
  exact hdone

end LittleFs
