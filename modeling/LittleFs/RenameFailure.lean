import LittleFs.DirTree

/-! A rename that fails before its first commit. `lfs_raw_rename` notes the move in the global state
in memory, and no error path takes the note back: the next commit of any operation publishes it,
and the source is gone. -/

namespace LittleFs

/-! ## `lfs_raw_rename` -/

def Node.isDir : Node → Bool
  | .dir _ => true
  | _ => false

/-- The directory must be empty before removal. -/
def Tree.emptyDirError (s : Tree) (d : Nat) : Int :=
  match s.disk.filter (·.dir = d) with
  | [] => errCorrupt
  | m :: rest => if m.entries ≠ [] ∨ rest ≠ [] then errNotempty else errOk

/-- What `lfs_raw_rename` has found when it starts to write. -/
structure Renaming where
  old : Found
  /-- The entry that is replaced. -/
  prev : Option DirEntry
  /-- `newcwd.pair` and `newid`. -/
  pair : BlockPair
  id : Nat
  deriving DecidableEq, Repr

def Renaming.samepair (r : Renaming) : Bool := !pairCmp r.old.pair r.pair

def Renaming.newoldid (r : Renaming) : Nat :=
  if r.prev = none ∧ r.samepair = true ∧ r.id ≤ r.old.id then r.old.id + 1 else r.old.id

/-- The directory that is replaced. -/
def Renaming.replaced (r : Renaming) : Option Nat :=
  match r.prev with
  | some ⟨_, .dir d, _⟩ => some d
  | _ => none

/-- The checks of `lfs_raw_rename`; the error is `LFS_ERR_OK` for a renaming to itself. -/
def Tree.renameCheck (s : Tree) (old new : Link) : Except Int Renaming :=
  match s.find old with
  | none => .error errNoent
  | some o =>
    match s.find new with
    | none =>
      match s.insertion new with
      | none => .error errNoent
      | some (pair, id) =>
        -- check that name fits
        if new.name.length > s.nameMax then .error errNametoolong else .ok ⟨o, none, pair, id⟩
    | some prev =>
      if prev.entry.node.isDir ≠ o.entry.node.isDir then .error errIsdir
      else if pairCmp o.pair prev.pair = false ∧ prev.id = o.id then .error errOk
      else
        match prev.entry.node with
        | .dir d =>
          if s.emptyDirError d ≠ errOk then .error (s.emptyDirError d)
          else .ok ⟨o, some prev.entry, prev.pair, prev.id⟩
        | _ => .ok ⟨o, some prev.entry, prev.pair, prev.id⟩

/-- The calls on the global state before the first commit. -/
def Renaming.marks (r : Renaming) : List GstateCall :=
  (if r.replaced.isSome then [.preporphans 1#8] else []) ++
    if r.samepair then [] else [.prepmove (BitVec.ofNat 16 r.newoldid) r.old.pair]

def Tree.mark (s : Tree) (calls : List GstateCall) : Option Tree :=
  (Run.exec GState.call s.gstate calls).map fun gstate => { s with gstate }

/-- The first commit: move over all attributes. -/
def Renaming.edit (r : Renaming) (name : List UInt8) (es : List DirEntry) : List DirEntry :=
  let es := if r.prev.isSome then es.eraseIdx r.id else es
  let es := es.insertIdx r.id { r.old.entry with name }
  if r.samepair then es.eraseIdx r.newoldid else es

/-- A commit that leaves the entries alone. -/
def Tree.publish (s : Tree) : Tree := { s with gdisk := s.gstate }

/-- `lfs_dir_drop` of a directory without entries. -/
def Tree.drop (s : Tree) (d : Nat) : Tree :=
  { s with disk := s.disk.filter (·.dir ≠ d), gdisk := s.gstate }

/-- The last part of `lfs_raw_rename`; `res` is what its commits return. -/
def Tree.renameDrop (s : Tree) (r : Renaming) (res : Nat → Int) : Option (Tree × Int) :=
  match r.replaced with
  | none => some (s, errOk)
  | some d =>
    -- fix orphan
    (s.mark [.preporphans (-1#8)]).map fun s =>
      if res 2 ≠ errOk then (s, res 2) else (s.drop d, errOk)

def Tree.renameCommits (s : Tree) (r : Renaming) (name : List UInt8) (res : Nat → Int) :
    Option (Tree × Int) :=
  if res 0 ≠ errOk then some (s, res 0)
  else
    let s := s.commit r.pair (r.edit name)
    if r.samepair = false ∧ gstateHasmove s.gstate = true then
      -- prep gstate and delete move id
      let s := { s with gstate := fsPrepmove s.gstate 0x3ff#16 (0, 0) }
      if res 1 ≠ errOk then some (s, res 1)
      else (s.commit r.old.pair (·.eraseIdx r.old.id)).renameDrop r res
    else s.renameDrop r res

/-- `lfs_raw_rename`, whose commits return `res`: an error if they have not reached the disk. -/
def Tree.rawRename (s : Tree) (old new : Link) (res : Nat → Int) : Option (Tree × Int) :=
  s.forceconsistency.bind fun s =>
    match s.renameCheck old new with
    | .error err => some (s, err)
    | .ok r => (s.mark r.marks).bind fun s => s.renameCommits r new.name res

/-! ## The other operations -/

/-- `lfs_raw_remove`; `none` when it fails. -/
def Tree.rawRemove (s : Tree) (l : Link) : Option Tree :=
  s.forceconsistency.bind fun s =>
    (s.find l).bind fun f =>
      match f.entry.node with
      | .dir d =>
        if s.emptyDirError d ≠ errOk then none
        else (s.mark [.preporphans 1#8]).bind fun s =>
          ((s.commit f.pair (·.eraseIdx f.id)).mark [.preporphans (-1#8)]).map (·.drop d)
      | _ => some (s.commit f.pair (·.eraseIdx f.id))

/-- `lfs_file_rawopencfg` with `LFS_O_WRONLY` and `LFS_O_CREAT`. -/
def Tree.rawOpen (s : Tree) (l : Link) : Option Tree :=
  s.forceconsistency.bind fun s =>
    match s.find l with
    | some f => if f.entry.node.isDir then none else some s
    | none =>
      if l.name.length > s.nameMax then none
      else (s.insertion l).map fun i =>
        s.commit i.1 (·.insertIdx i.2 { name := l.name, node := .reg [] })

/-- The commit of `lfs_file_rawsync`. -/
def Tree.rawSync (s : Tree) (l : Link) (data : List UInt8) : Option Tree :=
  (s.find l).bind fun f =>
    if f.entry.node.isDir then none
    else some (s.commit f.pair (·.modify f.id fun e => { e with node := .reg data }))

/-- `split` of a pair in the chain of a directory. -/
def Tree.isSplit (s : Tree) (d : Nat) (pair : BlockPair) : Bool :=
  ((s.disk.filter (·.dir = d)).getLast?.map Mdir.pair) != some pair

/-- `lfs_dir_rawcreate`, which builds the directory `d` in the new pair. -/
def Tree.rawMkdir (s : Tree) (l : Link) (pair : BlockPair) (d : Nat) : Option Tree :=
  s.forceconsistency.bind fun s =>
    if (s.find l).isSome ∨ l.name.length > s.nameMax then none
    else (s.insertion l).bind fun i =>
      -- setup dir
      let s' := { s with disk := s.disk ++ [Mdir.mk pair d []] }.publish
      -- current block not end of list?
      (if s.isSplit l.dir i.1 then
        (s'.mark [.preporphans 1#8]).bind fun s => s.publish.mark [.preporphans (-1#8)]
      else some s').map fun s => s.commit i.1 (·.insertIdx i.2 { name := l.name, node := .dir d })

/-- `lfs_commit_attribute`; the link is `none` for the root. -/
def Tree.commitAttribute (s : Tree) (type : UInt8) (value : Option (List UInt8)) :
    Option Link → Option Tree
  | none => some (s.commit s.root (·.modify 0 (·.setAttr type value)))
  | some l => (s.find l).map fun f => s.commit f.pair (·.modify f.id (·.setAttr type value))

/-- What a mount makes of the global state on disk, which leaves out the number of orphans. -/
def mountedGstate (g : GState) : GState :=
  let tag := g.tag &&& ~~~mkTag 0 0 0x3ff
  { g with tag := tag + if tagIsValid tag then 0 else 1 }

inductive TreeOp where
  | «open» (l : Link)
  | sync (l : Link) (data : List UInt8)
  | mkdir (l : Link) (pair : BlockPair) (d : Nat)
  | setAttribute (l : Option Link) (type : UInt8) (value : Option (List UInt8))
  | remove (l : Link)
  | rename (old new : Link)
  | mount
  /-- A compaction, a split, a relocation or the removal of a pair without entries. -/
  | rearrange (disk : List Mdir)

/-- A successful operation. -/
def Tree.step (s : Tree) : TreeOp → Option Tree
  | .open l => s.rawOpen l
  | .sync l data => s.rawSync l data
  | .mkdir l pair d => s.rawMkdir l pair d
  | .setAttribute l type value => s.commitAttribute type value l
  | .remove l => s.rawRemove l
  | .rename old new =>
    (s.rawRename old new fun _ => errOk).bind fun o => if o.2 = errOk then some o.1 else none
  | .mount => some { s with gstate := mountedGstate s.gdisk, gdisk := mountedGstate s.gdisk }
  | .rearrange disk => some { s with disk }

/-! ## Later runs -/

def TreeOp.names : TreeOp → List Link
  | .open l | .sync l _ | .mkdir l _ _ | .remove l | .setAttribute (some l) .. => [l]
  | .rename old new => [old, new]
  | .setAttribute none .. | .mount | .rearrange _ => []

/-- What the environment of an operation owes it: new pairs share no block with others, and a
rearrangement keeps the entries. -/
def TreeOp.Fair (s : Tree) : TreeOp → Prop
  | .mkdir _ pair _ => ∀ m ∈ s.disk, pairCmp m.pair pair = true
  | .rearrange disk => PairsDisjoint disk ∧ ∀ l, { s with disk }.lookup l = s.lookup l
  | _ => True

/-- An operation that names none of the links. -/
def TreeOp.Avoids (L : List Link) (s : Tree) (op : TreeOp) : Prop :=
  op.Fair s ∧ ∀ l ∈ op.names, l ∉ L

/-! ## The global state of an operation -/

theorem GState.Stores.unique {g g' : GState} (H : g.Stores s) (H' : g'.Stores s) : g = g' := by
  obtain ⟨tag, pair⟩ := g
  obtain ⟨tag', pair'⟩ := g'
  have htag : tag = tag' := BitVec.eq_of_toNat_eq (H.tag.trans H'.tag.symm)
  have hpair : pair = pair' := H.pair.trans H'.pair.symm
  rw [htag, hpair]

/-- One orphan and no move. -/
def orphanGstate : GState := ⟨0x80000001#32, (0, 0)⟩

theorem orphanGstate_stores : orphanGstate.Stores ⟨1, none⟩ :=
  ⟨by decide, by decide, by decide, rfl⟩

/-- What the marks of a rename stand for. -/
def Renaming.pending (r : Renaming) : Pending where
  orphans := if r.replaced.isSome then 1 else 0
  move := if r.samepair = true ∨ BitVec.ofNat 16 r.newoldid = 0x3ff#16 then none
    else some (BitVec.ofNat 16 r.newoldid, r.old.pair)

theorem Renaming.marks_stores (r : Renaming) :
    ∃ g, Run.exec GState.call {} r.marks = some g ∧ g.Stores r.pending := by
  have hexec : Run.exec Pending.call {} r.marks = some r.pending := by
    rw [Renaming.marks, Renaming.pending]
    cases r.replaced.isSome <;> cases r.samepair <;> simp [Run.exec, Pending.call]
  exact Run.exec_simulation (fun _ _ _ _ H hcall => H.call hcall) hexec stores_zero

/-- Once the move is taken back only the orphan is left. -/
theorem Renaming.unmark {r : Renaming} {g : GState} (H : g.Stores r.pending) :
    (if r.samepair = false ∧ gstateHasmove g = true then fsPrepmove g 0x3ff#16 (0, 0) else g) =
      if r.replaced.isSome then orphanGstate else {} := by
  have hstores : (if r.replaced.isSome then orphanGstate else {} : GState).Stores
      ⟨if r.replaced.isSome then 1 else 0, none⟩ := by
    split
    · exact orphanGstate_stores
    · exact stores_zero
  refine GState.Stores.unique ?_ hstores
  split
  · have hcall : r.pending.call (.prepmove 0x3ff#16 (0, 0)) =
        some ⟨if r.replaced.isSome then 1 else 0, none⟩ := rfl
    exact H.prepmove hcall
  · rename_i hnot
    have hnone : r.pending.move = none := by
      by_contra hmove
      have hsome := Option.isSome_iff_ne_none.mpr hmove
      refine hnot ⟨?_, H.hasmove.mpr (.inr hsome)⟩
      rw [← Bool.not_eq_true]
      intro hsame
      exact hmove (if_pos (.inl hsame))
    have hpending : r.pending = ⟨if r.replaced.isSome then 1 else 0, none⟩ := by
      rw [← hnone]
      rfl
    exact hpending ▸ H

/-! ## What an operation leaves alone -/

/-- The links are found as before, and nothing is pending. -/
structure Tree.Keeps (L : List Link) (s s' : Tree) : Prop where
  quiet : s'.Quiet
  lookup : ∀ l ∈ L, s'.lookup l = s.lookup l

theorem Tree.Quiet.keeps {s s' : Tree} (H : s.Quiet) (H' : s'.Quiet)
    (h : ∀ l ∈ L, searchIn l s'.disk = searchIn l s.disk) : Tree.Keeps L s s' := by
  refine ⟨H', fun l hl => ?_⟩
  rw [H'.lookup_eq, H.lookup_eq, h l hl]

theorem Tree.Quiet.forceconsistency {s : Tree} (H : s.Quiet) : s.forceconsistency = some s := by
  have hmove : gstateHasmove s.gdisk = false := by
    rw [H.clean.gdisk]
    rfl
  have horphans : gstateHasorphans s.gstate = false := by
    rw [H.clean.gstate]
    rfl
  rw [Tree.forceconsistency, Tree.demove, if_pos hmove, Option.bind_some, horphans]
  rfl

theorem emptyDir_entries {s : Tree} (h : s.emptyDirError d = errOk) (hm : m ∈ s.disk)
    (hd : m.dir = d) : m.entries = [] := by
  have hmem : m ∈ s.disk.filter (·.dir = d) := List.mem_filter.mpr ⟨hm, decide_eq_true hd⟩
  rw [Tree.emptyDirError] at h
  split at h
  · cases h
  · rename_i m' rest hchain
    split at h
    · cases h
    · rename_i hempty
      simp only [not_or, not_not] at hempty
      rw [hchain, hempty.2] at hmem
      rw [List.mem_singleton.mp hmem, hempty.1]

section
variable {s s' : Tree} {L : List Link}

theorem keeps_commit (H : s.Quiet) (p : BlockPair) (edit : List DirEntry → List DirEntry)
    (h : ∀ l ∈ L, searchIn l (editPair p edit s.disk) = searchIn l s.disk) :
    Tree.Keeps L s (s.commit p edit) :=
  H.keeps ⟨⟨H.clean.gstate, H.clean.gstate⟩, H.disjoint.editPair p edit⟩ h

theorem keeps_open (H : s.Quiet) (hl : l ∉ L) (h : s.rawOpen l = some s') :
    Tree.Keeps L s s' := by
  rw [Tree.rawOpen, H.forceconsistency, Option.bind_some] at h
  split at h
  · split at h
    · cases h
    · cases h
      exact ⟨H, fun _ _ => rfl⟩
  · split at h
    · cases h
    · obtain ⟨i, hi, rfl⟩ := Option.map_eq_some_iff.mp h
      exact keeps_commit H _ _ fun k hk => H.searchIn_insert hi (fun hkl => hl (hkl ▸ hk)) _

theorem keeps_sync (H : s.Quiet) (hl : l ∉ L) (h : s.rawSync l data = some s') :
    Tree.Keeps L s s' := by
  obtain ⟨f, hf, h⟩ := Option.bind_eq_some_iff.mp h
  split at h
  · cases h
  · cases h
    exact keeps_commit H _ _ fun k hk => H.searchIn_modify hf (fun hkl => hl (hkl ▸ hk)) _

theorem keeps_setAttr (H : s.Quiet) (p : BlockPair) (id : Nat) (type : UInt8)
    (value : Option (List UInt8)) :
    Tree.Keeps L s (s.commit p (·.modify id (·.setAttr type value))) := by
  refine ⟨⟨⟨H.clean.gstate, H.clean.gstate⟩, H.disjoint.editPair _ _⟩, fun l _ => ?_⟩
  have hgdisk : s.gstate = s.gdisk := H.clean.gstate.trans H.clean.gdisk.symm
  rw [Tree.commit, hgdisk]
  exact s.lookup_bare l (editPair_setAttr ..)

theorem keeps_commitAttribute (H : s.Quiet) (h : s.commitAttribute type value l = some s') :
    Tree.Keeps L s s' := by
  cases l with
  | none =>
    cases h
    exact keeps_setAttr H ..
  | some l =>
    obtain ⟨f, -, rfl⟩ := Option.map_eq_some_iff.mp h
    exact keeps_setAttr H ..

/-- An orphan that is counted and then taken back. -/
theorem mark_orphan (s : Tree) (h : s.gstate = {}) :
    s.mark [.preporphans 1#8] = some { s with gstate := orphanGstate } := by
  rw [Tree.mark, h]
  rfl

theorem mark_fixed (s : Tree) (h : s.gstate = orphanGstate) :
    s.mark [.preporphans (-1#8)] = some { s with gstate := {} } := by
  rw [Tree.mark, h]
  rfl

theorem keeps_mkdir (H : s.Quiet) (hl : l ∉ L) (hpair : ∀ m ∈ s.disk, pairCmp m.pair pair = true)
    (h : s.rawMkdir l pair d = some s') : Tree.Keeps L s s' := by
  rw [Tree.rawMkdir, H.forceconsistency, Option.bind_some] at h
  split at h
  · cases h
  · obtain ⟨i, hi, h⟩ := Option.bind_eq_some_iff.mp h
    obtain ⟨s₁, hs₁, rfl⟩ := Option.map_eq_some_iff.mp h
    have hdisk : s₁.disk = s.disk ++ [⟨pair, d, []⟩] ∧ s₁.gstate = {} := by
      split at hs₁
      · rw [mark_orphan (Tree.publish { s with disk := s.disk ++ [Mdir.mk pair d []] })
          H.clean.gstate, Option.bind_some, mark_fixed _ (by rfl)] at hs₁
        cases hs₁
        exact ⟨rfl, rfl⟩
      · cases hs₁
        exact ⟨rfl, H.clean.gstate⟩
    have hdisjoint : PairsDisjoint s₁.disk := by
      rw [hdisk.1, PairsDisjoint, List.pairwise_append]
      refine ⟨H.disjoint, List.pairwise_singleton _ _, fun m hm m' hm' => ?_⟩
      rw [List.mem_singleton.mp hm']
      exact hpair m hm
    refine H.keeps ⟨⟨hdisk.2, hdisk.2⟩, hdisjoint.editPair _ _⟩ fun k hk => ?_
    have hne : k ≠ l := fun hkl => hl (hkl ▸ hk)
    rw [← searchIn_append_empty k s.disk pair d, ← hdisk.1]
    refine searchIn_editPair fun m hm hp hdir => find?_insertIdx ?_ _ _
    rw [hdisk.1] at hm
    rcases List.mem_append.mp hm with hm | hm
    · have hname := Link.name_ne hne (hdir.symm.trans (H.insertion_dir hi hm hp))
      simp [DirEntry.named, hname.symm]
    · -- the new pair is not the one with the insertion point
      obtain ⟨m', hm', -, heq⟩ := Tree.insertion_spec hi
      have hcmp := hpair m' hm'
      rw [List.mem_singleton.mp hm, heq, hcmp] at hp
      cases hp

theorem keeps_remove (H : s.Quiet) (hl : l ∉ L) (h : s.rawRemove l = some s') :
    Tree.Keeps L s s' := by
  rw [Tree.rawRemove, H.forceconsistency, Option.bind_some] at h
  obtain ⟨f, hf, h⟩ := Option.bind_eq_some_iff.mp h
  have herase : ∀ k ∈ L, searchIn k (editPair f.pair (·.eraseIdx f.id) s.disk) =
    searchIn k s.disk :=
    fun k hk => H.searchIn_erase hf fun hkl => hl (hkl ▸ hk)
  split at h
  · rename_i d hnode
    split at h
    · cases h
    · rename_i hempty
      rw [not_not] at hempty
      rw [mark_orphan _ H.clean.gstate, Option.bind_some, mark_fixed _ (by rfl)] at h
      cases h
      have hentries : ∀ m ∈ s.disk, m.dir = d → m.entries = [] := fun m => emptyDir_entries hempty
      have hdropped : ∀ m ∈ editPair f.pair (·.eraseIdx f.id) s.disk, m.dir = d → m.entries = [] :=
        editPair_empty hentries fun m hm hd _ => by rw [hentries m hm hd, List.eraseIdx_nil]
      refine H.keeps ⟨⟨rfl, rfl⟩, ?_⟩ fun k hk => ?_
      · exact (H.disjoint.editPair f.pair (·.eraseIdx f.id)).filter _
      · exact (searchIn_filter_empty hdropped k).trans (herase k hk)
  · cases h
    exact keeps_commit H _ _ herase

end

/-! ## A successful rename -/

/-- Where a rename finds its target. -/
inductive Renaming.Target (s : Tree) (new : Link) (r : Renaming) : Prop where
  | fresh (hprev : r.prev = none) (h : s.insertion new = some (r.pair, r.id))
  | replace (hprev : r.prev = some e) (h : s.find new = some ⟨r.pair, r.id, e⟩)
    (hne : ¬ (pairCmp r.old.pair r.pair = false ∧ r.id = r.old.id))
    (hempty : ∀ d, r.replaced = some d → s.emptyDirError d = errOk)

/-- The checks have passed. -/
structure Renaming.Checked (s : Tree) (old new : Link) (r : Renaming) : Prop where
  old : s.find old = some r.old
  target : r.Target s new

theorem renameCheck_ok {s : Tree} (h : s.renameCheck old new = .ok r) : r.Checked s old new := by
  rw [Tree.renameCheck] at h
  split at h
  · cases h
  · rename_i o ho
    split at h
    · split at h
      · cases h
      · rename_i pair id hi
        split at h
        · cases h
        · cases h
          exact ⟨ho, .fresh rfl hi⟩
    · rename_i prev hprev
      split at h
      · cases h
      · split at h
        · cases h
        · rename_i hne
          split at h
          · rename_i d hd
            split at h
            · cases h
            · rename_i hempty
              cases h
              refine ⟨ho, .replace rfl hprev hne fun d' hd' => ?_⟩
              have hrep : some d = some d' := by
                rw [← hd', Renaming.replaced]
                obtain ⟨pair, id, n, node, attrs⟩ := prev
                cases hd
                rfl
              cases hrep
              exact not_not.mp hempty
          · rename_i hnode
            cases h
            refine ⟨ho, .replace rfl hprev hne fun d hd => ?_⟩
            obtain ⟨pair, id, n, node, attrs⟩ := prev
            cases node with
            | dir d' => exact absurd rfl (hnode d')
            | superblock => cases hd
            | reg data => cases hd

namespace Renaming.Checked

variable {s : Tree} {old new : Link} {r : Renaming}

theorem exists_mdir (H : r.Checked s old new) :
    ∃ m ∈ s.disk, m.dir = new.dir ∧ r.pair = m.pair := by
  cases H.target with
  | fresh hprev h => exact Tree.insertion_spec h
  | replace hprev h =>
    obtain ⟨m, hm, hdir, hpair, -⟩ := Tree.find_spec h
    exact ⟨m, hm, hdir, hpair⟩

/-- What is replaced at the new id has the new name. -/
theorem named_id (H : r.Checked s old new) (hs : s.Quiet) (hm : m ∈ s.disk)
    (hp : pairCmp r.pair m.pair = false) (hsome : r.prev.isSome) :
    ∃ e, m.entries[r.id]? = some e ∧ e.named new.name = true := by
  cases H.target with
  | fresh hprev => simp [hprev] at hsome
  | replace hprev h =>
    obtain ⟨-, hentry, hnamed⟩ := hs.find_unique h hm hp
    exact ⟨_, hentry, hnamed⟩

/-- The entry that the first commit deletes within the pair is the old one. -/
theorem edit_newoldid (H : r.Checked s old new) (hsame : r.samepair = true)
    {es : List DirEntry} (hold : es[r.old.id]? = some r.old.entry) (e : DirEntry) :
    ((if r.prev.isSome then es.eraseIdx r.id else es).insertIdx r.id e)[r.newoldid]? =
      some r.old.entry := by
  have hlt := (List.getElem?_eq_some_iff.mp hold).1
  cases H.target with
  | fresh hprev =>
    have hid : r.newoldid = if r.id ≤ r.old.id then r.old.id + 1 else r.old.id := by
      simp [newoldid, hprev, hsame]
    rw [hid, hprev, Option.isSome_none, if_neg Bool.false_ne_true, List.getElem?_insertIdx, ← hold]
    by_cases hle : r.id ≤ r.old.id
    · rw [if_pos hle, if_neg (by omega), if_neg (by omega), Nat.add_sub_cancel]
    · rw [if_neg hle, if_pos (by omega)]
  | replace hprev _ hne =>
    have hid : r.newoldid = r.old.id := by simp [newoldid, hprev]
    have hshares : pairCmp r.old.pair r.pair = false := by simpa [samepair] using hsame
    have hne : r.id ≠ r.old.id := fun h => hne ⟨hshares, h⟩
    rw [hid, hprev, Option.isSome_some, if_pos rfl, List.getElem?_insertIdx,
      List.getElem?_eraseIdx, List.getElem?_eraseIdx, ← hold]
    rcases Nat.lt_or_gt_of_ne hne with hlt' | hlt'
    · rw [if_neg (by omega), if_neg (by omega), if_neg (by omega), Nat.sub_add_cancel (by omega)]
    · rw [if_pos hlt', if_pos hlt']

/-- The first commit. -/
theorem searchIn_edit (H : r.Checked s old new) (hs : s.Quiet) (hold : k ≠ old) (hnew : k ≠ new)
    (hname : k.dir = new.dir → k.name ≠ name) :
    searchIn k (editPair r.pair (r.edit name) s.disk) = searchIn k s.disk := by
  obtain ⟨mr, hmr, hdir', hpair⟩ := H.exists_mdir
  refine searchIn_editPair fun m hm hp hdir => ?_
  obtain rfl : mr = m := hs.disjoint.eq_of_shares hmr hm (hpair ▸ hp)
  have hne : k.name ≠ new.name := Link.name_ne hnew (hdir.symm.trans hdir')
  have hinsert : ({ r.old.entry with name } : DirEntry).named k.name = false := by
    simp [DirEntry.named, (hname (hdir.symm.trans hdir')).symm]
  have herase : (if r.prev.isSome then mr.entries.eraseIdx r.id else mr.entries).find?
      (DirEntry.named k.name) = mr.entries.find? (DirEntry.named k.name) := by
    split
    · refine find?_eraseIdx fun e he => ?_
      obtain ⟨e', he', hnamed⟩ := H.named_id hs hm hp ‹_›
      cases he'.symm.trans he
      exact named_ne hnamed hne
    · rfl
  rw [edit]
  split
  · rename_i hsame
    have hshares : pairCmp r.old.pair mr.pair = false := by
      rw [← hpair]
      simpa [samepair] using hsame
    obtain ⟨hdir'', hentry, hnamed⟩ := hs.find_unique H.old hm hshares
    rw [find?_eraseIdx, find?_insertIdx hinsert, herase]
    intro e he
    cases (H.edit_newoldid hsame hentry _).symm.trans he
    exact named_ne hnamed (Link.name_ne hold (hdir.symm.trans hdir''))
  · rw [find?_insertIdx hinsert, herase]

/-- The second commit, in another pair. -/
theorem searchIn_erase (H : r.Checked s old new) (hs : s.Quiet) (hsame : r.samepair = false)
    (hold : k ≠ old) (name : List UInt8) :
    searchIn k (editPair r.old.pair (·.eraseIdx r.old.id)
      (editPair r.pair (r.edit name) s.disk)) =
        searchIn k (editPair r.pair (r.edit name) s.disk) := by
  obtain ⟨mr, hmr, -, hpair⟩ := H.exists_mdir
  refine searchIn_editPair fun m hm hp hdir => find?_eraseIdx fun e he => ?_
  obtain ⟨m', hm', rfl⟩ := List.mem_map.mp hm
  have hother : pairCmp r.pair m'.pair = true := by
    rw [← Bool.not_eq_false]
    intro hshares
    rw [hpair] at hshares
    obtain rfl := hs.disjoint.eq_of_shares hmr hm' hshares
    have hdiff : pairCmp r.old.pair r.pair = true := by simpa [samepair] using hsame
    split at hp <;> rw [← hpair, hdiff] at hp <;> cases hp
  rw [hother, if_neg (by decide)] at hp hdir he
  obtain ⟨hdir', hentry, hnamed⟩ := hs.find_unique H.old hm' hp
  cases hentry.symm.trans he
  exact named_ne hnamed (Link.name_ne hold (hdir.symm.trans hdir'))

/-- The replaced directory stays empty. -/
theorem replaced_empty (H : r.Checked s old new) (hs : s.Quiet) (hrep : r.replaced = some d)
    (name : List UInt8) : ∀ m ∈ editPair r.pair (r.edit name) s.disk, m.dir = d →
      m.entries = [] := by
  cases H.target with
  | fresh hprev =>
    rw [replaced, hprev] at hrep
    cases hrep
  | replace hprev h _ hempty =>
    have hentries : ∀ m ∈ s.disk, m.dir = d → m.entries = [] :=
      fun m => emptyDir_entries (hempty d hrep)
    refine editPair_empty hentries fun m hm hd hp => ?_
    -- the pair with the replaced entry is not empty
    obtain ⟨-, hentry, -⟩ := hs.find_unique h hm hp
    rw [hentries m hm hd] at hentry
    cases hentry

theorem replaced_erased (H : r.Checked s old new) (hs : s.Quiet) (hrep : r.replaced = some d)
    (name : List UInt8) :
    ∀ m ∈ editPair r.old.pair (·.eraseIdx r.old.id) (editPair r.pair (r.edit name) s.disk),
      m.dir = d → m.entries = [] :=
  editPair_empty (H.replaced_empty hs hrep name) fun m hm hdir _ => by
    rw [H.replaced_empty hs hrep name m hm hdir, List.eraseIdx_nil]

end Renaming.Checked

theorem keeps_renameDrop {s s₁ : Tree} (H : s.Quiet)
    (hgstate : s₁.gstate = if r.replaced.isSome then orphanGstate else {})
    (hgdisk : s₁.gdisk = s₁.gstate) (hdisjoint : PairsDisjoint s₁.disk)
    (hsearch : ∀ l ∈ L, searchIn l s₁.disk = searchIn l s.disk)
    (hempty : ∀ d, r.replaced = some d → ∀ m ∈ s₁.disk, m.dir = d → m.entries = [])
    (h : s₁.renameDrop r (fun _ => errOk) = some (s', err)) : Tree.Keeps L s s' := by
  rw [Tree.renameDrop] at h
  split at h
  · rename_i hrep
    cases h
    rw [hrep, Option.isSome_none, if_neg Bool.false_ne_true] at hgstate
    exact H.keeps ⟨⟨hgstate, hgdisk.trans hgstate⟩, hdisjoint⟩ hsearch
  · rename_i d hrep
    rw [hrep, Option.isSome_some, if_pos rfl] at hgstate
    rw [mark_fixed _ hgstate] at h
    cases h
    refine H.keeps ⟨⟨rfl, rfl⟩, hdisjoint.filter _⟩ fun l hl => ?_
    exact (searchIn_filter_empty (hempty d hrep) l).trans (hsearch l hl)

theorem keeps_rename {s s' : Tree} (H : s.Quiet) (hold : old ∉ L) (hnew : new ∉ L)
    (h : s.rawRename old new (fun _ => errOk) = some (s', errOk)) : Tree.Keeps L s s' := by
  rw [Tree.rawRename, H.forceconsistency, Option.bind_some] at h
  split at h
  · cases h
    exact H.keeps H fun _ _ => rfl
  · rename_i r hr
    have hr := renameCheck_ok hr
    obtain ⟨g, hg, hpending⟩ := r.marks_stores
    rw [Tree.mark, H.clean.gstate, hg, Option.map_some, Option.bind_some, Tree.renameCommits,
      if_neg (by decide)] at h
    have hunmark := Renaming.unmark hpending
    have hedit : ∀ l ∈ L, searchIn l (editPair r.pair (r.edit new.name) s.disk) =
        searchIn l s.disk :=
      fun l hl => hr.searchIn_edit H (fun h => hold (h ▸ hl)) (fun h => hnew (h ▸ hl))
        (Link.name_ne fun h => hnew (h ▸ hl))
    have hempty := fun d (hd : r.replaced = some d) => hr.replaced_empty H hd new.name
    dsimp only at h
    split at h
    · rename_i hcond
      replace hcond : r.samepair = false ∧ gstateHasmove g = true := hcond
      rw [if_neg (by decide)] at h
      rw [if_pos hcond] at hunmark
      have herased := fun d (hd : r.replaced = some d) => hr.replaced_erased H hd new.name
      refine keeps_renameDrop H hunmark rfl ?_ (fun l hl => ?_) herased h
      · exact (H.disjoint.editPair r.pair (r.edit new.name)).editPair r.old.pair
          (·.eraseIdx r.old.id)
      · exact (hr.searchIn_erase H hcond.1 (fun h => hold (h ▸ hl)) new.name).trans (hedit l hl)
    · rename_i hcond
      replace hcond : ¬ (r.samepair = false ∧ gstateHasmove g = true) := hcond
      rw [if_neg hcond] at hunmark
      exact keeps_renameDrop H hunmark rfl (H.disjoint.editPair _ _) hedit hempty h

/-- **Step.** An operation that avoids the links leaves them as they are. -/
theorem keeps_step {s s' : Tree} (H : s.Quiet) (hop : op.Avoids L s) (h : s.step op = some s') :
    Tree.Keeps L s s' := by
  obtain ⟨hfair, havoids⟩ := hop
  cases op with
  | «open» l => exact keeps_open H (havoids l (.head _)) h
  | sync l data => exact keeps_sync H (havoids l (.head _)) h
  | mkdir l pair d => exact keeps_mkdir H (havoids l (.head _)) hfair h
  | setAttribute l type value => exact keeps_commitAttribute H h
  | remove l => exact keeps_remove H (havoids l (.head _)) h
  | rename old new =>
    obtain ⟨⟨s₁, err⟩, hs₁, h⟩ := Option.bind_eq_some_iff.mp h
    split at h
    · rename_i herr
      cases h
      cases herr
      exact keeps_rename H (havoids old (.head _)) (havoids new (.tail _ (.head _))) hs₁
    · cases h
  | mount =>
    cases h
    have hmounted : mountedGstate s.gdisk = {} := by
      rw [H.clean.gdisk]
      rfl
    exact H.keeps ⟨⟨hmounted, hmounted⟩, H.disjoint⟩ fun _ _ => rfl
  | rearrange disk =>
    cases h
    exact ⟨⟨⟨H.clean.gstate, H.clean.gdisk⟩, hfair.1⟩, fun l _ => hfair.2 l⟩

/-! ## Paths -/

/-- A path resolves alike in trees that agree on its links. -/
theorem resolve_congr {s s' : Tree} (h : ∀ l ∈ s.links node path, s'.lookup l = s.lookup l) :
    s'.resolve node path = s.resolve node path := by
  induction path generalizing node with
  | nil => cases node <;> rfl
  | cons a path ih =>
    cases node with
    | superblock => rfl
    | reg data => rfl
    | dir d =>
      rw [Tree.links] at h
      rw [Tree.resolve, Tree.resolve, h _ (.head _)]
      cases hnode : s.lookup ⟨d, a⟩ with
      | none => rfl
      | some node =>
        rw [hnode] at h
        exact ih fun l hl => h l (.tail _ hl)

/-- A path does not resolve once one of its links is gone. -/
theorem resolve_hidden {s s' : Tree}
    (hother : ∀ l ∈ s.links node path, l ≠ x → s'.lookup l = s.lookup l)
    (hx : x ∈ s.links node path) (hnone : s'.lookup x = none) : s'.resolve node path = none := by
  induction path generalizing node with
  | nil => cases node <;> cases hx
  | cons a path ih =>
    cases node with
    | superblock => cases hx
    | reg data => cases hx
    | dir d =>
      rw [Tree.resolve]
      by_cases heq : (⟨d, a⟩ : Link) = x
      · rw [heq, hnone]
        rfl
      · rw [Tree.links] at hother hx
        rw [hother _ (.head _) heq]
        rcases List.mem_cons.mp hx with hx | hx
        · exact absurd hx.symm heq
        · cases hnode : s.lookup ⟨d, a⟩ with
          | none => rfl
          | some node =>
            rw [hnode] at hother hx
            exact ih (fun l hl => hother l (.tail _ hl)) hx

theorem links_congr {s s' : Tree} (h : ∀ l, s'.lookup l = s.lookup l) (node : Node)
    (path : List (List UInt8)) : s'.links node path = s.links node path := by
  induction path generalizing node with
  | nil => cases node <;> rfl
  | cons a path ih =>
    cases node with
    | superblock => rfl
    | reg data => rfl
    | dir d =>
      rw [Tree.links, Tree.links, h]
      cases s.lookup ⟨d, a⟩ with
      | none => rfl
      | some node => rw [Option.map_some, Option.map_some, ih]

/-! ## Before the rename -/

/-- No name occurs twice in a directory. -/
def UniqueNames (disk : List Mdir) : Prop :=
  ∀ m ∈ disk, ∀ m' ∈ disk, m.dir = m'.dir → ∀ e ∈ m.entries.zipIdx, ∀ e' ∈ m'.entries.zipIdx,
    e.1.node ≠ .superblock → e'.1.named e.1.name = true → m = m' ∧ e.2 = e'.2

instance (disk : List Mdir) : Decidable (UniqueNames disk) :=
  inferInstanceAs (Decidable (∀ m ∈ disk, _))

/-- A tree where the global state has been read and at most a move is pending. -/
structure Tree.Consistent (s : Tree) : Prop where
  gdisk : s.gdisk = s.gstate
  pending : ∃ move, s.gstate.Stores ⟨0, move⟩
  disjoint : PairsDisjoint s.disk

/-- A tree as a mount or an operation leaves it. -/
structure Tree.Mounted (s : Tree) : Prop extends s.Consistent where
  /-- `0x3ff` is no id. -/
  count : ∀ m ∈ s.disk, m.entries.length ≤ 0x3ff

theorem Tree.Mounted.count_seen {s : Tree} (H : s.Mounted) :
    ∀ m ∈ s.seen, m.entries.length ≤ 0x3ff := by
  intro m hm
  obtain ⟨m', hm', rfl⟩ := List.mem_map.mp hm
  refine Nat.le_trans ?_ (H.count m' hm')
  dsimp only
  rw [Mdir.visible]
  split
  · exact List.length_eraseIdx_le _ _
  · exact Nat.le_refl _

/-- Fixing a pending move changes nothing that is seen. -/
theorem Tree.Consistent.forceconsistency {s s₁ : Tree} (H : s.Consistent)
    (h : s.forceconsistency = some s₁) : s₁.Quiet ∧ s₁.disk = s.seen := by
  obtain ⟨move, hstores⟩ := H.pending
  have hmove := hstores.hasmove
  have horphans := hstores.hasorphans
  rw [Tree.forceconsistency, Tree.demove, H.gdisk] at h
  cases move with
  | none =>
    have hzero : s.gstate = {} := hstores.unique stores_zero
    have hquiet : s.Quiet := ⟨⟨hzero, H.gdisk.trans hzero⟩, H.disjoint⟩
    rw [if_pos (by simpa using hmove), Option.bind_some, if_neg (by simpa using horphans)] at h
    cases h
    exact ⟨hquiet, hquiet.clean.seen.symm⟩
  | some m =>
    have hhas : gstateHasmove s.gstate = true := hmove.mpr (.inr rfl)
    have hunmoved : (fsPrepmove s.gstate 0x3ff#16 (0, 0)).Stores ⟨0, none⟩ := hstores.prepmove rfl
    have hzero := hunmoved.unique stores_zero
    rw [hhas, if_neg (by decide)] at h
    split at h
    · rw [Option.bind_some] at h
      split at h
      · cases h
      · cases h
        have hseen : editPair s.gstate.pair (·.eraseIdx (tagId s.gstate.tag)) s.disk = s.seen := by
          refine List.map_congr_left fun m _ => ?_
          have hhere : gstateHasmovehere s.gdisk m.pair = !pairCmp s.gstate.pair m.pair := by
            rw [gstateHasmove] at hhas
            rw [H.gdisk, gstateHasmovehere, hhas, Bool.true_and]
          rw [Mdir.visible, hhere, H.gdisk]
          cases pairCmp s.gstate.pair m.pair <;> rfl
        have hdisjoint := H.disjoint.editPair s.gstate.pair (·.eraseIdx (tagId s.gstate.tag))
        exact ⟨⟨⟨hzero, hzero⟩, hdisjoint⟩, hseen⟩
    · cases h

theorem Tree.Consistent.lookup_eq {s s₁ : Tree} (H : s.Consistent)
    (h : s.forceconsistency = some s₁)
    (l : Link) : s₁.lookup l = s.lookup l := by
  obtain ⟨hquiet, hdisk⟩ := H.forceconsistency h
  rw [hquiet.lookup_eq, Tree.lookup_eq, hdisk]

/-- A tree as a mount or an operation leaves it, with different names in a directory. -/
structure Tree.Settled (s : Tree) : Prop where
  gdisk : s.gdisk = s.gstate
  pending : ∃ move, s.gstate.Stores ⟨0, move⟩
  disjoint : PairsDisjoint s.disk
  unique : UniqueNames s.seen
  /-- `0x3ff` is no id. -/
  count : ∀ m ∈ s.disk, m.entries.length ≤ 0x3ff

namespace Tree.Settled

variable {s s₁ : Tree}

theorem mounted (H : s.Settled) : s.Mounted := ⟨⟨H.gdisk, H.pending, H.disjoint⟩, H.count⟩

theorem count_seen (H : s.Settled) : ∀ m ∈ s.seen, m.entries.length ≤ 0x3ff :=
  H.mounted.count_seen

theorem forceconsistency (H : s.Settled) (h : s.forceconsistency = some s₁) :
    s₁.Quiet ∧ s₁.disk = s.seen :=
  H.mounted.forceconsistency h

theorem lookup_eq (H : s.Settled) (h : s.forceconsistency = some s₁) (l : Link) :
    s₁.lookup l = s.lookup l :=
  H.mounted.lookup_eq h l

end Tree.Settled

/-! ## After the failure -/

/-- The calls on the global state that a rename makes before its first commit. -/
def Tree.renameMarks (s : Tree) (old new : Link) : List GstateCall :=
  match s.forceconsistency with
  | none => []
  | some s =>
    match s.renameCheck old new with
    | .error _ => []
    | .ok r => r.marks

/-- The rename notes a move. -/
def Tree.MarksMove (s : Tree) (old new : Link) : Prop :=
  ∃ i pair, GstateCall.prepmove i pair ∈ s.renameMarks old new

/-- The path resolves as before after every later run that avoids its links. -/
def Tree.StillResolves (s s' : Tree) (path : List (List UInt8)) : Prop :=
  ∀ s'', Run.Runs (fun s₁ op s₂ => s₁.step op = some s₂)
    (fun s₁ op => op.Avoids (s.links (.dir 0) path) s₁) s' s'' →
      s''.resolve (.dir 0) path = s.resolve (.dir 0) path

/-- **Run.** Operations that avoid the links keep them. -/
theorem keeps_run {s s' : Tree} (H : s.Quiet)
    (h : Run.Runs (fun s₁ op s₂ => s₁.step op = some s₂) (fun s₁ op => op.Avoids L s₁) s s') :
    Tree.Keeps L s s' := by
  refine h.invariant (fun s₁ op s₂ hI hop hstep => ?_) ⟨H, fun _ _ => rfl⟩
  have hstep := keeps_step hI.quiet hop hstep
  exact ⟨hstep.quiet, fun l hl => (hstep.lookup l hl).trans (hI.lookup l hl)⟩

theorem Tree.Settled.resolve_eq {s s₁ : Tree} (H : s.Settled) (h : s.forceconsistency = some s₁)
    (node : Node) (path : List (List UInt8)) : s₁.resolve node path = s.resolve node path :=
  resolve_congr fun l _ => H.lookup_eq h l

/-- The state that a rename leaves when its first commit fails. -/
theorem rawRename_failed_eq {s s' : Tree} (H : s.Settled) (herr : err ≠ errOk)
    (h : s.rawRename old new (fun _ => err) = some (s', e)) :
    ∃ s₁, s.forceconsistency = some s₁ ∧
      (s.renameMarks old new = [] ∧ s' = s₁ ∨
        ∃ (r : Renaming) (g : GState), r.Checked s₁ old new ∧ s.renameMarks old new = r.marks ∧
          g.Stores r.pending ∧
          s' = { s₁ with gstate := g }) := by
  obtain ⟨s₁, hs₁, h⟩ := Option.bind_eq_some_iff.mp h
  refine ⟨s₁, hs₁, ?_⟩
  rw [Tree.renameMarks, hs₁]
  dsimp only
  split at h
  · rename_i hcheck
    cases h
    exact .inl ⟨rfl, rfl⟩
  · rename_i r hcheck
    obtain ⟨g, hg, hpending⟩ := r.marks_stores
    rw [Tree.mark, (H.forceconsistency hs₁).1.clean.gstate, hg, Option.map_some, Option.bind_some,
      Tree.renameCommits, if_pos herr] at h
    cases h
    exact .inr ⟨r, g, renameCheck_ok hcheck, rfl, hpending, rfl⟩

theorem GState.Stores.tagId_eq {g : GState} (H : g.Stores s) (hmove : s.move = some (i, p)) :
    tagId g.tag = i.toNat % 2 ^ 10 := by
  have hle := H.le
  have hbits : s.moveBits = typeDelete * 2 ^ 10 + i.toNat % 2 ^ 10 := by
    rw [Pending.moveBits, hmove]
  rw [LittleFs.tagId_eq, H.tag, hbits]
  simp only [typeDelete]
  omega

/-- An entry that is hidden is not found under another one. -/
theorem searchIn_hidden {s : Tree} (H : s.Quiet) (hunique : UniqueNames s.disk)
    (h : s.find l = some f) :
    searchIn l (editPair f.pair (·.eraseIdx f.id) s.disk) = none := by
  obtain ⟨m, hm, hdir, hpair, hentry, hnamed⟩ := Tree.find_spec h
  rw [H.clean.gdisk, Mdir.visible_clean] at hentry
  have hname : f.entry.node ≠ .superblock ∧ f.entry.name = l.name := by
    simpa [DirEntry.named] using hnamed
  rw [searchIn, List.find?_eq_none]
  intro e he hfound
  obtain ⟨m', hm', he⟩ := List.mem_flatMap.mp he
  obtain ⟨m', hm'', rfl⟩ := List.mem_map.mp hm'
  have hsame : ∀ (i : Nat), m'.dir = l.dir → m'.entries[i]? = some e → m = m' ∧ f.id = i :=
    fun i hdir' hi => hunique m hm m' hm'' (hdir.trans hdir'.symm) (f.entry, f.id)
      (List.mem_zipIdx_iff_getElem?.mpr hentry) (e, i) (List.mem_zipIdx_iff_getElem?.mpr hi)
      hname.1 (hname.2 ▸ hfound)
  by_cases hp : pairCmp f.pair m'.pair = false
  · rw [if_pos hp] at he
    split at he
    · rename_i hdir'
      obtain ⟨i, hne, hi⟩ := List.mem_eraseIdx_iff_getElem?.mp he
      exact hne (hsame i hdir' hi).2.symm
    · cases he
  · rw [if_neg hp] at he
    split at he
    · rename_i hdir'
      obtain ⟨i, hi⟩ := List.mem_iff_getElem?.mp he
      obtain ⟨rfl, -⟩ := hsame i hdir' hi
      exact hp (by rw [hpair, pairCmp_self])
    · cases he

/-- The move that a rename notes. -/
theorem move_pending {s : Tree} {r : Renaming} (H : s.Quiet)
    (hcount : ∀ m ∈ s.disk, m.entries.length ≤ 0x3ff) (hold : s.find old = some r.old)
    (hsame : r.samepair = false) :
    r.pending.move = some (BitVec.ofNat 16 r.newoldid, r.old.pair) ∧
      (BitVec.ofNat 16 r.newoldid).toNat = r.old.id ∧ r.old.id < 0x3ff := by
  obtain ⟨m, hm, -, hpair, hentry, -⟩ := Tree.find_spec hold
  rw [H.clean.gdisk, Mdir.visible_clean] at hentry
  have hlt := (List.getElem?_eq_some_iff.mp hentry).1
  have hle := hcount m hm
  have hid : r.newoldid = r.old.id := by simp [Renaming.newoldid, hsame]
  have htoNat : (BitVec.ofNat 16 r.newoldid).toNat = r.old.id := by
    rw [BitVec.toNat_ofNat, hid]
    omega
  refine ⟨if_neg ?_, htoNat, by omega⟩
  rw [hsame, or_iff_right (by decide)]
  intro h
  have hmax : r.old.id = 0x3ff := htoNat.symm.trans (congrArg BitVec.toNat h)
  omega

/-- A pending move hides its source and nothing else. -/
theorem visible_pending {s : Tree} {r : Renaming} {g : GState} (H : s.Quiet)
    (hcount : ∀ m ∈ s.disk, m.entries.length ≤ 0x3ff) (hold : s.find old = some r.old)
    (hsame : r.samepair = false) (hg : g.Stores r.pending) (disk : List Mdir) :
    (disk.map fun m => { m with entries := m.visible g }) =
      editPair r.old.pair (·.eraseIdx r.old.id) disk := by
  obtain ⟨hmove, htoNat, hlt⟩ := move_pending H hcount hold hsame
  have htag : tagId g.tag = r.old.id := by
    rw [hg.tagId_eq hmove, htoNat]
    omega
  refine List.map_congr_left fun m' _ => ?_
  have hhere : gstateHasmovehere g m'.pair = !pairCmp r.old.pair m'.pair := by
    have h := hg.hasmovehere m'.pair
    rw [Pending.movePair, hmove, ← pairCmp_eq_false, and_iff_right (.inr rfl)] at h
    rw [Bool.eq_iff_iff, h, Bool.not_eq_true']
  rw [Mdir.visible, hhere, htag]
  cases pairCmp r.old.pair m'.pair <;> rfl

/-- **A rename that fails before its first commit.** If it notes nothing in the global state, every
path still resolves after every later run that avoids it; if it notes a move, setting an attribute
of the root is enough to lose the source. -/
theorem rawRename_failed {s s' : Tree} (H : s.Settled) (herr : err ≠ errOk)
    (h : s.rawRename old new (fun _ => err) = some (s', e)) (path : List (List UInt8))
    (hsource : old ∈ s.links (.dir 0) path) (hnode : (s.resolve (.dir 0) path).isSome) :
    (s.renameMarks old new = [] → s.StillResolves s' path) ∧
      (s.MarksMove old new → ¬ s.StillResolves s' path) := by
  obtain ⟨s₁, hs₁, hcase⟩ := rawRename_failed_eq H herr h
  obtain ⟨hquiet, hdisk⟩ := H.forceconsistency hs₁
  have hlinks := links_congr (H.lookup_eq hs₁) (.dir 0) path
  refine ⟨fun hmarks => ?_, fun hmoves hstill => ?_⟩
  · suffices hs' : s' = s₁ by
      intro s'' hrun
      rw [hs'] at hrun
      have hkeeps := keeps_run hquiet hrun
      rw [← H.resolve_eq hs₁]
      exact resolve_congr (hlinks ▸ hkeeps.lookup)
    rcases hcase with ⟨-, hs'⟩ | ⟨r, g, hr, hrmarks, hg, rfl⟩
    · exact hs'
    · rw [hrmarks, Renaming.marks, List.append_eq_nil_iff] at hmarks
      have hrep : r.replaced.isSome = false := by
        cases hsome : r.replaced.isSome with
        | false => rfl
        | true => simp [hsome] at hmarks
      have hsame : r.samepair = true := by
        cases hpair : r.samepair with
        | true => rfl
        | false => simp [hpair] at hmarks
      have hzero : g = {} := by
        have hpending : r.pending = ⟨0, none⟩ := by
          rw [Renaming.pending, hrep, hsame]
          rfl
        exact (hpending ▸ hg).unique stores_zero
      rw [hzero, ← hquiet.clean.gstate]
  · obtain ⟨i, pair, hmem⟩ := hmoves
    rcases hcase with ⟨hnil, -⟩ | ⟨r, g, hr, hrmarks, hg, rfl⟩
    · rw [hnil] at hmem
      cases hmem
    · have hsame : r.samepair = false := by
        rw [← Bool.not_eq_true]
        intro hsame
        rw [hrmarks, Renaming.marks, hsame] at hmem
        split at hmem <;> simp at hmem
      have hseen : ({ s₁ with gstate := g } : Tree).publish.seen = _ :=
        visible_pending hquiet (hdisk ▸ H.count_seen) hr.old hsame hg s₁.disk
      let s₂ := ({ s₁ with gstate := g } : Tree)
      let s₃ := s₂.commit s₁.root (·.modify 0 (·.setAttr 0 none))
      have hrun : s₃.resolve (.dir 0) path = s.resolve (.dir 0) path :=
        hstill s₃ (.step .refl (a := TreeOp.setAttribute none 0 none) ⟨True.intro, nofun⟩ rfl)
      have hlookup : ∀ l, s₃.lookup l = s₂.publish.lookup l := fun l =>
        s₂.publish.lookup_bare l (editPair_setAttr ..)
      refine absurd hrun ?_
      have hnone : s₃.resolve (.dir 0) path = none := by
        refine resolve_hidden (s := s) (x := old) (fun l hl hne => ?_) hsource ?_
        · rw [hlookup, Tree.lookup_eq, hseen, hquiet.searchIn_erase hr.old hne, ← hquiet.lookup_eq,
            H.lookup_eq hs₁]
        · rw [hlookup, Tree.lookup_eq, hseen, searchIn_hidden hquiet (hdisk ▸ H.unique) hr.old]
          rfl
      rw [hnone]
      intro hnil
      rw [← hnil] at hnode
      cases hnode

/-- `/a/f` is a file, and `/b` an empty directory. -/
def twoDirs : Tree where
  disk := [
    ⟨(0, 1), 0, [⟨[108, 102, 115], .superblock, []⟩, ⟨[97], .dir 1, []⟩, ⟨[98], .dir 2, []⟩]⟩,
    ⟨(2, 3), 1, [⟨[102], .reg [1], [(116, [7])]⟩]⟩,
    ⟨(4, 5), 2, []⟩]
  root := (0, 1)
  gstate := {}
  gdisk := {}
  nameMax := 255

theorem twoDirs_settled : twoDirs.Settled :=
  ⟨rfl, ⟨none, stores_zero⟩, by decide, by decide, by decide⟩

/-- `/b` to `/e` fails and notes nothing. -/
theorem rawRename_failed_samePair :
    twoDirs.rawRename ⟨0, [98]⟩ ⟨0, [101]⟩ (fun _ => errNospc) = some (twoDirs, errNospc) ∧
      twoDirs.StillResolves twoDirs [[98]] :=
  have h : twoDirs.rawRename ⟨0, [98]⟩ ⟨0, [101]⟩ (fun _ => errNospc) = some (twoDirs, errNospc) :=
    rfl
  ⟨h, (rawRename_failed twoDirs_settled (by decide) h [[98]] (by decide) (by decide)).1 (by decide)⟩

/-- `/a/f` to `/b/g` runs out of space. Creating `/c` hides `/a/f`, and creating `/d` deletes it. -/
theorem rawRename_failed_loses :
    ¬ ∀ (s s' : Tree) (old new : Link) (err e : Int) (path : List (List UInt8)), s.Settled →
      err < 0 → s.rawRename old new (fun _ => err) = some (s', e) → e < 0 →
        (s.links (.dir 0) path).getLast? = some old → (s.resolve (.dir 0) path).isSome →
          s.StillResolves s' path := by
  intro h
  have hstill := h twoDirs _ ⟨1, [102]⟩ ⟨2, [103]⟩ errNospc errNospc [[97], [102]] twoDirs_settled
    (by decide) rfl (by decide) (by decide) (by decide)
  have hrun := hstill _ (.step (.step (.step .refl
    (a := TreeOp.open ⟨0, [99]⟩) ⟨True.intro, by decide⟩ rfl)
    (a := TreeOp.open ⟨0, [100]⟩) ⟨True.intro, by decide⟩ rfl)
    (a := TreeOp.mount) ⟨True.intro, by decide⟩ rfl)
  exact absurd hrun (by decide)

end LittleFs
