import LittleFs.Lib.Run
import LittleFs.ParentScan

/-! The relocation loop of `lfs_dir_orphaning_commit`, which follows a commit that has moved a pair
to other blocks: the reference in the parent and the tail pointer of the predecessor are fixed up
with `lfs_dir_relocating_commit`, and each of these commits may relocate in turn.

What a commit returns, which blocks it goes to, whether it is written in place or by compaction
and what a fetch finds afterwards are left open: they are the outcome of the commit. -/

namespace LittleFs

/-! ## Commits -/

/-- `LFS_OK_RELOCATED`. -/
def okRelocated : Int := 1

/-- `LFS_OK_DROPPED`. -/
def okDropped : Int := 2

/-- `LFS_OK_ORPHANED`. -/
def okOrphaned : Int := 3

/-- The changes that one attribute makes to the directory, and whether it deletes; `none` when an
assertion fails. -/
def commitAttr : MetadataDir × Bool → Attr → Option (MetadataDir × Bool)
  | (dir, hasdelete), a =>
    if tagType3 a.tag = typeCreate then some ({ dir with count := dir.count + 1 }, hasdelete)
    else if tagType3 a.tag = typeDelete then
      if dir.count > 0 then some ({ dir with count := dir.count - 1 }, true) else none
    else if tagType1 a.tag = typeTail then
      some ({ dir with
        tail := pairFromLe64 a.buffer.bytes
        split := tagChunk a.tag &&& 1#8 == 1#8 }, hasdelete)
    else some (dir, hasdelete)

/-- The changes that `lfs_dir_relocating_commit` calculates when it is called without `pdir`. The
last entry must stay: dropping the directory needs a `pdir`. -/
def commitDir (dir : MetadataDir) (attrs : List Attr) : Option MetadataDir :=
  (attrs.foldlM commitAttr (dir, false)).bind fun (dir, hasdelete) =>
    if hasdelete = true ∧ dir.count = 0 then none else some dir

/-- How a commit is written: behind the log, or by compaction into pairs that hold a range of the
entries each. -/
inductive Image where
  | append
  | compact (ranges : List (Nat × Nat))
  deriving DecidableEq, Repr

/-- The entries after a commit, under the ids they would have in one pair. -/
def Image.records (log : List LogEntry) (attrs : List Attr) :
    Image → KeyedLog.Records Nat EntryValue
  | .append => replayLog (log ++ dirTraverse [] attrs 0#32 0#32 0 0 0)
  | .compact ranges => fun i k =>
    match ranges.find? fun r => r.1 ≤ i ∧ i < r.2 with
    | some r => replayLog (compactTags log attrs r.1 r.2) (i - r.1) k
    | none => none

/-- What the environment makes of a commit. -/
structure Outcome where
  /-- What it returns. -/
  state : Int
  /-- The pair it leaves in the directory. -/
  pair : BlockPair
  /-- Whether it has written the global state. -/
  synced : Bool
  image : Image
  dev : Device

/-! ## The fixups -/

inductive FixupKind where
  | parent
  | pred
  deriving DecidableEq, Repr

/-- A commit of the loop. -/
structure Fixup where
  kind : FixupKind
  /-- The parent or the predecessor, as fetched. -/
  dir : MetadataDir
  /-- The pair that was relocated, and where to. -/
  child : BlockPair
  newpair : BlockPair
  /-- The global state behind `lfs_fs_preporphans`. -/
  gstate : GState
  attrs : List Attr
  deriving DecidableEq, Repr

/-- The id of a pending move in the pair. -/
def fixupMoveid (gstate : GState) (pair : BlockPair) : Nat :=
  if gstateHasmovehere gstate pair then tagId gstate.tag else 0x3ff

/-- The global state once a pending move in the pair is fixed. -/
def fixupGstate (gstate : GState) (pair : BlockPair) : GState :=
  if gstateHasmovehere gstate pair then fsPrepmove gstate 0x3ff#16 (0, 0) else gstate

def fixupDelete (moveid : Nat) : Attr :=
  ⟨if moveid ≠ 0x3ff then mkTag typeDelete moveid 0 else mkTag fromNoop 0 0, .null⟩

/-- The commit into the parent, where `tag` refers to the child. -/
def parentFixup (gstate : GState) (pdir : MetadataDir) (tag : Tag) (child newpair : BlockPair) :
    Fixup :=
  let moveid := fixupMoveid gstate pdir.pair
  let tag := if gstateHasmovehere gstate pdir.pair = true ∧ moveid < tagId tag then
    tag - mkTag 0 1 0 else tag
  ⟨.parent, pdir, child, newpair, gstate,
    [fixupDelete moveid, ⟨tag, .data (pairToLe64 newpair)⟩]⟩

/-- The commit into the predecessor. -/
def predFixup (gstate : GState) (pdir : MetadataDir) (child newpair : BlockPair) : Fixup :=
  ⟨.pred, pdir, child, newpair, gstate,
    [fixupDelete (fixupMoveid gstate pdir.pair),
      ⟨mkTag typeSofttail 0x3ff 16, .data (pairToLe64 newpair)⟩]⟩

/-! ## The loop -/

inductive Phase where
  | parent
  | pred (hasparent : Bool)
  | done
  deriving DecidableEq, Repr

/-- The loop between two commits; `fixups` records the commits it has made. -/
structure Relocation where
  dev : Device
  blockCount : Nat
  gstate : GState
  gdisk : GState
  root : BlockPair
  lpair : BlockPair
  /-- `ldir.pair`. -/
  newpair : BlockPair
  orphans : Bool := false
  phase : Phase := .parent
  fixups : List (Fixup × Image) := []

/-- Make a commit. -/
def Relocation.commit (s : Relocation) (fixup : Fixup) (o : Outcome) : Option Relocation :=
  (commitDir fixup.dir fixup.attrs).map fun _ =>
    let gstate := fixupGstate fixup.gstate fixup.dir.pair
    { s with
      dev := o.dev
      gstate := gstate
      gdisk := if o.synced then gstate else s.gdisk
      fixups := s.fixups ++ [(fixup, o.image)] }

def Relocation.commitParent (s : Relocation) (pdir : MetadataDir) (tag : Tag) (o : Outcome) :
    Option Relocation :=
  -- note that if we have a parent, we must have a pred, so this will always create an orphan
  (fsPreporphans s.gstate 1#8).bind fun gstate =>
    (s.commit (parentFixup gstate pdir tag s.lpair s.newpair) o).map fun s =>
      if o.state < 0 then { s with phase := .done }
      else if o.state = okRelocated then
        { s with lpair := pdir.pair, newpair := o.pair, orphans := true, phase := .parent }
      else { s with phase := .pred true }

def Relocation.commitPred (s : Relocation) (hasparent : Bool) (o : Outcome) : Option Relocation :=
  match fsPred s.dev s.blockCount s.gdisk s.lpair with
  -- if we can't find dir, it must be new
  | .error _ => none
  | .ok pdir =>
    (if gstateHasorphans s.gstate then
      -- next step, clean up orphans
      fsPreporphans s.gstate (if hasparent then -1#8 else 0#8)
    else some s.gstate).bind fun gstate =>
      (s.commit (predFixup gstate pdir s.lpair s.newpair) o).map fun s =>
        { s with
          lpair := pdir.pair
          newpair := o.pair
          phase := if o.state = okRelocated then .parent else .done }

/-- The loop up to its next commit, and this commit; `none` when there is none. -/
def Relocation.step (s : Relocation) (o : Outcome) : Option Relocation :=
  match s.phase with
  | .done => none
  | .pred hasparent => s.commitPred hasparent o
  | .parent =>
    -- update internal root
    let s := { s with root := if pairCmp s.lpair s.root = false then s.newpair else s.root }
    match fsParent s.dev s.blockCount s.gdisk s.lpair with
    | .ok (pdir, tag) => s.commitParent pdir tag o
    | .error err => if err = errNoent then s.commitPred false o else none

/-! ## What a fixup may change -/

def HasBlockZero (pair : BlockPair) : Prop := pair.1 = 0 ∨ pair.2 = 0

instance (pair : BlockPair) : Decidable (HasBlockZero pair) := inferInstanceAs (Decidable (_ ∨ _))

/-- The pair has no block 0 or there is no orphan, and a tail that is written over is soft. -/
structure Fixup.Safe (f : Fixup) : Prop where
  nonzero : HasBlockZero f.dir.pair → gstateHasorphans f.gstate = false
  soft : f.kind = .pred → f.dir.split = false

/-- Only the reference to the child and the tail pointer change. -/
structure Fixup.OnlyChild (f : Fixup) (image : Image) : Prop where
  entries : ∀ i k, image.records f.dir.log f.attrs i k = replayLog f.dir.log i k ∨
    k = typeStruct ∧ NamesChild (replayLog f.dir.log) f.child i ∧
      image.records f.dir.log f.attrs i k = some (typeDirstruct, pairToLe64 f.newpair)
  split : ∀ dir ∈ commitDir f.dir f.attrs, dir.split = f.dir.split

/-- The ranges hold each of the entries. -/
def Covers (ranges : List (Nat × Nat)) (count : Nat) : Prop :=
  ∀ i, i < count ↔ ∃ r ∈ ranges, r.1 ≤ i ∧ i < r.2

/-- A compaction holds every entry, and misses no splice on disk. -/
def Fixup.ImageOk (f : Fixup) : Image → Prop
  | .append => True
  | .compact ranges => NoMissedSplice typeName f.dir.log ∧
    ∀ dir ∈ commitDir f.dir f.attrs, Covers ranges dir.count

/-! ## Replaying a commit -/

theorem op_eq_tagOp {a : Attr} (hnoop : tagType3 a.tag ≠ fromNoop) (hfrom : ¬ IsFrom a.tag) :
    a.op = tagOp a.tag a.buffer.bytes := by
  rw [Attr.op, if_neg hnoop]
  exact if_neg hfrom

theorem replayWith_nil (log : List LogEntry) : replayWith log [] = replayLog log := by
  rw [replayWith, List.append_nil, List.map_map, replayLog]
  congr 1
  refine List.map_congr_left fun e _ => ?_
  have h := tagOpFrom_read 0 e
  rw [tagOpFrom, if_neg (Nat.not_lt_zero _)] at h
  exact (opFrom_name e.read).symm.trans h

theorem replayWith_append_singleton (log : List LogEntry) (attrs : List Attr) (a : Attr) :
    replayWith log (attrs ++ [a]) = a.op.apply (replayWith log attrs) := by
  rw [replayWith, ← List.append_assoc, List.map_append, List.map_singleton, KeyedLog.replay_snoc]
  rfl

theorem dirTraverse_nil (attrs : List Attr) :
    dirTraverse [] attrs 0#32 0#32 0 0 0 =
      attrs.flatMap fun a => traverseTag 1 0 a.tag a.buffer := by
  rw [dirTraverse, List.map_nil, List.nil_append]
  induction attrs with
  | nil => rfl
  | cons a attrs ih =>
    rw [traverseLoop, if_neg (by simp), if_neg (fun h => h.1 rfl), ih, List.flatMap_cons]
    rfl

theorem traverseTag_direct {a : Attr} (hnoop : tagType3 a.tag ≠ fromNoop) (hfrom : ¬ IsFrom a.tag) :
    traverseTag 1 0 a.tag a.buffer = [⟨a.tag, a.buffer.bytes⟩] := by
  have hshift : a.tag + idShift 0 = a.tag := by simp [idShift]
  rw [traverseTag_shifted hfrom hnoop, hshift]

/-- A commit in place. -/
theorem replay_append (log : List LogEntry) (attrs : List Attr)
    (h : ∀ a ∈ attrs, ¬ IsFrom a.tag) :
    replayLog (log ++ dirTraverse [] attrs 0#32 0#32 0 0 0) = replayWith log attrs := by
  rw [dirTraverse_nil]
  induction attrs using List.reverseRecOn with
  | nil => rw [List.flatMap_nil, List.append_nil, replayWith_nil]
  | append_singleton attrs a ih =>
    have hfrom := h a (List.mem_append_right _ (.head _))
    have ih := ih fun a ha => h a (List.mem_append_left _ ha)
    rw [replayWith_append_singleton, ← ih, List.flatMap_append, List.flatMap_singleton,
      ← List.append_assoc]
    by_cases hnoop : tagType3 a.tag = fromNoop
    · rw [traverseTag_noop 1 0 (t := (a.tag, a.buffer)) hnoop, List.append_nil, Attr.op,
        if_pos hnoop]
      rfl
    · rw [traverseTag_direct hnoop hfrom, op_eq_tagOp hnoop hfrom, replayLog_append_singleton]

/-- There is nothing behind the last entry. -/
theorem replayWith_eq_none (h : countWith log attrs = some count) (hi : count ≤ i) (k : Nat) :
    replayWith log attrs i k = none := by
  suffices hitems : ∀ items : List Attr,
      ∀ count, items.foldlM (fun count (a : Attr) => a.count count) 0 = some count →
        ∀ i, count ≤ i → KeyedLog.replay (items.map Attr.op) i k = none from hitems _ _ h _ hi
  clear h hi
  intro items
  induction items using List.reverseRecOn with
  | nil => exact fun _ _ _ _ => rfl
  | append_singleton items a ih =>
    intro count' h i hi
    rw [List.foldlM_append, Option.bind_eq_bind, Option.bind_eq_some_iff] at h
    obtain ⟨count, hcount, ha⟩ := h
    rw [List.foldlM_cons, Option.bind_eq_bind, Option.bind_eq_some_iff] at ha
    obtain ⟨_, ha, hrfl⟩ := ha
    cases hrfl
    rw [List.map_append, List.map_singleton, KeyedLog.replay_snoc]
    have ih := ih count hcount
    cases itemKind_of_count ha with
    | noop htype =>
      rw [Attr.op, if_pos htype]
      exact ih i hi
    | move htype _ hid =>
      rw [Attr.op, if_neg (by rw [htype]; decide), if_pos (.inl htype)]
      exact (if_neg (show ¬ i = tagId a.tag by omega)).trans (ih i hi)
    | userattrs htype _ hid =>
      rw [Attr.op, if_neg (by rw [htype]; decide), if_pos (.inr htype)]
      exact (if_neg (show ¬ i = tagId a.tag by omega)).trans (ih i hi)
    | direct hfrom hnoop hc =>
      rw [op_eq_tagOp hnoop hfrom]
      exact tagOp_apply_eq_none (tagCount_kind hc) ih hi _

/-! ## What the fixups are made of -/

/-- The fixup deletes the first entry of the pair: an orphan reads as a move in the pair
`{0, 0}`. -/
def Fixup.Deletes (f : Fixup) : Prop := HasBlockZero f.dir.pair ∧ gstateHasorphans f.gstate = true

/-- The second attribute of a fixup. -/
inductive Fixup.LastAttr (f : Fixup) : Attr → Prop where
  | reference (hkind : f.kind = .parent) (horphans : gstateHasorphans f.gstate = true)
    (hvalid : tagIsValid tag = true) (hty : tagTy tag = typeDirstruct) (hsize : tagSize tag = 16)
    (hid : tagId tag < f.dir.count)
    (hdeletes : f.Deletes → tagId tag = 0 ∨ tagId tag + 1 < f.dir.count)
    (hnames : ¬ f.Deletes → NamesChild (replayLog f.dir.log) f.child (tagId tag)) :
    f.LastAttr ⟨tag, .data (pairToLe64 f.newpair)⟩
  | tail (hkind : f.kind = .pred) :
    f.LastAttr ⟨mkTag typeSofttail 0x3ff 16, .data (pairToLe64 f.newpair)⟩

/-- The attributes of a fixup when no move is pending. -/
structure Fixup.Ok (f : Fixup) (moveid : Nat) (a : Attr) : Prop where
  attrs : f.attrs = [fixupDelete moveid, a]
  last : f.LastAttr a
  deletes : f.Deletes → moveid = 0
  keeps : ¬ f.Deletes → moveid = 0x3ff

namespace Fixup

variable {f : Fixup}

theorem LastAttr.direct (H : f.LastAttr a) :
    tagIsValid a.tag = true ∧ tagType3 a.tag ≠ fromNoop ∧ ¬ IsFrom a.tag := by
  cases H with
  | reference _ _ hvalid hty =>
    have htype := (tagType3_of_valid hvalid).trans hty
    rw [IsFrom]
    simp only [htype]
    exact ⟨hvalid, by decide, by decide⟩
  | tail =>
    exact ⟨(by decide : tagIsValid (mkTag typeSofttail 0x3ff 16) = true),
      (by decide : tagType3 (mkTag typeSofttail 0x3ff 16) ≠ fromNoop),
      (by decide : ¬ IsFrom (mkTag typeSofttail 0x3ff 16))⟩

theorem LastAttr.op (H : f.LastAttr a) : a.op = tagOp a.tag a.buffer.bytes :=
  op_eq_tagOp H.direct.2.1 H.direct.2.2

theorem Ok.records_append (H : f.Ok moveid a) :
    Image.append.records f.dir.log f.attrs = replayWith f.dir.log f.attrs := by
  refine replay_append _ _ fun b hb => ?_
  rw [H.attrs] at hb
  rcases List.mem_pair.mp hb with rfl | rfl
  · by_cases hdel : f.Deletes
    · rw [H.deletes hdel]
      decide
    · rw [H.keeps hdel]
      decide
  · exact H.last.direct.2.2

/-- A fixup that deletes moves the entries down. -/
theorem Ok.replay_deletes (H : f.Ok moveid a) (hdel : f.Deletes) (i k : Nat) :
    replayWith f.dir.log f.attrs i k =
      a.op.apply (fun i k => replayLog f.dir.log (i + 1) k) i k := by
  rw [H.attrs, H.deletes hdel, show [fixupDelete 0, a] = [] ++ [fixupDelete 0] ++ [a] from rfl,
    replayWith_append_singleton, replayWith_append_singleton, replayWith_nil]
  rfl

theorem Ok.replay_keeps (H : f.Ok moveid a) (hdel : ¬ f.Deletes) :
    replayWith f.dir.log f.attrs = a.op.apply (replayLog f.dir.log) := by
  rw [H.attrs, H.keeps hdel,
    show [fixupDelete 0x3ff, a] = [] ++ [fixupDelete 0x3ff] ++ [a] from rfl,
    replayWith_append_singleton, replayWith_append_singleton, replayWith_nil]
  rfl

/-- What the second attribute does to the entries. -/
theorem LastAttr.apply (H : f.LastAttr a) (r : KeyedLog.Records Nat EntryValue) (i k : Nat) :
    a.op.apply r i k = r i k ∨ k = typeStruct ∧ i = tagId a.tag ∧ f.kind = .parent ∧
      a.op.apply r i k = some (typeDirstruct, pairToLe64 f.newpair) := by
  rw [H.op]
  cases H with
  | reference hkind _ _ hty hsize =>
    rw [tagOp_apply (by rw [hty]; decide), hty, hsize]
    split
    · obtain ⟨_, hi, hk⟩ := (‹_ ∧ _› : _ ∧ i = _ ∧ k = _)
      exact .inr ⟨hk, hi, hkind, rfl⟩
    · exact .inl rfl
  | tail =>
    have hty : tagTy (mkTag typeSofttail 0x3ff 16) = typeSofttail := by decide
    rw [tagOp_apply (by rw [hty]; decide), hty, if_neg fun h => absurd h.1 (by decide)]
    exact .inl rfl

theorem LastAttr.commitAttr_eq (H : f.LastAttr a) (dir' : MetadataDir) (hasdelete : Bool) :
    ∃ dir'', commitAttr (dir', hasdelete) a = some (dir'', hasdelete) ∧ dir''.count = dir'.count ∧
      (f.kind = .parent → dir''.split = dir'.split) ∧ (f.kind = .pred → dir''.split = false) := by
  cases H with
  | reference hkind _ hvalid hty =>
    have htype := (tagType3_of_valid hvalid).trans hty
    have htype1 := tagType1_of_valid hvalid
    rw [hty] at htype1
    refine ⟨dir', ?_, rfl, fun _ => rfl, fun h => by rw [hkind] at h; cases h⟩
    simp only [commitAttr, htype, htype1]
    rw [if_neg (by decide), if_neg (by decide), if_neg (by decide)]
  | tail hkind =>
    have hcreate : tagType3 (mkTag typeSofttail 0x3ff 16) ≠ typeCreate := by decide
    have hdelete : tagType3 (mkTag typeSofttail 0x3ff 16) ≠ typeDelete := by decide
    have htail : tagType1 (mkTag typeSofttail 0x3ff 16) = typeTail := by decide
    have hchunk : tagChunk (mkTag typeSofttail 0x3ff 16) &&& 1#8 = 0#8 := by decide
    refine ⟨{ dir' with tail := pairFromLe64 (pairToLe64 f.newpair), split := false }, ?_, rfl,
      fun h => absurd (hkind.symm.trans h) (by decide), fun _ => rfl⟩
    simp only [commitAttr, hcreate, hdelete, htail, hchunk, ↓reduceIte]
    rfl

/-- The directory that a fixup commits. -/
theorem Ok.commitDir_eq (H : f.Ok moveid a) (h : commitDir f.dir f.attrs = some dir') :
    (f.Deletes → 1 < f.dir.count ∧ dir'.count = f.dir.count - 1) ∧
    (¬ f.Deletes → dir'.count = f.dir.count) ∧
    (f.kind = .parent → dir'.split = f.dir.split) ∧ (f.kind = .pred → dir'.split = false) := by
  rw [commitDir, H.attrs, Option.bind_eq_some_iff] at h
  obtain ⟨⟨dir₂, hasdelete⟩, hfold, hlast⟩ := h
  rw [List.foldlM_cons, Option.bind_eq_bind, Option.bind_eq_some_iff] at hfold
  obtain ⟨⟨dir₁, hasdelete₁⟩, hfirst, hsecond⟩ := hfold
  obtain ⟨dir₂', hlast', hcount, hparent, hpred⟩ := H.last.commitAttr_eq dir₁ hasdelete₁
  rw [List.foldlM_cons, hlast'] at hsecond
  cases hsecond
  obtain ⟨hkeep, rfl⟩ : ¬ (hasdelete = true ∧ dir₂.count = 0) ∧ dir₂ = dir' := by simpa using hlast
  by_cases hdel : f.Deletes
  · rw [H.deletes hdel] at hfirst
    change (if f.dir.count > 0 then
      some ({ f.dir with count := f.dir.count - 1 }, true) else none) =
      some (dir₁, hasdelete) at hfirst
    obtain ⟨_, hfirst⟩ := Option.ite_none_right_eq_some.mp hfirst
    cases hfirst
    change dir₂.count = f.dir.count - 1 at hcount
    have hne : dir₂.count ≠ 0 := fun h => hkeep ⟨rfl, h⟩
    exact ⟨fun _ => ⟨by omega, hcount⟩, fun h => absurd hdel h, hparent, hpred⟩
  · rw [H.keeps hdel] at hfirst
    cases hfirst
    exact ⟨fun h => absurd h hdel, fun _ => hcount, hparent, hpred⟩

/-- The attributes fit the log. -/
theorem Ok.countWith_eq (H : f.Ok moveid a) (hlog : DirLog f.dir.log f.dir.count)
    (h : commitDir f.dir f.attrs = some dir') :
    countWith f.dir.log f.attrs = some dir'.count := by
  obtain ⟨hdeleted, hkept, _⟩ := H.commitDir_eq h
  rw [countWith, List.foldlM_append, foldlM_read hlog.count_eq, Option.bind_eq_bind,
    Option.bind_some, H.attrs, List.foldlM_cons, Option.bind_eq_bind, Option.bind_eq_some_iff]
  refine ⟨dir'.count, ?_, ?_⟩
  · by_cases hdel : f.Deletes
    · obtain ⟨hlt, hcount⟩ := hdeleted hdel
      rw [H.deletes hdel, hcount]
      change (if 0 < f.dir.count then some (f.dir.count - 1) else none) = _
      rw [if_pos (by omega)]
    · rw [H.keeps hdel, hkept hdel]
      rfl
  · obtain ⟨hvalid, hnoop, hfrom⟩ := H.last.direct
    rw [IsFrom, not_or] at hfrom
    have hlast : tagCount a.tag dir'.count = some dir'.count := by
      cases H.last with
      | @reference tag _ _ _ hty _ hid hid' =>
        have hlt : tagId tag < dir'.count := by
          by_cases hdel : f.Deletes
          · have := hid' hdel
            have := hdeleted hdel
            omega
          · exact hkept hdel ▸ hid
        simp only [tagCount, hty]
        rw [if_neg (by decide), if_neg (by decide), if_neg (by decide), if_pos (by decide),
          if_pos hlt]
      | tail =>
        have hty : tagTy (mkTag typeSofttail 0x3ff 16) = typeSofttail := by decide
        simp only [tagCount, hty]
        rw [if_neg (by decide), if_neg (by decide), if_neg (by decide), if_neg (by decide),
          if_pos (by decide)]
    rw [List.foldlM_cons, Attr.count, hvalid, if_neg Bool.noConfusion, if_neg hnoop,
      if_neg hfrom.1, if_neg hfrom.2, hlast]
    rfl

theorem logCount_valid (h : logCount log = some count) : ∀ e ∈ log, tagIsValid e.tag = true := by
  induction log using List.reverseRecOn generalizing count with
  | nil => exact fun _ he => nomatch he
  | append_singleton log e ih =>
    obtain ⟨_, hlog, hvalid, _⟩ := (logCount_append_singleton log e count).mp h
    intro e' he
    rcases List.mem_append.mp he with he | he
    · exact ih hlog e' he
    · rw [List.mem_singleton.mp he]
      exact hvalid

theorem Ok.wellFormed (H : f.Ok moveid a) (hlog : DirLog f.dir.log f.dir.count)
    (h : commitDir f.dir f.attrs = some dir') : WellFormed f.dir.log f.attrs := by
  have hfirst : tagIsValid (fixupDelete moveid).tag = true ∧ ¬ IsFrom (fixupDelete moveid).tag := by
    by_cases hdel : f.Deletes
    · rw [H.deletes hdel]
      decide
    · rw [H.keeps hdel]
      decide
  refine ⟨logCount_valid hlog.count_eq, fun b hb => ?_, ?_, ?_⟩
  · rw [H.attrs] at hb
    rcases List.mem_pair.mp hb with rfl | rfl
    · exact hfirst.1
    · exact H.last.direct.1
  · rw [H.countWith_eq hlog h]
    rfl
  · rw [H.attrs]
    exact List.pairwise_pair.mpr fun hfrom => absurd hfrom hfirst.2

/-- The entries of a fixup, however it is written. -/
theorem Ok.records_eq (H : f.Ok moveid a) (hlog : DirLog f.dir.log f.dir.count)
    (h : commitDir f.dir f.attrs = some dir') (himage : f.ImageOk image) :
    image.records f.dir.log f.attrs = replayWith f.dir.log f.attrs := by
  cases image with
  | append => exact H.records_append
  | compact ranges =>
    have hwf := H.wellFormed hlog h
    have hcount := H.countWith_eq hlog h
    obtain ⟨hmiss, hcovers⟩ := himage
    have hcovers := hcovers dir' h
    funext i k
    simp only [Image.records]
    cases hfind : ranges.find? fun r => r.1 ≤ i ∧ i < r.2 with
    | none =>
      refine (replayWith_eq_none hcount (Nat.not_lt.mp fun hi => ?_) k).symm
      obtain ⟨r, hr, hlo, hhi⟩ := (hcovers i).mp hi
      exact absurd (decide_eq_true ⟨hlo, hhi⟩) (List.find?_eq_none.mp hfind r hr)
    | some r =>
      have hr := List.find?_some hfind
      obtain ⟨hlo, hhi⟩ := of_decide_eq_true hr
      have hmoves : ∀ b ∈ f.attrs, ∀ source, b.buffer = .dir source →
          NoMissedSplice typeStruct source := by
        intro b hb source hbuffer
        rw [H.attrs] at hb
        rcases List.mem_pair.mp hb with rfl | rfl
        · cases hbuffer
        · cases H.last <;> cases hbuffer
      change replayLog (compactTags f.dir.log f.attrs r.1 r.2) (i - r.1) k = _
      have hcompacted := hwf.keepsRange hmiss (noMissedMove_of_forall hmoves f.dir.log r.1 r.2)
      rw [hcompacted, Nat.add_sub_cancel' hlo, if_pos hhi]

/-- **One fixup** touches only the reference to the child exactly when it is safe. -/
theorem Ok.onlyChild_iff (H : f.Ok moveid a) (hlog : DirLog f.dir.log f.dir.count)
    (h : commitDir f.dir f.attrs = some dir') (himage : f.ImageOk image) :
    f.OnlyChild image ↔ f.Safe := by
  have hrecords := H.records_eq hlog h himage
  obtain ⟨hdeleted, _, hparent, hpred⟩ := H.commitDir_eq h
  refine ⟨fun hframe => ⟨fun hzero => ?_, fun hkind => ?_⟩, fun hsafe => ⟨fun i k => ?_, ?_⟩⟩
  · rw [← Bool.not_eq_true]
    intro horphans
    -- the name of the last entry is gone
    have hdel : f.Deletes := ⟨hzero, horphans⟩
    have hcount := (hdeleted hdel).1
    have hnamed := hlog.named (f.dir.count - 1) (by omega)
    have hgone := H.replay_deletes hdel (f.dir.count - 1) typeName
    have hframe := hframe.entries (f.dir.count - 1) typeName
    rw [hrecords] at hframe
    rcases hframe with heq | ⟨hkey, _⟩
    · rcases H.last.apply (fun i k => replayLog f.dir.log (i + 1) k) (f.dir.count - 1) typeName with
        hsame | ⟨hkey, _⟩
      · rw [hsame] at hgone
        simp only [Nat.sub_add_cancel (show 1 ≤ f.dir.count by omega)] at hgone
        rw [heq, replayLog_eq_none hlog.count_eq (Nat.le_refl _)] at hgone
        rw [hgone] at hnamed
        cases hnamed
      · cases hkey
    · cases hkey
  · rw [← hframe.split dir' h]
    exact hpred hkind
  · have hdel : ¬ f.Deletes := fun hdel => by
      have := hsafe.nonzero hdel.1
      rw [hdel.2] at this
      cases this
    rw [hrecords, H.replay_keeps hdel]
    rcases H.last.apply (replayLog f.dir.log) i k with hsame | ⟨hkey, hi, hkind, hnew⟩
    · exact .inl hsame
    · refine .inr ⟨hkey, ?_, hnew⟩
      cases H.last with
      | reference _ _ _ _ _ _ _ hnames => exact hi ▸ hnames hdel
      | tail hkind' => rw [hkind] at hkind'; cases hkind'
  · intro dir'' h'
    obtain rfl : dir' = dir'' := Option.some.inj (h.symm.trans h')
    cases hkind : f.kind with
    | parent => exact hparent hkind
    | pred => rw [hpred hkind, hsafe.soft hkind]

end Fixup

/-! ## The fixups when no move is pending -/

theorem sharesBlock_zero (pair : BlockPair) : SharesBlock (0, 0) pair ↔ HasBlockZero pair := by
  simp only [SharesBlock, HasBlockZero]
  omega

/-- An orphan reads as a move in the pairs with a block 0. -/
theorem GState.Stores.hasmovehere_none (H : g.Stores ⟨n, none⟩) (pair : BlockPair) :
    gstateHasmovehere g pair = true ↔ gstateHasorphans g = true ∧ HasBlockZero pair := by
  rw [H.hasmovehere, H.hasorphans, ← sharesBlock_zero]
  simp [Pending.movePair]

theorem GState.Stores.tagId_none {g : GState} (H : g.Stores ⟨n, none⟩) : tagId g.tag = 0 := by
  have htag := H.tag
  have hle := H.le
  have hnonneg := H.nonneg
  simp only [Pending.orphanBit, Pending.moveBits] at htag hle hnonneg
  rw [tagId_eq, htag]
  split <;> omega

theorem fixupMoveid_eq (H : gstate.Stores ⟨n, none⟩) (pair : BlockPair) :
    fixupMoveid gstate pair =
      if gstateHasmovehere gstate pair = true then 0 else 0x3ff := by
  rw [fixupMoveid, H.tagId_none]

theorem parentFixup_ok {newpair : BlockPair} (Hg : gstate.Stores ⟨n, none⟩) (hn : 0 < n)
    (Hd : gdisk.Stores ⟨m, none⟩) (hfound : ParentFound pdir gdisk child tag) :
    ∃ moveid a, (parentFixup gstate pdir tag child newpair).Ok moveid a := by
  have horphans : gstateHasorphans gstate = true := Hg.hasorphans.mpr hn
  have hhere := Hg.hasmovehere_none pdir.pair
  have hmoveid := fixupMoveid_eq Hg pdir.pair
  have hdeletes : (parentFixup gstate pdir tag child newpair).Deletes ↔
      gstateHasmovehere gstate pdir.pair = true := hhere.trans and_comm |>.symm
  by_cases hdel : gstateHasmovehere gstate pdir.pair = true
  · rw [if_pos hdel] at hmoveid
    refine ⟨_, _, rfl, ?_, fun _ => hmoveid, fun h => absurd (hdeletes.mpr hdel) h⟩
    rw [hmoveid]
    by_cases hid : 0 < tagId tag
    · have hlt := tagId_lt tag
      have hmove := tagId_add_idShift tag (d := -1) (by omega) (by omega)
      have hsame := sameButId_add_idShift tag (d := -1) (by omega) (by omega)
      have hfid := hfound.id
      rw [if_pos ⟨hdel, hid⟩, sub_idShift]
      refine .reference rfl horphans (hsame.valid.trans hfound.valid) (hsame.ty.trans hfound.ty)
        (hsame.size.trans hfound.size) ?_ (fun _ => .inr ?_) fun h => absurd (hdeletes.mpr hdel) h
      · change tagId (tag + idShift (-1)) < pdir.count
        omega
      · change tagId (tag + idShift (-1)) + 1 < pdir.count
        omega
    · rw [if_neg fun h => hid h.2]
      exact .reference rfl horphans hfound.valid hfound.ty hfound.size hfound.id
        (fun _ => .inl (by omega)) fun h => absurd (hdeletes.mpr hdel) h
  · rw [if_neg hdel] at hmoveid
    refine ⟨_, _, rfl, ?_, fun h => absurd (hdeletes.mp h) hdel, fun _ => hmoveid⟩
    rw [if_neg fun h => hdel h.1]
    refine .reference rfl horphans hfound.valid hfound.ty hfound.size hfound.id
      (fun h => absurd (hdeletes.mp h) hdel) fun _ => hfound.names ?_
    rw [← Bool.not_eq_true, Hd.hasmovehere_none]
    exact fun h => hdel (hhere.mpr ⟨horphans, h.2⟩)

theorem predFixup_ok {pdir : MetadataDir} {child newpair : BlockPair}
    (Hg : gstate.Stores ⟨n, none⟩) :
    ∃ moveid a, (predFixup gstate pdir child newpair).Ok moveid a := by
  have hmoveid := fixupMoveid_eq Hg pdir.pair
  have hdeletes : (predFixup gstate pdir child newpair).Deletes ↔
      gstateHasmovehere gstate pdir.pair = true :=
    (Hg.hasmovehere_none pdir.pair).trans and_comm |>.symm
  refine ⟨_, _, rfl, .tail rfl, fun h => ?_, fun h => ?_⟩
  · rw [hmoveid, if_pos (hdeletes.mp h)]
  · rw [hmoveid, if_neg (mt hdeletes.mpr h)]

theorem fixupGstate_stores (H : g.Stores ⟨n, none⟩) (pair : BlockPair) :
    (fixupGstate g pair).Stores ⟨n, none⟩ := by
  rw [fixupGstate]
  split
  · exact H.prepmove rfl
  · exact H

/-! ## Every fixup of a relocation -/

/-- No move is pending in memory or on disk, there are at most `n` orphans, and the commits so far
touched only the reference to their child exactly when they were safe. -/
structure Relocation.Inv (s : Relocation) (n : Int) : Prop where
  gstate : ∃ m ≤ n, s.gstate.Stores ⟨m, none⟩
  gdisk : ∃ m, s.gdisk.Stores ⟨m, none⟩
  fixups : ∀ f ∈ s.fixups, ∀ count, DirLog f.1.dir.log count → f.1.ImageOk f.2 →
    (f.1.OnlyChild f.2 ↔ f.1.Safe)

theorem Relocation.Inv.commit {s : Relocation} (H : s.Inv n) (Hg : fixup.gstate.Stores ⟨m, none⟩)
    (hm : m ≤ n') (hok : ∀ count, DirLog fixup.dir.log count →
      fixup.dir.count = count ∧ ∃ moveid a, fixup.Ok moveid a)
    (h : s.commit fixup o = some s') : s'.Inv n' := by
  obtain ⟨dir', hdir, rfl⟩ := Option.map_eq_some_iff.mp h
  have hstores := fixupGstate_stores Hg fixup.dir.pair
  refine ⟨⟨m, hm, hstores⟩, ?_, fun f hf count hlog himage => ?_⟩
  · simp only
    split
    · exact ⟨m, hstores⟩
    · exact H.gdisk
  · rcases List.mem_append.mp hf with hf | hf
    · exact H.fixups f hf count hlog himage
    · cases List.mem_singleton.mp hf
      obtain ⟨rfl, moveid, a, hok⟩ := hok count hlog
      exact hok.onlyChild_iff hlog hdir himage

theorem Relocation.Inv.congr {s s' : Relocation} (H : s.Inv n) (hg : s'.gstate = s.gstate)
    (hd : s'.gdisk = s.gdisk) (hf : s'.fixups = s.fixups) : s'.Inv n := by
  obtain ⟨h₁, h₂, h₃⟩ := H
  exact ⟨hg ▸ h₁, hd ▸ h₂, hf ▸ h₃⟩

theorem Relocation.Inv.commitParent {s : Relocation} (H : s.Inv n) (hn : n < 0x3ff)
    (hparent : fsParent s.dev s.blockCount s.gdisk s.lpair = .ok (pdir, tag))
    (h : s.commitParent pdir tag o = some s') : s'.Inv (n + 1) := by
  obtain ⟨gstate, hpre, h⟩ := Option.bind_eq_some_iff.mp h
  obtain ⟨s₁, hcommit, rfl⟩ := Option.map_eq_some_iff.mp h
  obtain ⟨m, hm, Hg⟩ := H.gstate
  obtain ⟨m', Hd⟩ := H.gdisk
  have hnonneg := Hg.nonneg
  simp only at hnonneg
  have hcall : Pending.call ⟨m, none⟩ (.preporphans 1#8) = some ⟨m + 1, none⟩ := by
    have hone : (1#8).toInt = 1 := by decide
    simp only [Pending.call, hone]
    exact if_pos ⟨by omega, by omega⟩
  obtain ⟨g', hg', Hg'⟩ := Hg.preporphans hcall
  obtain rfl : g' = gstate := Option.some.inj (hg'.symm.trans hpre)
  have hinv : s₁.Inv (n + 1) := by
    refine H.commit Hg' (by omega) (fun count hlog => ?_) hcommit
    obtain ⟨tail, hfetch⟩ := fsParent_found hparent
    exact ⟨dirFetchmatch_count hfetch hlog,
      parentFixup_ok Hg' (by omega) Hd (fetchParent_found hfetch hlog)⟩
  split
  · exact hinv.congr rfl rfl rfl
  · split <;> exact hinv.congr rfl rfl rfl

theorem Relocation.Inv.commitPred {s : Relocation} (H : s.Inv n)
    (h : s.commitPred hasparent o = some s') : s'.Inv n := by
  rw [Relocation.commitPred] at h
  split at h
  · cases h
  · rename_i pdir hpred
    obtain ⟨gstate, hpre, h⟩ := Option.bind_eq_some_iff.mp h
    obtain ⟨s₁, hcommit, rfl⟩ := Option.map_eq_some_iff.mp h
    obtain ⟨m, hm, Hg⟩ := H.gstate
    have hnonneg := Hg.nonneg
    have hle := Hg.le
    simp only at hnonneg hle
    obtain ⟨m', hm', Hg'⟩ : ∃ m' ≤ m, gstate.Stores ⟨m', none⟩ := by
      split at hpre
      · have hpos := Hg.hasorphans.mp ‹_›
        simp only at hpos
        have hcall :
            Pending.call ⟨m, none⟩ (.preporphans (if hasparent = true then -1#8 else 0#8)) =
            some ⟨m + (if hasparent = true then -1 else 0), none⟩ := by
          have hint : (if hasparent = true then -1#8 else 0#8).toInt =
              if hasparent = true then -1 else 0 := by cases hasparent <;> decide
          simp only [Pending.call, hint]
          exact if_pos (by split <;> omega)
        obtain ⟨g', hg', Hg'⟩ := Hg.preporphans hcall
        obtain rfl : g' = gstate := Option.some.inj (hg'.symm.trans hpre)
        exact ⟨_, by split <;> omega, Hg'⟩
      · cases hpre
        exact ⟨m, Int.le_refl m, Hg⟩
    refine Relocation.Inv.congr (H.commit Hg' (by omega) (fun count hlog => ?_) hcommit)
      rfl rfl rfl
    exact ⟨fsPred_count hpred hlog, predFixup_ok Hg'⟩

theorem Relocation.Inv.step {s : Relocation} (H : s.Inv n) (hn : n < 0x3ff)
    (h : s.step o = some s') : s'.Inv (n + 1) := by
  have hmono : ∀ {s : Relocation}, s.Inv n → s.Inv (n + 1) := fun H => by
    obtain ⟨m, hm, Hg⟩ := H.gstate
    exact ⟨⟨m, by omega, Hg⟩, H.gdisk, H.fixups⟩
  rw [Relocation.step] at h
  split at h
  · cases h
  · exact hmono (H.commitPred h)
  · have hroot : Relocation.Inv { s with
        root := if pairCmp s.lpair s.root = false then s.newpair else s.root } n :=
      H.congr rfl rfl rfl
    simp only at h
    split at h
    · exact hroot.commitParent hn ‹_› h
    · split at h
      · exact hmono (hroot.commitPred h)
      · cases h

/-- **Relocation touches only the reference to the child** in exactly the fixups that are safe,
whatever the commits on the way come to. -/
theorem relocation_onlyChild_iff (s : Relocation) (outcomes : List Outcome) (s' : Relocation)
    (orphans orphans' : Int) (hg : s.gstate.Stores ⟨orphans, none⟩)
    (hd : s.gdisk.Stores ⟨orphans', none⟩) (hs : s.fixups = [])
    (hn : orphans + outcomes.length ≤ 0x3ff) (h : Run.exec Relocation.step s outcomes = some s') :
    ∀ f ∈ s'.fixups, ∀ count, DirLog f.1.dir.log count → f.1.ImageOk f.2 →
      (f.1.OnlyChild f.2 ↔ f.1.Safe) := by
  have hinv : s.Inv orphans :=
    ⟨⟨orphans, Int.le_refl _, hg⟩, ⟨orphans', hd⟩, fun f hf => by rw [hs] at hf; cases hf⟩
  clear hg hd hs
  suffices hrun : s'.Inv (orphans + outcomes.length) from hrun.fixups
  induction outcomes generalizing s orphans with
  | nil =>
    cases h
    simpa using hinv
  | cons o outcomes ih =>
    obtain ⟨s₁, hstep, hrest⟩ := Run.exec_cons.mp h
    rw [List.length_cons] at hn ⊢
    have hinv₁ := hinv.step (by omega) hstep
    have hlength : orphans + ((outcomes.length + 1 : Nat) : Int) =
        orphans + 1 + outcomes.length := by omega
    rw [hlength]
    exact ih s₁ (orphans + 1) (by omega) hrest hinv₁

/-! ## Relocating a directory of the root and one below it -/

/-- The commit that creates the directory `d` at `pair`, the last of the tail list. -/
def mkdirLog (id : Nat) (pair : BlockPair) : List LogEntry :=
  [⟨mkTag typeCreate id 0, []⟩, ⟨mkTag typeDir id 1, [100]⟩,
   ⟨mkTag typeDirstruct id 16, pairToLe64 pair⟩,
   ⟨mkTag typeSofttail 0x3ff 16, pairToLe64 pair⟩, ⟨mkTag typeCrc 0x3ff 4, [0, 0, 0, 0]⟩]

/-- The root with its superblock entry, and the directory `/d` in it. -/
def rootLog : List LogEntry :=
  [⟨mkTag typeCreate 0 0, []⟩,
   ⟨mkTag typeSuperblock 0 8, [108, 105, 116, 116, 108, 101, 102, 115]⟩,
   ⟨mkTag typeInlinestruct 0 1, [0]⟩] ++ mkdirLog 1 (2, 3)

/-- The directories `/d` at `{2, 3}` and `/d/d` at `{4, 5}`. -/
def nestedDevice : Device := fun pair =>
  if pair = (0, 1) then some ((0, 1), rootLog)
  else if pair = (2, 3) then some ((2, 3), mkdirLog 0 (4, 5))
  else some (pair, [])

/-- The directory at `lpair` has been moved to `newpair`. -/
def nestedRelocation (lpair newpair : BlockPair) : Relocation where
  dev := nestedDevice
  blockCount := 16
  gstate := {}
  gdisk := {}
  root := (0, 1)
  lpair := lpair
  newpair := newpair

/-- A commit in place. -/
def inPlace (pair : BlockPair) : Outcome := ⟨0, pair, true, .append, nestedDevice⟩

theorem relocation_onlyChild_nested :
    ∃ s', Run.exec Relocation.step (nestedRelocation (4, 5) (4, 6))
      [inPlace (2, 3), inPlace (2, 3)] = some s' ∧
      s'.fixups.length = 2 ∧ ∀ f ∈ s'.fixups, f.1.OnlyChild f.2 ↔ f.1.Safe := by
  have hfixups : (Run.exec Relocation.step (nestedRelocation (4, 5) (4, 6))
      [inPlace (2, 3), inPlace (2, 3)]).map (fun s => s.fixups.map fun f => (f.1.dir.log, f.2)) =
      some [(mkdirLog 0 (4, 5), .append), (mkdirLog 0 (4, 5), .append)] := by decide +kernel
  obtain ⟨s', h, hfixups⟩ := Option.map_eq_some_iff.mp hfixups
  refine ⟨s', h, ?_, fun f hf => ?_⟩
  · rw [← List.length_map (f := fun f : Fixup × Image => (f.1.dir.log, f.2)), hfixups]
    rfl
  · have hmem := List.mem_map_of_mem (f := fun f : Fixup × Image => (f.1.dir.log, f.2)) hf
    rw [hfixups] at hmem
    obtain ⟨hlog, himage⟩ : f.1.dir.log = mkdirLog 0 (4, 5) ∧ f.2 = .append := by
      simpa using hmem
    refine relocation_onlyChild_iff (nestedRelocation (4, 5) (4, 6))
      [inPlace (2, 3), inPlace (2, 3)] s' 0 0
      stores_zero stores_zero rfl (by decide) h f hf 1 ?_ ?_
    · rw [hlog]
      exact ⟨by decide, by decide, by decide +kernel, by decide⟩
    · rw [himage]
      trivial

/-- The fixup of the root when `/d` has moved. -/
def rootFixup : Fixup :=
  parentFixup ⟨0x80000001#32, (0, 0)⟩ ⟨(0, 1), rootLog, 2, false, (2, 3)⟩ (mkTag typeDirstruct 1 16)
    (2, 3) (2, 6)

/-- It deletes the superblock entry. -/
theorem relocation_onlyChild_fails :
    ¬ ∀ (s : Relocation) (outcomes : List Outcome) (s' : Relocation) (orphans orphans' : Int),
      s.gstate.Stores ⟨orphans, none⟩ → s.gdisk.Stores ⟨orphans', none⟩ → s.fixups = [] →
      orphans + outcomes.length ≤ 0x3ff → Run.exec Relocation.step s outcomes = some s' →
      ∀ f ∈ s'.fixups, ∀ count, DirLog f.1.dir.log count → f.1.ImageOk f.2 → f.1.OnlyChild f.2 := by
  intro h
  have hfixups : (Run.exec Relocation.step (nestedRelocation (2, 3) (2, 6)) [inPlace (0, 1)]).map
      Relocation.fixups = some [(rootFixup, .append)] := by decide +kernel
  obtain ⟨s', hs', hfixups⟩ := Option.map_eq_some_iff.mp hfixups
  have hmem : (rootFixup, Image.append) ∈ s'.fixups := by
    rw [hfixups]
    exact .head _
  have honly := h (nestedRelocation (2, 3) (2, 6)) [inPlace (0, 1)] s' 0 0 stores_zero stores_zero
    rfl
    (by decide) hs' _ hmem 2 ⟨by decide, by decide, by decide +kernel, by decide⟩ trivial
  have hlost : Image.append.records rootFixup.dir.log rootFixup.attrs 1 typeName ≠
      replayLog rootFixup.dir.log 1 typeName := by decide +kernel
  rcases honly.entries 1 typeName with heq | ⟨hkey, _⟩
  · exact hlost heq
  · cases hkey

end LittleFs
