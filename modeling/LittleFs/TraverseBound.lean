import LittleFs.TraverseFilter
import LittleFs.TraverseStack

/-! How far the stack of `lfs_dir_traverse` grows, and why the loop ends. A pass of the filter has
no masks and skips moves, so it pushes nothing; a pass over the directory of a move has no
attributes, so no move comes up in it. -/

namespace LittleFs

variable {σ : Type}

/-! ## What a step does -/

/-- The tags that are left of a level. -/
def TraverseLevel.left (l : TraverseLevel) : Nat := (l.dir.offset - l.offset) + l.attrs.length

/-- The next tag, from disk or from the attributes. -/
inductive TraverseLevel.Takes (l : TraverseLevel) : Tag → Pointer → TraverseLevel → Prop where
  | disk (word : Tag) (hmore : l.offset + tagDsize l.ptag < l.dir.offset) :
    Takes l ((word ^^^ l.ptag) ||| 0x80000000#32)
      (.disk l.dir.block (l.offset + tagDsize l.ptag + 4))
      { l with
        offset := l.offset + tagDsize l.ptag
        ptag := (word ^^^ l.ptag) ||| 0x80000000#32 }
  | attr {a : ListedAttr} {rest : List ListedAttr} (hattrs : l.attrs = a :: rest) :
    Takes l a.tag (.memory a.buffer) { l with attrs := rest }

/-- What stays while a level goes through its tags. -/
structure TraverseLevel.Same (l l' : TraverseLevel) : Prop where
  cb : l'.cb = l.cb
  tmask : l'.tmask = l.tmask
  ttag : l'.ttag = l.ttag
  diff : l'.diff = l.diff

/-- The filter has got some tags of a kind. -/
def FilteredBy (P : Tag → Prop) : Tag → Tag → Prop :=
  Relation.ReflTransGen fun ft ft' => ∃ t, P t ∧ ft' = (dirTraverseFilter t ft).1

/-- The user attribute of a list that is found under a tag. -/
def TraverseLevel.Lists (w : TraverseWorld σ) (l : TraverseLevel) (tag : Tag) (buffer : Pointer)
    (t : Tag) : Prop :=
  ∃ i < tagSize tag, t = (w.userattrAt buffer i).tag (tagId tag + l.diff)

/-- What a tag makes of the tag that is filtered. -/
inductive TraverseLevel.Filtered (w : TraverseWorld σ) (l : TraverseLevel) (tag : Tag)
    (buffer : Pointer) (ft : Tag) : Tag → Prop where
  | one (h : tagType3 tag ≠ fromUserattrs) :
    Filtered w l tag buffer ft (dirTraverseFilter (tag + idShift l.diff) ft).1
  | list {ft' : Tag} (h : tagType3 tag = fromUserattrs)
      (hft : FilteredBy (l.Lists w tag buffer) ft ft') : Filtered w l tag buffer ft ft'

/-- The tag in a slot. -/
def Traverser.slotTag (s : Traverser σ) (slot : Nat) : Tag :=
  (s.stack[slot]?.map (·.tag)).getD 0#32

/-- The stack with another tag in a slot. -/
def Traverser.setTag (s : Traverser σ) (slot : Nat) (tag : Tag) : List TraverseFrame :=
  s.stack.modify slot fun f => { f with tag := tag }

/-- A step within the level, which goes on with its next tag or comes to its end. -/
inductive Traverser.Within (s : Traverser σ) : Traverser σ → Prop where
  | failed (hc : s.control = .loop) (err : Int) : Within s (s.goto (.returned err))
  | ended (hc : s.control = .loop) : Within s (s.goto (.broken 0))
  | skipped {tag : Tag} {buffer : Pointer} {l : TraverseLevel} (hc : s.control = .loop)
      (htakes : s.level.Takes tag buffer l) : Within s { s with level := l, control := .loop }
  | taken {tag : Tag} {buffer : Pointer} {l : TraverseLevel} (hc : s.control = .loop)
      (htakes : s.level.Takes tag buffer l) :
    Within s { s with level := l, control := .popped tag buffer }
  | ignored {tag : Tag} {buffer : Pointer} (hc : s.control = .popped tag buffer) :
    Within s (s.goto .loop)
  | called {tag : Tag} {buffer : Pointer} (hc : s.control = .popped tag buffer)
      (hcb : s.level.cb = .caller) (data : σ) {control : TraverseControl}
      (hcontrol : control = .loop ∨ ∃ res, control = .broken res ∨ control = .returned res) :
    Within s { s with data := data, control := control }
  | finished {res : Int} (hc : s.control = .broken res) (hlast : s.stack = []) :
    Within s (s.goto (.returned res))

/-- All that a step can do. -/
inductive Traverser.Steps (w : TraverseWorld σ) (s : Traverser σ) : Traverser σ → Prop where
  | within {s' : Traverser σ} (h : s.Within s') : Steps w s s'
  | scanned {tag : Tag} {buffer : Pointer} {l : TraverseLevel} (hc : s.control = .loop)
      (htakes : s.level.Takes tag buffer l) (hid : tagId s.level.tmask ≠ 0)
      (hmask : mkTag typeMovestate 0 0 &&& s.level.tmask &&& tag =
        mkTag typeMovestate 0 0 &&& s.level.tmask &&& s.level.ttag) :
    Steps w s { s with
      level := l.filtering s.stack.length
      stack := s.stack ++ [{ l with tag := tag, buffer := buffer }]
      control := .loop }
  | moved {tag : Tag} {buffer : Pointer} (hc : s.control = .popped tag buffer)
      (hmove : tagType3 tag = fromMove) (hcb : s.level.cb = .caller) :
    Steps w s { s with
      level := s.level.moving (w.dirAt buffer) tag
      stack := s.stack ++ [{ s.level with tag := mkTag fromNoop 0 0, buffer := .memory 0 }]
      control := .loop }
  | filtered {tag ft : Tag} {buffer : Pointer} {slot : Nat} (hc : s.control = .popped tag buffer)
      (hcb : s.level.cb = .filter slot)
      (htag : s.level.Filtered w tag buffer (s.slotTag slot) ft)
      {control : TraverseControl} (hcontrol : control = .loop ∨ control = .broken 1) :
    Steps w s { s with stack := s.setTag slot ft, control := control }
  | resumed {res : Int} {f : TraverseFrame} (hc : s.control = .broken res)
      (hlast : s.stack.getLast? = some f) :
    Steps w s { s with
      level := f.toTraverseLevel
      stack := s.stack.dropLast
      control := .popped f.tag f.buffer }

variable {w : TraverseWorld σ} {s s' : Traverser σ} {l l' : TraverseLevel} {tag : Tag}
  {buffer : Pointer} {slot : Nat}

theorem TraverseLevel.Takes.left (h : l.Takes tag buffer l') : l'.left < l.left := by
  cases h with
  | disk word hmore =>
    have hsize : 4 ≤ tagDsize l.ptag := Nat.le_add_right ..
    have hless : l.dir.offset - (l.offset + tagDsize l.ptag) < l.dir.offset - l.offset := by omega
    exact Nat.add_lt_add_right hless _
  | attr hattrs =>
    rw [TraverseLevel.left, TraverseLevel.left, hattrs]
    exact Nat.lt_succ_self _

theorem TraverseLevel.Takes.same (h : l.Takes tag buffer l') : l.Same l' := by
  cases h <;> exact ⟨rfl, rfl, rfl, rfl⟩

theorem Traverser.steps_visit (hc : s.control = .loop) (htakes : s.level.Takes tag buffer l) :
    s.Steps w (Traverser.visit tag buffer { s with level := l }) := by
  have hsame := htakes.same
  rw [Traverser.visit]
  dsimp only
  rw [hsame.tmask, hsame.ttag]
  by_cases hmask : mkTag typeMovestate 0 0 &&& s.level.tmask &&& tag =
      mkTag typeMovestate 0 0 &&& s.level.tmask &&& s.level.ttag
  · rw [if_neg (not_not.mpr hmask)]
    by_cases hid : tagId s.level.tmask = 0
    · rw [if_neg (not_not.mpr hid)]
      exact .within (.taken hc htakes)
    · rw [if_pos hid]
      exact .scanned hc htakes hid hmask
  · rw [if_pos hmask]
    exact .within (.skipped hc htakes)

theorem Traverser.steps_next (hc : s.control = .loop) : s.Steps w (s.next w) := by
  rw [Traverser.next]
  dsimp only
  split
  · rename_i hmore
    split
    · exact .within (.failed hc _)
    · rename_i word _
      exact Traverser.steps_visit hc (.disk word hmore)
  · split
    · rename_i hattrs
      exact Traverser.steps_visit hc (.attr hattrs)
    · exact .within (.ended hc)

/-- A call of the filter. -/
theorem Traverser.call_filter (hcb : s.level.cb = .filter slot) (t : Tag) :
    s.call w t buffer = (if (dirTraverseFilter t (s.slotTag slot)).2 then 1 else 0,
      { s with stack := s.setTag slot (dirTraverseFilter t (s.slotTag slot)).1 }) := by
  rw [Traverser.call, hcb]
  rfl

theorem Traverser.call_caller (w : TraverseWorld σ) (hcb : s.level.cb = .caller) (t : Tag)
    (buffer : Pointer) :
    ∃ res data, s.call w t buffer = (res, { s with data := data }) := by
  rw [Traverser.call, hcb]
  exact ⟨_, _, rfl⟩

theorem Traverser.callUserattrs_caller (w : TraverseWorld σ) (hcb : s.level.cb = .caller)
    (id : Int) (buffer : Pointer) (count i : Nat) :
    ∃ res data, s.callUserattrs w id buffer count i = (res, { s with data := data }) := by
  induction count generalizing s i with
  | zero => exact ⟨0, s.data, rfl⟩
  | succ count ih =>
    obtain ⟨res, data, hcall⟩ := Traverser.call_caller w hcb ((w.userattrAt buffer i).tag id)
      (.memory (w.userattrAt buffer i).buffer)
    rw [Traverser.callUserattrs]
    dsimp only
    rw [hcall]
    dsimp only
    split
    · exact ⟨res, data, rfl⟩
    · exact ih (s := { s with data := data }) hcb (i + 1)

theorem Traverser.slotTag_setTag (h : slot < s.stack.length) (ft : Tag) :
    Traverser.slotTag { s with stack := s.setTag slot ft } slot = ft := by
  rw [Traverser.slotTag, Traverser.setTag, List.getElem?_modify_eq, List.getElem?_eq_getElem h]
  rfl

theorem Traverser.setTag_setTag (s : Traverser σ) (slot : Nat) (ft ft' : Tag) :
    Traverser.setTag { s with stack := s.setTag slot ft } slot ft' = s.setTag slot ft' := by
  rw [Traverser.setTag, Traverser.setTag, List.modify_modify_eq]
  rfl

theorem Traverser.setTag_slotTag (h : slot < s.stack.length) :
    s.setTag slot (s.slotTag slot) = s.stack := by
  rw [Traverser.setTag, Traverser.slotTag, List.getElem?_eq_getElem h]
  refine List.ext_getElem? fun i => ?_
  rw [List.getElem?_modify]
  by_cases hi : slot = i
  · subst hi
    rw [List.getElem?_eq_getElem h]
    simp
  · simp [hi]

theorem Traverser.callUserattrs_filter (w : TraverseWorld σ) {P : Tag → Prop} (id : Int)
    (buffer : Pointer) (count i : Nat) (hcb : s.level.cb = .filter slot)
    (hslot : slot < s.stack.length)
    (hP : ∀ j, i ≤ j → j < i + count → P ((w.userattrAt buffer j).tag id)) :
    ∃ res ft, s.callUserattrs w id buffer count i = (res, { s with stack := s.setTag slot ft }) ∧
      0 ≤ res ∧ FilteredBy P (s.slotTag slot) ft := by
  induction count generalizing s i with
  | zero =>
    refine ⟨0, s.slotTag slot, ?_, Int.le_refl 0, .refl⟩
    rw [Traverser.callUserattrs, Traverser.setTag_slotTag hslot]
  | succ count ih =>
    have hfirst : FilteredBy P (s.slotTag slot)
        (dirTraverseFilter ((w.userattrAt buffer i).tag id) (s.slotTag slot)).1 :=
      .single ⟨_, hP i (le_refl _) (by omega), rfl⟩
    rw [Traverser.callUserattrs]
    dsimp only
    rw [Traverser.call_filter hcb]
    dsimp only
    generalize hr : dirTraverseFilter ((w.userattrAt buffer i).tag id) (s.slotTag slot) = r at *
    obtain ⟨ft, hit⟩ := r
    cases hit with
    | true => exact ⟨1, ft, rfl, by decide, hfirst⟩
    | false =>
      have hlen : slot < (s.setTag slot ft).length := by
        rw [Traverser.setTag, List.length_modify]
        exact hslot
      obtain ⟨res, ft', hrest, hres, htag⟩ := ih (s := { s with stack := s.setTag slot ft })
        (i + 1) hcb hlen fun j hij hj => hP j (by omega) (by omega)
      rw [Traverser.slotTag_setTag hslot] at htag
      rw [Traverser.setTag_setTag] at hrest
      exact ⟨res, ft', hrest, hres, hfirst.trans htag⟩

/-- From the label on. -/
theorem Traverser.steps_dispatch (hc : s.control = .popped tag buffer)
    (hslot : ∀ slot, s.level.cb = .filter slot → slot < s.stack.length) :
    s.Steps w (s.dispatch w tag buffer) := by
  rw [Traverser.dispatch]
  split
  · exact .within (.ignored hc)
  split
  · exact .within (.ignored hc)
  split
  · rename_i hmove
    split
    · rename_i hcb
      exact .moved hc hmove hcb
    · exact .within (.ignored hc)
  cases hcb : s.level.cb with
  | caller =>
    split
    · obtain ⟨res, data, hcall⟩ := Traverser.callUserattrs_caller w hcb
        (tagId tag + s.level.diff) buffer (tagSize tag) 0
      rw [hcall]
      dsimp only
      split
      · exact .within (.called hc hcb data (.inr ⟨res, .inr rfl⟩))
      · exact .within (.called hc hcb data (.inl rfl))
    · obtain ⟨res, data, hcall⟩ := Traverser.call_caller w hcb (tag + idShift s.level.diff) buffer
      rw [hcall]
      dsimp only
      split
      · exact .within (.called hc hcb data (.inr ⟨res, .inr rfl⟩))
      split
      · exact .within (.called hc hcb data (.inr ⟨res, .inl rfl⟩))
      · exact .within (.called hc hcb data (.inl rfl))
  | filter slot =>
    have hlt := hslot slot hcb
    split
    · rename_i huser
      obtain ⟨res, ft, hcall, hres, htag⟩ := Traverser.callUserattrs_filter w
        (P := s.level.Lists w tag buffer) (tagId tag + s.level.diff) buffer (tagSize tag) 0 hcb hlt
        fun j _ hj => ⟨j, by omega, rfl⟩
      rw [hcall]
      dsimp only
      rw [if_neg (Int.not_lt.mpr hres)]
      exact .filtered hc hcb (.list huser htag) (.inl rfl)
    · rename_i huser
      rw [Traverser.call_filter hcb]
      dsimp only
      cases (dirTraverseFilter (tag + idShift s.level.diff) (s.slotTag slot)).2 with
      | true => exact .filtered hc hcb (.one huser) (.inr rfl)
      | false => exact .filtered hc hcb (.one huser) (.inl rfl)

/-- **The step.** -/
theorem Traverser.steps_step (hc : ∀ res, s.control ≠ .returned res)
    (hslot : ∀ slot, s.level.cb = .filter slot → slot < s.stack.length) :
    s.Steps w (s.step w) := by
  rw [Traverser.step]
  cases hs : s.control with
  | loop => exact Traverser.steps_next hs
  | popped tag buffer => exact Traverser.steps_dispatch hs hslot
  | broken res =>
    dsimp only
    split
    · rename_i hlast
      exact .resumed hs hlast
    · rename_i hlast
      exact .within (.finished hs (List.getLast?_eq_none_iff.mp hlast))
  | returned res => exact absurd hs (hc res)

/-! ## How the levels nest -/

/-- A tag that was read from disk, or that the filter has replaced. -/
def ReadTag (tag : Tag) : Prop := tag = mkTag fromNoop 0 0 ∨ tagIsValid tag = false

/-- A pass of the filter. -/
structure TraverseLevel.Filters (slot : Nat) (l : TraverseLevel) : Prop where
  cb : l.cb = .filter slot
  tmask : l.tmask = 0#32
  diff : l.diff = 0

/-- A pass over the directory of a move: all its tags come from disk. -/
structure TraverseLevel.Moves (l : TraverseLevel) : Prop where
  cb : l.cb = .caller
  attrs : l.attrs = []

/-- A call of `lfs_dir_traverse` with a pass over a directory in it that is moved, and in each of
the two at most one pass of the filter. -/
inductive Traverser.Nests : List TraverseFrame → TraverseLevel → TraverseControl → Prop where
  | outer {l : TraverseLevel} {c : TraverseControl} (hcb : l.cb = .caller) : Nests [] l c
  | filter {b : TraverseFrame} {l : TraverseLevel} {c : TraverseControl} (hb : b.cb = .caller)
      (hl : l.Filters 0) : Nests [b] l c
  | move {b : TraverseFrame} {l : TraverseLevel} {c : TraverseControl} (hb : b.cb = .caller)
      (hbtag : b.tag = mkTag fromNoop 0 0) (hl : l.Moves)
      (hc : ∀ tag buffer, c = .popped tag buffer → ReadTag tag) : Nests [b] l c
  | moveFilter {b m : TraverseFrame} {l : TraverseLevel} {c : TraverseControl}
      (hb : b.cb = .caller) (hbtag : b.tag = mkTag fromNoop 0 0) (hm : m.Moves)
      (hmtag : ReadTag m.tag) (hl : l.Filters 1) (hattrs : l.attrs = [])
      (hc : ∀ tag buffer, c = .popped tag buffer → tagIsValid tag = false) : Nests [b, m] l c

theorem Traverser.Nests.length_le {st : List TraverseFrame} {c : TraverseControl}
    (h : Traverser.Nests st l c) : st.length ≤ dirTraverseDepth - 1 := by
  cases h with
  | outer => exact Nat.zero_le 2
  | filter | move => exact Nat.le_succ 1
  | moveFilter => exact Nat.le_refl 2

theorem Traverser.Nests.slot_lt {st : List TraverseFrame} {c : TraverseControl}
    (h : Traverser.Nests st l c) (hcb : l.cb = .filter slot) : slot < st.length := by
  cases h with
  | outer hl =>
    rw [hl] at hcb
    cases hcb
  | filter hb hl =>
    rw [hl.cb] at hcb
    cases hcb
    exact Nat.one_pos
  | move hb hbtag hl =>
    rw [hl.cb] at hcb
    cases hcb
  | moveFilter hb hbtag hm hmtag hl =>
    rw [hl.cb] at hcb
    cases hcb
    exact Nat.one_lt_two

/-- A tag with bit 31 set is none of the special tags. -/
theorem ReadTag.not_from (h : ReadTag tag) :
    tagType3 tag ≠ fromMove ∧ tagType3 tag ≠ fromUserattrs := by
  obtain rfl | h := h
  · decide
  · have hge := tagType3_of_invalid h
    constructor <;> intro heq <;> rw [heq] at hge <;> exact absurd hge (by decide)

theorem idShift_zero : idShift 0 = 0#32 := by decide

/-- What the filter makes of a tag. -/
theorem dirTraverseFilter_fst (t ft : Tag) :
    (dirTraverseFilter t ft).1 = 0#32 ∨ (dirTraverseFilter t ft).1 = ft ∨
      tagType1 t = typeSplice ∧ tagId t ≤ tagId ft ∧ ¬ Supersedes t ft ∧
        (dirTraverseFilter t ft).1 = ft + idShift (tagSplice t) := by
  rw [dirTraverseFilter_eq]
  split
  · exact .inl rfl
  · rename_i hkeep
    split
    · rename_i hsplice
      exact .inr (.inr ⟨hsplice.1, hsplice.2, hkeep, rfl⟩)
    · exact .inr (.inl rfl)

/-- Tags from disk do not move the ids of others. -/
theorem TraverseLevel.Filtered.readTag {ft ft' : Tag} (h : l.Filtered w tag buffer ft ft')
    (hl : l.diff = 0) (htag : tagIsValid tag = false) (hft : ReadTag ft) : ReadTag ft' := by
  cases h with
  | one =>
    rw [hl, idShift_zero, BitVec.add_zero]
    obtain h | h | h := dirTraverseFilter_fst tag ft
    · exact .inl h
    · rwa [h]
    · have hge := tagType1_of_invalid htag
      rw [h.1] at hge
      exact absurd hge (by decide)
  | list huser => exact absurd huser (ReadTag.not_from (.inr htag)).2

/-! ## Ranks -/

/-- How far a level has come with its tag. -/
def TraverseControl.phase : TraverseControl → Nat
  | .returned _ => 0
  | .broken _ => 1
  | .loop => 2
  | .popped tag _ => if tagType3 tag = fromNoop then 3 else 5

/-- A frame that waits for a move, or for the filter. -/
def TraverseCallback.phase : TraverseCallback → Nat
  | .caller => 4
  | .filter _ => 6

def TraverseLevel.rank (l : TraverseLevel) (phase : Nat) : Nat := 7 * l.left + phase

/-- The ranks of the frames, and of the level. -/
def ranksOf : List TraverseFrame → TraverseLevel → TraverseControl → List Nat
  | [], l, c => [l.rank c.phase]
  | [f], l, c => [f.rank l.cb.phase, l.rank c.phase]
  | f :: f' :: above, l, c => f.rank f'.cb.phase :: ranksOf (f' :: above) l c

def Traverser.ranks (s : Traverser σ) : List Nat := ranksOf s.stack s.level s.control

theorem TraverseLevel.rank_lt_of_left {p q : Nat} (h : l'.left < l.left) (hp : p ≤ 6) :
    l'.rank p < l.rank q := by
  rw [TraverseLevel.rank, TraverseLevel.rank]
  omega

theorem TraverseLevel.rank_lt {p q : Nat} (h : p < q) (l : TraverseLevel) : l.rank p < l.rank q :=
  Nat.add_lt_add_left h _

theorem TraverseControl.phase_popped (tag : Tag) (buffer : Pointer) :
    2 < (TraverseControl.popped tag buffer).phase ∧
      (TraverseControl.popped tag buffer).phase ≤ 5 := by
  rw [TraverseControl.phase]
  split <;> decide

/-- A step within the level lowers its rank. -/
theorem ranksOf_lowers {c c' : TraverseControl} (st : List TraverseFrame) (hcb : l'.cb = l.cb)
    (h : l'.rank c'.phase < l.rank c.phase) :
    FrameStack.Lowers (ranksOf st l' c') (ranksOf st l c) := by
  induction st with
  | nil => exact .top h
  | cons f above ih =>
    cases above with
    | nil =>
      rw [ranksOf, ranksOf, hcb]
      exact .above (.top h)
    | cons f' above => exact .above ih

/-! ## The steps of a pass -/

/-- What a step within a level leaves. -/
structure Traverser.Goes (s s' : Traverser σ) : Prop where
  stack : s'.stack = s.stack
  same : s.level.Same s'.level
  attrs : s.level.attrs = [] → s'.level.attrs = []
  popped : ∀ tag buffer, s'.control = .popped tag buffer → s.level.Takes tag buffer s'.level
  rank : s'.level.rank s'.control.phase < s.level.rank s.control.phase

theorem TraverseLevel.Takes.attrs_nil (h : l.Takes tag buffer l') (hattrs : l.attrs = []) :
    l'.attrs = [] := by
  cases h with
  | disk => exact hattrs
  | attr h => cases hattrs.symm.trans h

/-- Without attributes the tags come from disk. -/
theorem TraverseLevel.Takes.invalid (h : l.Takes tag buffer l') (hattrs : l.attrs = []) :
    tagIsValid tag = false := by
  cases h with
  | disk => exact tagIsValid_read _
  | attr h => cases hattrs.symm.trans h

theorem Traverser.Within.goes (h : s.Within s') : s.Goes s' := by
  have hrefl : s.level.Same s.level := ⟨rfl, rfl, rfl, rfl⟩
  cases h with
  | failed hc err =>
    refine ⟨rfl, hrefl, id, fun _ _ h => (by cases h), s.level.rank_lt ?_⟩
    rw [hc]
    exact Nat.two_pos
  | ended hc =>
    refine ⟨rfl, hrefl, id, fun _ _ h => (by cases h), s.level.rank_lt ?_⟩
    rw [hc]
    exact Nat.one_lt_two
  | skipped hc htakes =>
    exact ⟨rfl, htakes.same, htakes.attrs_nil, fun _ _ h => (by cases h),
      TraverseLevel.rank_lt_of_left htakes.left (show 2 ≤ 6 by decide)⟩
  | taken hc htakes =>
    refine ⟨rfl, htakes.same, htakes.attrs_nil, fun _ _ h => ?_,
      TraverseLevel.rank_lt_of_left htakes.left
        ((TraverseControl.phase_popped _ _).2.trans (by decide))⟩
    cases h
    exact htakes
  | ignored hc =>
    refine ⟨rfl, hrefl, id, fun _ _ h => (by cases h), s.level.rank_lt ?_⟩
    rw [hc]
    exact (TraverseControl.phase_popped _ _).1
  | called hc hcb data hcontrol =>
    refine ⟨rfl, hrefl, id, fun _ _ h => ?_, s.level.rank_lt ?_⟩
    · obtain rfl | ⟨res, rfl | rfl⟩ := hcontrol <;> cases h
    · rw [hc]
      refine Nat.lt_of_le_of_lt ?_ (TraverseControl.phase_popped _ _).1
      obtain rfl | ⟨res, rfl | rfl⟩ := hcontrol
      exacts [Nat.le_refl 2, Nat.le_succ 1, Nat.zero_le 2]
  | finished hc hlast =>
    refine ⟨rfl, hrefl, id, fun _ _ h => (by cases h), s.level.rank_lt ?_⟩
    rw [hc]
    exact Nat.one_pos

theorem TraverseLevel.Filters.same (H : l.Filters slot) (h : l.Same l') : l'.Filters slot :=
  ⟨h.cb.trans H.cb, h.tmask.trans H.tmask, h.diff.trans H.diff⟩

theorem Traverser.Goes.nests (h : s.Goes s') (H : Traverser.Nests s.stack s.level s.control) :
    Traverser.Nests s'.stack s'.level s'.control := by
  have hsame := h.same
  have hattrs' := h.attrs
  have hpopped := h.popped
  rw [h.stack]
  generalize s.stack = st at H
  generalize s.level = l at H hsame hattrs' hpopped
  cases H with
  | outer hcb => exact .outer (hsame.cb.trans hcb)
  | filter hb hl => exact .filter hb (hl.same hsame)
  | move hb hbtag hl hc =>
    exact .move hb hbtag ⟨hsame.cb.trans hl.cb, hattrs' hl.attrs⟩ fun tag buffer hp =>
      .inr ((hpopped tag buffer hp).invalid hl.attrs)
  | moveFilter hb hbtag hm hmtag hl hattrs hc =>
    exact .moveFilter hb hbtag hm hmtag (hl.same hsame) (hattrs' hattrs) fun tag buffer hp =>
      (hpopped tag buffer hp).invalid hattrs

/-- **The step.** The levels nest as before, and the rank of a frame is lowered. -/
theorem Traverser.Steps.nests (h : s.Steps w s') (H : Traverser.Nests s.stack s.level s.control) :
    Traverser.Nests s'.stack s'.level s'.control ∧ FrameStack.Lowers s'.ranks s.ranks := by
  obtain ⟨l, st, c, d⟩ := s
  cases h with
  | within h =>
    have hgoes := h.goes
    refine ⟨hgoes.nests H, ?_⟩
    rw [Traverser.ranks, hgoes.stack]
    exact ranksOf_lowers st hgoes.same.cb hgoes.rank
  | scanned hc htakes hid hmask =>
    obtain rfl : c = .loop := hc
    have hlow := TraverseLevel.rank_lt_of_left (p := 6) (q := 2) htakes.left (le_refl 6)
    cases H with
    | outer hcb => exact ⟨.filter (htakes.same.cb.trans hcb) ⟨rfl, rfl, rfl⟩, .top hlow⟩
    | filter hb hl => exact absurd (congrArg tagId hl.tmask) hid
    | move hb hbtag hl _ =>
      refine ⟨.moveFilter hb hbtag ⟨htakes.same.cb.trans hl.cb, htakes.attrs_nil hl.attrs⟩
        (.inr (htakes.invalid hl.attrs)) ⟨rfl, rfl, rfl⟩ (htakes.attrs_nil hl.attrs)
        fun _ _ h => (by cases h), ?_⟩
      change FrameStack.Lowers [_, _, _] [TraverseLevel.rank _ (TraverseCallback.phase l.cb), _]
      rw [← htakes.same.cb]
      exact .above (.top hlow)
    | moveFilter hb hbtag hm hmtag hl => exact absurd (congrArg tagId hl.tmask) hid
  | moved hc hmove hcb' =>
    obtain rfl : c = .popped _ _ := hc
    cases H with
    | outer hcb =>
      refine ⟨.move hcb rfl ⟨hcb, rfl⟩ (fun _ _ h => by cases h), .top (TraverseLevel.rank_lt ?_ l)⟩
      change TraverseCallback.phase l.cb < _
      rw [hcb, TraverseControl.phase, hmove, if_neg (by decide)]
      decide
    | filter hb hl => cases hl.cb.symm.trans hcb'
    | move hb hbtag hl hread => exact absurd hmove (hread _ _ rfl).not_from.1
    | moveFilter hb hbtag hm hmtag hl => cases hl.cb.symm.trans hcb'
  | filtered hc hcb' htag hcontrol =>
    obtain rfl : c = .popped _ _ := hc
    rename_i tag ft buffer slot control
    have hphase : control.phase < (TraverseControl.popped tag buffer).phase := by
      refine Nat.lt_of_le_of_lt ?_ (TraverseControl.phase_popped _ _).1
      obtain rfl | rfl := hcontrol
      exacts [Nat.le_refl 2, Nat.le_succ 1]
    cases H with
    | outer hcb => cases hcb.symm.trans hcb'
    | filter hb hl =>
      obtain rfl := TraverseCallback.filter.inj (hl.cb.symm.trans hcb')
      exact ⟨.filter hb hl, .above (.top (l.rank_lt hphase))⟩
    | move hb hbtag hl hread => cases hl.cb.symm.trans hcb'
    | moveFilter hb hbtag hm hmtag hl hattrs hread =>
      obtain rfl := TraverseCallback.filter.inj (hl.cb.symm.trans hcb')
      have hinvalid := hread _ _ rfl
      refine ⟨.moveFilter hb hbtag hm (htag.readTag hl.diff hinvalid hmtag) hl hattrs ?_,
        .above (.above (.top (l.rank_lt hphase)))⟩
      intro _ _ h
      obtain rfl | rfl := hcontrol <;> cases h
  | resumed hc hlast =>
    obtain rfl : c = .broken _ := hc
    cases H with
    | outer hcb => cases hlast
    | filter hb hl =>
      cases hlast
      refine ⟨.outer hb, .top (TraverseLevel.rank_lt ?_ _)⟩
      change _ < TraverseCallback.phase l.cb
      rw [hl.cb]
      exact Nat.lt_succ_of_le (TraverseControl.phase_popped _ _).2
    | move hb hbtag hl hread =>
      cases hlast
      refine ⟨.outer hb, .top (TraverseLevel.rank_lt ?_ _)⟩
      rename_i b
      change TraverseControl.phase (.popped b.tag b.buffer) < TraverseCallback.phase l.cb
      rw [hl.cb, hbtag, TraverseControl.phase, if_pos (by decide)]
      exact Nat.lt_succ_self 3
    | moveFilter hb hbtag hm hmtag hl hattrs hread =>
      cases hlast
      refine ⟨.move hb hbtag hm fun _ _ h => ?_, .above (.top (TraverseLevel.rank_lt ?_ _))⟩
      · cases h
        exact hmtag
      · change _ < TraverseCallback.phase l.cb
        rw [hl.cb]
        exact Nat.lt_succ_of_le (TraverseControl.phase_popped _ _).2

/-! ## Runs -/

/-- The levels of the state nest. -/
def Traverser.Nested (s : Traverser σ) : Prop := Traverser.Nests s.stack s.level s.control

theorem Traverser.Nested.steps (H : s.Nested) (hc : ∀ res, s.control ≠ .returned res) :
    s.Steps w (s.step w) :=
  Traverser.steps_step hc fun _ hcb => H.slot_lt hcb

theorem Traverser.Nested.step (w : TraverseWorld σ) (H : s.Nested) : (s.step w).Nested := by
  by_cases hc : ∃ res, s.control = .returned res
  · obtain ⟨res, hc⟩ := hc
    have hstay : s.step w = s := by rw [Traverser.step, hc]
    rwa [hstay]
  · exact ((H.steps fun res h => hc ⟨res, h⟩).nests H).1

theorem TraverseCall.nested_start (call : TraverseCall) (data : σ) : (call.start data).Nested :=
  .outer rfl

theorem TraverseCall.after_succ (w : TraverseWorld σ) (call : TraverseCall) (data : σ) (n : Nat) :
    call.after w data (n + 1) = (call.after w data n).step w :=
  Function.iterate_succ_apply' ..

theorem TraverseCall.nested (w : TraverseWorld σ) (call : TraverseCall) (data : σ) (n : Nat) :
    (call.after w data n).Nested := by
  induction n with
  | zero => exact call.nested_start data
  | succ n ih =>
    rw [TraverseCall.after_succ]
    exact ih.step w

theorem length_ranksOf (st : List TraverseFrame) (l : TraverseLevel) (c : TraverseControl) :
    (ranksOf st l c).length = st.length + 1 := by
  induction st with
  | nil => rfl
  | cons f above ih =>
    cases above with
    | nil => rfl
    | cons f' above => exact congrArg (· + 1) ih

/-- The loop ends. -/
theorem TraverseCall.returns (w : TraverseWorld σ) (call : TraverseCall) (data : σ) :
    ∃ n res, (call.after w data n).control = .returned res := by
  have hdepth : ∀ s : Traverser σ, s.Nested → s.ranks.length ≤ dirTraverseDepth := fun s H => by
    have hle := H.length_le
    rw [Traverser.ranks, length_ranksOf]
    exact Nat.add_le_add_right hle 1
  have hstep : ∀ s : Traverser σ, s.Nested → ¬ (∃ res, s.control = .returned res) →
      (s.step w).Nested ∧ FrameStack.Lowers (s.step w).ranks s.ranks := fun s H hdone =>
    (H.steps fun res h => hdone ⟨res, h⟩).nests H
  exact FrameStack.terminates hdepth hstep (call.nested_start data)

/-- At a push there is a slot left in the array. -/
theorem TraverseCall.pushes (w : TraverseWorld σ) (call : TraverseCall) (data : σ) (n : Nat)
    (h : (call.after w data n).stack.length < (call.after w data (n + 1)).stack.length) :
    (call.after w data n).stack.length ≤ dirTraverseDepth - 2 := by
  have hle := (call.nested w data (n + 1)).length_le
  rw [dirTraverseDepth] at hle ⊢
  omega

end LittleFs
