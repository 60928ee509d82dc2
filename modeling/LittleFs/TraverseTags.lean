import LittleFs.TraverseBound

/-! Which tags `lfs_dir_traverse` takes for an `LFS_FROM_MOVE` or an `LFS_FROM_USERATTRS`, whose
buffer is a pointer into memory. A tag from disk has bit 31 set and is none of them. The filter may
replace it by an `LFS_FROM_NOOP`, whose id the creates behind it move. -/

namespace LittleFs

variable {σ : Type} {w : TraverseWorld σ} {s s' : Traverser σ} {l l' : TraverseLevel} {tag : Tag}
  {buffer : Pointer}

/-! ## Attribute lists -/

/-- The splices of `enum lfs_type` are creates and deletes, and a size fits into its tag. -/
structure ListedAttr.Ordinary (w : TraverseWorld σ) (a : ListedAttr) : Prop where
  splice : tagType1 a.tag = typeSplice → tagType3 a.tag = typeCreate ∨ tagType3 a.tag = typeDelete
  userattrs : tagType3 a.tag = fromUserattrs →
    ∀ i < tagSize a.tag, (w.userattrAt (.memory a.buffer) i).size < 2 ^ 10

/-- The `LFS_TYPE_CREATE` entries of a list. -/
def createsOf (attrs : List ListedAttr) : Nat :=
  attrs.countP fun a => tagType3 a.tag = typeCreate

/-- A create whose turn has come. -/
def TraverseControl.creates : TraverseControl → Nat
  | .popped tag _ => if tagType3 tag = typeCreate then 1 else 0
  | _ => 0

theorem createsOf_cons (a : ListedAttr) (attrs : List ListedAttr) :
    createsOf (a :: attrs) = createsOf attrs + if tagType3 a.tag = typeCreate then 1 else 0 := by
  rw [createsOf, List.countP_cons]
  simp only [decide_eq_true_eq]
  rfl

theorem TraverseLevel.Takes.creates (h : l.Takes tag buffer l') :
    createsOf l'.attrs + (if tagType3 tag = typeCreate then 1 else 0) ≤ createsOf l.attrs := by
  cases h with
  | disk word =>
    have hge := tagType3_of_invalid (tagIsValid_read (word ^^^ l.ptag))
    rw [if_neg fun h => absurd (h ▸ hge) (by decide)]
    exact Nat.le_refl _
  | attr hattrs => rw [hattrs, createsOf_cons]

theorem TraverseLevel.Takes.suffix (h : l.Takes tag buffer l') : l'.attrs <:+ l.attrs := by
  cases h with
  | disk => exact List.suffix_refl _
  | attr hattrs =>
    rw [hattrs]
    exact List.suffix_cons ..

theorem Traverser.Within.suffix (h : s.Within s') : s'.level.attrs <:+ s.level.attrs := by
  cases h with
  | skipped hc htakes | taken hc htakes => exact htakes.suffix
  | failed | ended | ignored | called | finished => exact List.suffix_refl _

theorem Traverser.Within.creates (h : s.Within s') :
    createsOf s'.level.attrs + s'.control.creates ≤
      createsOf s.level.attrs + s.control.creates := by
  cases h with
  | skipped hc htakes =>
    exact (Nat.le_of_add_right_le htakes.creates).trans (Nat.le_add_right ..)
  | taken hc htakes => exact htakes.creates.trans (Nat.le_add_right ..)
  | called hc hcb data hcontrol =>
    obtain rfl | ⟨res, rfl | rfl⟩ := hcontrol <;> exact Nat.le_add_right _ _
  | failed | ended | ignored | finished => exact Nat.le_add_right _ _

/-! ## What becomes of a tag from disk -/

/-- A tag from disk, while so many creates are still to come. -/
def DiskTag (creates : Nat) (tag : Tag) : Prop :=
  tag.toNat + 2 ^ 10 * creates < fromMove * 2 ^ 20 ∨
    2 ^ 31 ≤ tag.toNat ∧ tag.toNat < 3 * 2 ^ 30 + 2 ^ 10

/-- It is none of the special tags. -/
def Plain (tag : Tag) : Prop := tagType3 tag ≠ fromMove ∧ tagType3 tag ≠ fromUserattrs

theorem DiskTag.plain {creates : Nat} (h : DiskTag creates tag) : Plain tag := by
  rw [Plain, tagType3_eq]
  simp only [DiskTag, fromMove, fromUserattrs] at *
  omega

theorem DiskTag.mono {creates creates' : Nat} (h : DiskTag creates tag) (hle : creates' ≤ creates) :
    DiskTag creates' tag := by
  simp only [DiskTag] at *
  omega

theorem diskTag_zero {creates : Nat} (h : creates < fromMove * 2 ^ 10) : DiskTag creates 0#32 := by
  refine .inl ?_
  change 0 + 2 ^ 10 * creates < _
  omega

/-- A tag that gets past the masks of a compaction. -/
theorem diskTag_of_mask {creates : Nat} (hinvalid : tagIsValid tag = false)
    (hmask : mkTag typeMovestate 0 0 &&& mkTag typeSplice 0x3ff 0 &&& tag =
      mkTag typeMovestate 0 0 &&& mkTag typeSplice 0x3ff 0 &&& mkTag typeName 0 0) :
    DiskTag creates tag := by
  have hbit := BitField.and_mask tag.toNat 30 1
  have hlt := tag.isLt
  have hzero : tag.toNat &&& (2 ^ 1 - 1) * 2 ^ 30 = 0 := by
    rw [Nat.and_comm]
    exact congrArg BitVec.toNat hmask
  rw [← Bool.not_eq_true, tagIsValid_iff] at hinvalid
  refine .inr ⟨by omega, ?_⟩
  omega

/-- Behind the last type that such a tag gets to, a create replaces it. -/
theorem DiskTag.create {t ft : Tag} {creates : Nat} (ht : tagType3 t = typeCreate)
    (hid : tagId t ≤ tagId ft) (hkeep : ¬ Supersedes t ft) (h : DiskTag (creates + 1) ft) :
    DiskTag creates (ft + idShift 1) := by
  have hshift : (idShift 1).toNat = 2 ^ 10 := by decide
  have hadd : (ft + idShift 1).toNat = (ft.toNat + 2 ^ 10) % 2 ^ 32 := by
    rw [BitVec.toNat_add, hshift]
  obtain h | ⟨hge, hlt⟩ := h
  · refine .inl ?_
    simp only [fromMove] at *
    omega
  · by_cases htop : ft.toNat < 3 * 2 ^ 30
    · exact .inr ⟨by omega, by omega⟩
    · -- the tag is at the first id of a type that is superseded like a splice
      have hft : tagId ft = 0 := by
        rw [tagId_eq]
        omega
      have htTy : tagTy t = typeCreate := by
        rw [tagType3_eq] at ht
        rw [tagTy, ht]
        rfl
      have hftKey : typeKey (tagTy ft) = typeKey typeCreate := by
        have hty : tagTy ft = 0x400 := by
          rw [tagTy]
          omega
        rw [hty]
        rfl
      exact absurd (.inl ⟨by omega, by rw [htTy, hftKey]⟩) hkeep

theorem DiskTag.delete {t ft : Tag} {creates : Nat} (ht : tagType3 t = typeDelete)
    (hid : tagId t ≤ tagId ft) (hkeep : ¬ Supersedes t ft) (h : DiskTag creates ft) :
    DiskTag creates (ft + idShift (-1)) := by
  have htTy : tagTy t = typeDelete := by
    rw [tagType3_eq] at ht
    rw [tagTy, ht]
    rfl
  have hne : tagId t ≠ tagId ft := fun h => hkeep (.inr (.inr ⟨htTy, h⟩))
  have hlt := tagId_lt ft
  have hadd := @add_idShift_toNat ft (-1) (by omega) (by omega)
  have hpos : 0 < tagId ft := by omega
  rw [tagId_eq] at hpos
  simp only [DiskTag] at *
  omega

/-- One tag of the filter. -/
theorem DiskTag.filter {t ft : Tag} {creates : Nat} (hcreates : creates < fromMove * 2 ^ 10)
    (ht : tagType1 t = typeSplice → tagType3 t = typeCreate ∨ tagType3 t = typeDelete)
    (h : DiskTag (creates + if tagType3 t = typeCreate then 1 else 0) ft) :
    DiskTag creates (dirTraverseFilter t ft).1 := by
  obtain hft | hft | ⟨hsplice, hid, hkeep, hft⟩ := dirTraverseFilter_fst t ft
  · rw [hft]
    exact diskTag_zero hcreates
  · rw [hft]
    exact h.mono (Nat.le_add_right ..)
  · rw [hft]
    have hmoved : ∀ type, tagType3 t = type → type < 2 ^ 11 → tagTy t = type := by
      intro type htype hlt
      rw [tagType3_eq] at htype
      rw [tagTy, htype]
      exact Nat.mod_eq_of_lt hlt
    obtain ht | ht := ht hsplice
    · rw [if_pos ht] at h
      rw [tagSplice_create (hmoved _ ht (by decide))]
      exact h.create ht hid hkeep
    · rw [if_neg fun h => absurd (ht.symm.trans h) (by decide)] at h
      rw [tagSplice_delete (hmoved _ ht (by decide))]
      exact h.delete ht hid hkeep

/-- The tag of a user attribute is no splice. -/
theorem ListedUserAttr.tagType1_ne {a : ListedUserAttr} {id : Nat} (hid : id < 2 ^ 10)
    (hsize : a.size < 2 ^ 10) : tagType1 (a.tag id) ≠ typeSplice := by
  have htype : typeUserattr + a.type.toNat < 2 ^ 12 := by
    have hlt := a.type.toNat_lt
    rw [typeUserattr]
    omega
  have htag : a.tag id = mkTag (typeUserattr + a.type.toNat) id a.size := by
    rw [ListedUserAttr.tag, mkTag, idShift, BitVec.ofInt_natCast]
  have hlt := a.type.toNat_lt
  rw [htag, tagType1_eq, mkTag_toNat htype hid hsize, typeUserattr, typeSplice]
  omega

/-- The user attributes of a list change the tag only to replace it. -/
theorem DiskTag.list {ft ft' : Tag} {creates : Nat} (hcreates : creates < fromMove * 2 ^ 10)
    (hdiff : l.diff = 0) (hsizes : ∀ i < tagSize tag, (w.userattrAt buffer i).size < 2 ^ 10)
    (h : FilteredBy (l.Lists w tag buffer) ft ft') (hft : DiskTag creates ft) :
    DiskTag creates ft' := by
  induction h with
  | refl => exact hft
  | tail _ hstep ih =>
    obtain ⟨t, ⟨i, hi, rfl⟩, rfl⟩ := hstep
    have hne := ListedUserAttr.tagType1_ne (tagId_lt tag) (hsizes i hi)
    rw [hdiff, Int.add_zero]
    obtain hft' | hft' | hft' := dirTraverseFilter_fst ((w.userattrAt buffer i).tag (tagId tag)) _
    · rw [hft']
      exact diskTag_zero hcreates
    · rw [hft']
      exact ih
    · exact absurd hft'.1 hne

/-! ## The levels -/

/-- The level of the call itself. -/
structure TraverseLevel.Outer (w : TraverseWorld σ) (use : TraverseUse) (l : TraverseLevel) :
    Prop where
  ordinary : ∀ a ∈ l.attrs, a.Ordinary w
  creates : createsOf l.attrs < fromMove * 2 ^ 10
  tmask : l.tmask = use.tmask
  ttag : l.ttag = use.ttag

/-- A tag as the loop meets it. -/
inductive Met (w : TraverseWorld σ) (tag : Tag) : Pointer → Prop where
  | disk {block offset : Nat} (h : tagIsValid tag = false) : Met w tag (.disk block offset)
  | memory {address : Nat} (h : (ListedAttr.mk tag address).Ordinary w) :
    Met w tag (.memory address)

theorem Met.invalid {block offset : Nat} (h : Met w tag (.disk block offset)) :
    tagIsValid tag = false := by
  cases h with
  | disk h => exact h

/-- What is known of the tags on the way, level by level. -/
inductive Traverser.Traced (w : TraverseWorld σ) (use : TraverseUse) :
    List TraverseFrame → TraverseLevel → TraverseControl → Prop where
  | outer {l : TraverseLevel} {c : TraverseControl} (hl : l.Outer w use)
      (hc : ∀ tag block offset, c = .popped tag (.disk block offset) → Plain tag) :
    Traced w use [] l c
  | filter {b : TraverseFrame} {l : TraverseLevel} {c : TraverseControl} (hb : b.Outer w use)
      (hl : l.Filters 0) (hattrs : ∀ a ∈ l.attrs, a.Ordinary w)
      (hcreates : createsOf l.attrs < fromMove * 2 ^ 10)
      (hc : ∀ tag buffer, c = .popped tag buffer → Met w tag buffer)
      (htag : ∀ block offset, b.buffer = .disk block offset →
        DiskTag (createsOf l.attrs + c.creates) b.tag) : Traced w use [b] l c
  | move {b : TraverseFrame} {l : TraverseLevel} {c : TraverseControl} (hb : b.Outer w use)
      (hbuffer : b.buffer = .memory 0) (hl : l.cb = .caller) : Traced w use [b] l c
  | moveFilter {b m : TraverseFrame} {l : TraverseLevel} {c : TraverseControl}
      (hb : b.Outer w use) (hbuffer : b.buffer = .memory 0) (hm : m.cb = .caller)
      (hl : l.Filters 1) : Traced w use [b, m] l c

theorem TraverseLevel.Takes.met (h : l.Takes tag buffer l')
    (hattrs : ∀ a ∈ l.attrs, a.Ordinary w) : Met w tag buffer := by
  cases h with
  | disk => exact .disk (tagIsValid_read _)
  | attr h => exact .memory (hattrs _ (by rw [h]; exact List.mem_cons_self))

theorem createsOf_le {attrs attrs' : List ListedAttr} (h : attrs' <:+ attrs) :
    createsOf attrs' ≤ createsOf attrs := h.sublist.countP_le

theorem TraverseLevel.Outer.goes {use : TraverseUse} (H : l.Outer w use) (hsame : l.Same l')
    (h : l'.attrs <:+ l.attrs) : l'.Outer w use :=
  ⟨fun a ha => H.ordinary a (h.subset ha), (createsOf_le h).trans_lt H.creates,
    hsame.tmask.trans H.tmask, hsame.ttag.trans H.ttag⟩

theorem plain_of_invalid (h : tagIsValid tag = false) : Plain tag := ReadTag.not_from (.inr h)

/-- One tag, met in a pass of the filter. -/
theorem DiskTag.met {ft ft' : Tag} {creates : Nat} (hcreates : creates < fromMove * 2 ^ 10)
    (hdiff : l.diff = 0) (hmet : Met w tag buffer) (h : l.Filtered w tag buffer ft ft')
    (hft : DiskTag (creates + if tagType3 tag = typeCreate then 1 else 0) ft) :
    DiskTag creates ft' := by
  cases h with
  | one huser =>
    rw [hdiff, idShift_zero, BitVec.add_zero]
    refine hft.filter hcreates fun hsplice => ?_
    cases hmet with
    | disk hinvalid =>
      have hge := tagType1_of_invalid hinvalid
      rw [hsplice] at hge
      exact absurd hge (by decide)
    | memory hordinary => exact hordinary.splice hsplice
  | list huser h =>
    cases hmet with
    | disk hinvalid => exact absurd huser (plain_of_invalid hinvalid).2
    | memory hordinary =>
      exact DiskTag.list hcreates hdiff (hordinary.userattrs huser) h
        (hft.mono (Nat.le_add_right ..))

theorem Traverser.Within.traced {use : TraverseUse} (h : s.Within s')
    (H : Traverser.Traced w use s.stack s.level s.control) :
    Traverser.Traced w use s'.stack s'.level s'.control := by
  have hgoes := h.goes
  have hsame := hgoes.same
  have hpopped := hgoes.popped
  have hsuffix := h.suffix
  have hcreates' := h.creates
  rw [hgoes.stack]
  generalize s.stack = st at H
  generalize s.level = l at H hsame hpopped hsuffix hcreates'
  generalize s.control = c at H hcreates'
  cases H with
  | outer hl hc =>
    refine .outer (hl.goes hsame hsuffix) fun tag block offset hp => ?_
    exact plain_of_invalid ((hpopped tag _ hp).met hl.ordinary).invalid
  | filter hb hl hattrs hcreates hc htag =>
    exact .filter hb (hl.same hsame) (fun a ha => hattrs a (hsuffix.subset ha))
      ((createsOf_le hsuffix).trans_lt hcreates)
      (fun tag buffer hp => (hpopped tag buffer hp).met hattrs)
      fun block offset hbuffer => (htag block offset hbuffer).mono hcreates'
  | move hb hbuffer hl => exact .move hb hbuffer (hsame.cb.trans hl)
  | moveFilter hb hbuffer hm hl => exact .moveFilter hb hbuffer hm (hl.same hsame)

theorem Traverser.Steps.traced {use : TraverseUse} (h : s.Steps w s')
    (hnests : Traverser.Nests s.stack s.level s.control)
    (H : Traverser.Traced w use s.stack s.level s.control) :
    Traverser.Traced w use s'.stack s'.level s'.control := by
  obtain ⟨l, st, c, d⟩ := s
  cases h with
  | within h => exact h.traced H
  | scanned hc htakes hid hmask =>
    obtain rfl : c = .loop := hc
    cases H with
    | outer hl _ =>
      have hl' := hl.goes htakes.same htakes.suffix
      refine .filter hl' ⟨rfl, rfl, rfl⟩ hl'.ordinary hl'.creates (fun _ _ h => by cases h) ?_
      intro block offset hbuffer
      obtain rfl := hbuffer
      have hinvalid := (htakes.met hl.ordinary).invalid
      have huse : use = .compact := by
        cases use with
        | compact => rfl
        | commit => exact absurd (congrArg tagId hl.tmask) hid
      subst huse
      rw [show (Traverser.mk l [] .loop d).level = l from rfl, hl.tmask, hl.ttag] at hmask
      exact diskTag_of_mask hinvalid hmask
    | filter hb hl => exact absurd (congrArg tagId hl.tmask) hid
    | move hb hbuffer hl => exact .moveFilter hb hbuffer (htakes.same.cb.trans hl) ⟨rfl, rfl, rfl⟩
    | moveFilter hb hbuffer hm hl => exact absurd (congrArg tagId hl.tmask) hid
  | moved hc hmove hcb =>
    obtain rfl : c = .popped _ _ := hc
    cases H with
    | outer hl _ => exact .move ⟨hl.ordinary, hl.creates, hl.tmask, hl.ttag⟩ rfl hcb
    | filter hb hl => cases hl.cb.symm.trans hcb
    | move hb hbuffer hl =>
      cases hnests with
      | filter _ hl => cases hl.cb.symm.trans hcb
      | move _ _ _ hread => exact absurd hmove (hread _ _ rfl).not_from.1
    | moveFilter hb hbuffer hm hl => cases hl.cb.symm.trans hcb
  | filtered hc hcb htag hcontrol =>
    obtain rfl : c = .popped _ _ := hc
    cases H with
    | outer hl _ =>
      cases hnests with
      | outer hcb' => cases hcb'.symm.trans hcb
    | filter hb hl hattrs hcreates hc hdisk =>
      obtain rfl := TraverseCallback.filter.inj (hl.cb.symm.trans hcb)
      refine .filter hb hl hattrs hcreates ?_ fun block offset hbuffer => ?_
      · intro _ _ h
        obtain rfl | rfl := hcontrol <;> cases h
      · have hmet := DiskTag.met hcreates hl.diff (hc _ _ rfl) htag (hdisk block offset hbuffer)
        obtain rfl | rfl := hcontrol <;> exact hmet
    | move hb hbuffer hl => cases hl.symm.trans hcb
    | moveFilter hb hbuffer hm hl =>
      obtain rfl := TraverseCallback.filter.inj (hl.cb.symm.trans hcb)
      exact .moveFilter hb hbuffer hm hl
  | resumed hc hlast =>
    obtain rfl : c = .broken _ := hc
    cases H with
    | outer => cases hlast
    | filter hb hl hattrs hcreates hc hdisk =>
      cases hlast
      refine .outer hb fun tag block offset hp => ?_
      obtain ⟨rfl, hbuffer⟩ := TraverseControl.popped.inj hp
      exact (hdisk block offset hbuffer).plain
    | move hb hbuffer hl =>
      cases hlast
      refine .outer hb fun tag block offset hp => ?_
      cases hbuffer.symm.trans (TraverseControl.popped.inj hp).2
    | moveFilter hb hbuffer hm hl =>
      cases hlast
      exact .move hb hbuffer hm

/-! ## Runs -/

theorem TraverseCall.traced (w : TraverseWorld σ) (call : TraverseCall) (data : σ)
    (hattrs : ∀ a ∈ call.attrs, a.Ordinary w)
    (hcreates : createsOf call.attrs < fromMove * 2 ^ 10) (n : Nat) :
    Traverser.Traced w call.use (call.after w data n).stack (call.after w data n).level
      (call.after w data n).control := by
  induction n with
  | zero => exact .outer ⟨hattrs, hcreates, rfl, rfl⟩ fun _ _ _ h => by cases h
  | succ n ih =>
    have hnested := call.nested w data n
    rw [TraverseCall.after_succ]
    by_cases hc : ∃ res, (call.after w data n).control = .returned res
    · obtain ⟨res, hc⟩ := hc
      have hstay : (call.after w data n).step w = call.after w data n := by
        rw [Traverser.step, hc]
      rwa [hstay]
    · exact (hnested.steps fun res h => hc ⟨res, h⟩).traced hnested ih

/-- A tag from disk that comes to the label is a plain one. -/
theorem Traverser.Traced.plain {use : TraverseUse} {st : List TraverseFrame} {c : TraverseControl}
    {block offset : Nat} (H : Traverser.Traced w use st l c) (hnests : Traverser.Nests st l c)
    (hc : c = .popped tag (.disk block offset)) : Plain tag := by
  cases H with
  | outer hl hplain => exact hplain tag block offset hc
  | filter hb hl hattrs hcreates hmet => exact plain_of_invalid (hmet tag _ hc).invalid
  | move hb hbuffer hl =>
    cases hnests with
    | filter _ hl' => cases hl'.cb.symm.trans hl
    | move _ _ _ hread => exact (hread tag _ hc).not_from
  | moveFilter =>
    cases hnests with
    | moveFilter _ _ _ _ _ _ hread => exact plain_of_invalid (hread tag _ hc)

/-- **The explicit stack.** The loop ends, at each push there is a slot left in the array, and with
fewer creates than it takes to move a replaced tag up to `LFS_FROM_MOVE`, no tag from disk is taken
for a special one. -/
theorem dirTraverse_bounded (w : TraverseWorld σ) (call : TraverseCall) (data : σ) :
    (∃ n res, (call.after w data n).control = .returned res) ∧
    (∀ n, (call.after w data n).stack.length < (call.after w data (n + 1)).stack.length →
      (call.after w data n).stack.length ≤ dirTraverseDepth - 2) ∧
    ((∀ a ∈ call.attrs, a.Ordinary w) → createsOf call.attrs < fromMove * 2 ^ 10 →
      ∀ n tag block offset, (call.after w data n).control = .popped tag (.disk block offset) →
        tagType3 tag ≠ fromMove ∧ tagType3 tag ≠ fromUserattrs) :=
  ⟨call.returns w data, call.pushes w data, fun hattrs hcreates n _ _ _ hc =>
    (call.traced w data hattrs hcreates n).plain (call.nested w data n) hc⟩

/-- Two directories of one tag each, an inline struct of the first entry. -/
def structDirs : TraverseWorld Unit where
  read _ offset := if offset = 4 then .ok 0x5fefffff#32 else .error errCorrupt
  dirAt _ := ⟨1, 8⟩
  userattrAt _ _ := ⟨0, 0, 0⟩
  cb _ _ data := (0, data)

/-- The first entry of the other directory is moved to the place of a new one. -/
def moveAttrs : TraverseCall where
  dir := ⟨0, 8⟩
  offset := 0
  ptag := 0xffffffff#32
  attrs := [⟨mkTag typeCreate 0 0, 0⟩, ⟨mkTag fromMove 0 0, 0⟩]
  use := .compact
  begin := 0
  stop := 1
  diff := 0

/-- A pass of the filter within a move: the deepest nesting. -/
theorem dirTraverse_bounded_move :
    ((moveAttrs.after structDirs () 14).stack.map (·.tag) = [mkTag fromNoop 0 0, 0xa0100000#32]) ∧
    (∃ n res, (moveAttrs.after structDirs () n).control = .returned res) ∧
    (∀ n, (moveAttrs.after structDirs () n).stack.length <
        (moveAttrs.after structDirs () (n + 1)).stack.length →
      (moveAttrs.after structDirs () n).stack.length ≤ dirTraverseDepth - 2) ∧
    ∀ n tag block offset, (moveAttrs.after structDirs () n).control =
      .popped tag (.disk block offset) →
      tagType3 tag ≠ fromMove ∧ tagType3 tag ≠ fromUserattrs := by
  have hbounded := dirTraverse_bounded structDirs moveAttrs ()
  have hordinary : ∀ a ∈ moveAttrs.attrs, a.Ordinary structDirs := by
    intro a ha
    obtain rfl | ha := List.mem_cons.mp ha
    · exact ⟨fun _ => .inl (by decide), fun h => absurd h (by decide)⟩
    · obtain rfl := List.mem_singleton.mp ha
      exact ⟨fun h => absurd h (by decide), fun h => absurd h (by decide)⟩
  exact ⟨by decide +kernel, hbounded.1, hbounded.2.1, hbounded.2.2 hordinary (by decide)⟩

/-! ## Steps of a pass of the filter -/

/-- A tag of the log gets a pass of the filter. -/
theorem Traverser.step_scan {offset : Nat} {word : Tag} (hc : s.control = .loop)
    (hoffset : s.level.offset + tagDsize s.level.ptag = offset)
    (hmore : offset < s.level.dir.offset) (hread : w.read s.level.dir.block offset = .ok word)
    (htag : (word ^^^ s.level.ptag) ||| 0x80000000#32 = tag)
    (hmask : mkTag typeMovestate 0 0 &&& s.level.tmask &&& tag =
      mkTag typeMovestate 0 0 &&& s.level.tmask &&& s.level.ttag)
    (hid : tagId s.level.tmask ≠ 0) (hl : l = { s.level with offset := offset, ptag := tag }) :
    s.step w = { s with
      level := l.filtering s.stack.length
      stack := s.stack ++ [{ l with tag := tag, buffer := .disk s.level.dir.block (offset + 4) }]
      control := .loop } := by
  subst hl htag hoffset
  rw [Traverser.step, hc]
  dsimp only
  rw [Traverser.next]
  dsimp only
  rw [if_pos hmore, hread]
  dsimp only
  rw [Traverser.visit]
  dsimp only
  rw [if_neg (not_not.mpr hmask), if_pos hid]

/-- Behind the last attribute. -/
theorem Traverser.step_done (hc : s.control = .loop)
    (hend : s.level.dir.offset ≤ s.level.offset + tagDsize s.level.ptag)
    (hattrs : s.level.attrs = []) : s.step w = s.goto (.broken 0) := by
  rw [Traverser.step, hc]
  dsimp only
  rw [Traverser.next]
  dsimp only
  rw [if_neg (Nat.not_lt.mpr hend), hattrs]

/-- A pass of the filter takes the next attribute behind the end of the log. -/
theorem Traverser.step_filtering {slot : Nat} {a : ListedAttr} {rest : List ListedAttr}
    (hc : s.control = .loop) (hl : s.level.Filters slot)
    (hend : s.level.dir.offset ≤ s.level.offset + tagDsize s.level.ptag)
    (hattrs : s.level.attrs = a :: rest) :
    s.step w = { s with
      level := { s.level with attrs := rest }
      control := .popped a.tag (.memory a.buffer) } := by
  have hid : tagId 0#32 = 0 := by decide
  rw [Traverser.step, hc]
  dsimp only
  rw [Traverser.next]
  dsimp only
  rw [if_neg (Nat.not_lt.mpr hend), hattrs]
  dsimp only
  rw [Traverser.visit]
  dsimp only
  rw [hl.tmask, BitVec.and_zero, BitVec.zero_and, BitVec.zero_and, if_neg (not_not.mpr rfl), hid,
    if_neg (not_not.mpr rfl)]
  rfl

/-- The filter keeps its tag. -/
theorem Traverser.step_keep {slot : Nat} {ft : Tag} (hc : s.control = .popped tag buffer)
    (hl : s.level.Filters slot) (hnoop : tagType3 tag ≠ fromNoop) (hplain : Plain tag)
    (hkeep : dirTraverseFilter tag (s.slotTag slot) = (ft, false)) :
    s.step w = { s with stack := s.setTag slot ft, control := .loop } := by
  have hid : tagId 0#32 = 0 := by decide
  rw [Traverser.step, hc]
  dsimp only
  rw [Traverser.dispatch, hl.tmask, if_neg fun h => h.1 hid, if_neg hnoop, if_neg hplain.1,
    if_neg hplain.2, Traverser.call_filter hl.cb, hl.diff, idShift_zero, BitVec.add_zero, hkeep]
  rfl

/-- The filter finds its tag in a list of one user attribute, and goes on. -/
theorem Traverser.step_list {slot : Nat} {ft : Tag} (hc : s.control = .popped tag buffer)
    (hl : s.level.Filters slot) (huser : tagType3 tag = fromUserattrs) (hsize : tagSize tag = 1)
    (hhit : dirTraverseFilter ((w.userattrAt buffer 0).tag (tagId tag)) (s.slotTag slot) =
      (ft, true)) :
    s.step w = { s with stack := s.setTag slot ft, control := .loop } := by
  have hid : tagId 0#32 = 0 := by decide
  rw [Traverser.step, hc]
  dsimp only
  rw [Traverser.dispatch, hl.tmask, if_neg fun h => h.1 hid, huser, if_neg (by decide),
    if_neg (by decide), if_pos rfl, hsize, hl.diff, Int.add_zero, Traverser.callUserattrs]
  dsimp only
  rw [Traverser.call_filter hl.cb, hhit]
  rfl

/-! ## Many creates -/

/-- A device with one tag, a user attribute of the first entry, and a list of one such attribute. -/
def attrWorld : TraverseWorld Unit where
  read _ offset := if offset = 4 then .ok 0x4fffffff#32 else .error errCorrupt
  dirAt _ := ⟨0, 0⟩
  userattrAt _ _ := ⟨0, 0, 0⟩
  cb _ _ data := (0, data)

def createAttr : ListedAttr := ⟨mkTag typeCreate 0 0, 0⟩

/-- The attribute again, and creates of the first entry behind it. -/
def manyCreates (n : Nat) : TraverseCall where
  dir := ⟨0, 8⟩
  offset := 0
  ptag := 0xffffffff#32
  attrs := ⟨mkTag fromUserattrs 0 1, 0⟩ :: List.replicate n createAttr
  use := .compact
  begin := 0
  stop := 1
  diff := 0

theorem manyCreates_ordinary (n : Nat) : ∀ a ∈ (manyCreates n).attrs, a.Ordinary attrWorld := by
  intro a ha
  obtain rfl | ha := List.mem_cons.mp ha
  · exact ⟨fun h => absurd h (by decide), fun _ _ _ => Nat.two_pow_pos 10⟩
  · obtain rfl := List.eq_of_mem_replicate ha
    exact ⟨fun _ => .inl (by decide), fun h => absurd h (by decide)⟩

/-- The pass of the filter over what is left of the list, with the tag in the slot. -/
def filteringCreates (total : Nat) (attrs : List ListedAttr) (tag : Tag) : Traverser Unit where
  level := {
    dir := ⟨0, 8⟩
    offset := 4
    ptag := 0xb0000000#32
    attrs := attrs
    tmask := 0#32
    ttag := 0#32
    begin := 0
    stop := 0
    diff := 0
    cb := .filter 0 }
  stack := [{
    dir := ⟨0, 8⟩
    offset := 4
    ptag := 0xb0000000#32
    attrs := (manyCreates total).attrs
    tmask := mkTag typeSplice 0x3ff 0
    ttag := mkTag typeName 0 0
    begin := 0
    stop := 1
    diff := 0
    cb := .caller
    tag := tag
    buffer := .disk 0 8 }]
  control := .loop
  data := ()

theorem manyCreates_scanned (n : Nat) :
    (manyCreates n).after attrWorld () 1 =
      filteringCreates n (manyCreates n).attrs 0xb0000000#32 :=
  Traverser.step_scan (s := (manyCreates n).start ()) (w := attrWorld) rfl
    (show 0 + tagDsize 0xffffffff#32 = 4 by decide) (show 4 < 8 by decide) rfl
    (show (0x4fffffff#32 ^^^ 0xffffffff#32) ||| 0x80000000#32 = 0xb0000000#32 by decide)
    (show mkTag typeMovestate 0 0 &&& mkTag typeSplice 0x3ff 0 &&& 0xb0000000#32 =
      mkTag typeMovestate 0 0 &&& mkTag typeSplice 0x3ff 0 &&& mkTag typeName 0 0 by decide)
    (show tagId (mkTag typeSplice 0x3ff 0) ≠ 0 by decide) rfl

/-- The pass of the filter takes an attribute. -/
theorem filteringCreates_take (total : Nat) (a : ListedAttr) (attrs : List ListedAttr) (tag : Tag) :
    (filteringCreates total (a :: attrs) tag).step attrWorld =
      { filteringCreates total attrs tag with control := .popped a.tag (.memory a.buffer) } :=
  Traverser.step_filtering (s := filteringCreates total (a :: attrs) tag) rfl ⟨rfl, rfl, rfl⟩
    (show 8 ≤ 4 + tagDsize 0xb0000000#32 by decide) rfl

/-- The user attribute of the list replaces the tag, and the pass goes on. -/
theorem manyCreates_start (n : Nat) :
    (manyCreates n).after attrWorld () 3 =
      filteringCreates n (List.replicate n createAttr) 0#32 := by
  have hhit : dirTraverseFilter ((attrWorld.userattrAt (.memory 0) 0).tag
      (tagId (mkTag fromUserattrs 0 1))) 0xb0000000#32 = (0#32, true) := by decide
  have hlist := Traverser.step_list (w := attrWorld)
    (s := { filteringCreates n (List.replicate n createAttr) 0xb0000000#32 with
      control := .popped (mkTag fromUserattrs 0 1) (.memory 0) })
    rfl ⟨rfl, rfl, rfl⟩ (by decide) (by decide) hhit
  rw [TraverseCall.after_succ, TraverseCall.after_succ, manyCreates_scanned]
  exact (congrArg _ (filteringCreates_take ..)).trans hlist

theorem filter_createAttr {k : Nat} (hk : k < fromMove * 2 ^ 10) :
    dirTraverseFilter createAttr.tag (BitVec.ofNat 32 (k * 2 ^ 10)) =
      (BitVec.ofNat 32 ((k + 1) * 2 ^ 10), false) := by
  have hk' : k * 2 ^ 10 < 2 ^ 32 := by
    simp only [fromMove] at hk
    omega
  have hnat : (BitVec.ofNat 32 (k * 2 ^ 10)).toNat = k * 2 ^ 10 := by
    rw [BitVec.toNat_ofNat, Nat.mod_eq_of_lt hk']
  have htype : tagTy (BitVec.ofNat 32 (k * 2 ^ 10)) < 0x102 := by
    simp only [fromMove] at hk
    rw [tagTy, hnat]
    omega
  have hsize : tagSize (BitVec.ofNat 32 (k * 2 ^ 10)) = 0 := by
    rw [tagSize_eq, hnat]
    omega
  have hkey : typeKey (tagTy createAttr.tag) ≠ typeKey (tagTy (BitVec.ofNat 32 (k * 2 ^ 10))) := by
    rw [show tagTy createAttr.tag = 0x401 by decide, ne_eq, typeKey_eq_iff, if_neg (by decide)]
    omega
  have hkeep : ¬ Supersedes createAttr.tag (BitVec.ofNat 32 (k * 2 ^ 10)) := by
    rintro (⟨-, h⟩ | h | ⟨h, -⟩)
    · exact hkey h
    · omega
    · exact absurd h (by decide)
  have hsplice : tagSplice createAttr.tag = 1 := tagSplice_create (by decide)
  rw [dirTraverseFilter_eq, if_neg hkeep,
    if_pos ⟨by decide, (show tagId createAttr.tag = 0 by decide) ▸ Nat.zero_le _⟩, hsplice,
    show idShift 1 = BitVec.ofNat 32 (2 ^ 10) by decide, ← BitVec.ofNat_add, Nat.succ_mul]

/-- A create moves the tag. -/
theorem filteringCreates_create (total : Nat) (attrs : List ListedAttr) {k : Nat}
    (hk : k < fromMove * 2 ^ 10) :
    (Traverser.step attrWorld)^[2]
        (filteringCreates total (createAttr :: attrs) (BitVec.ofNat 32 (k * 2 ^ 10))) =
      filteringCreates total attrs (BitVec.ofNat 32 ((k + 1) * 2 ^ 10)) := by
  have hkeep := Traverser.step_keep (w := attrWorld)
    (s := { filteringCreates total attrs (BitVec.ofNat 32 (k * 2 ^ 10)) with
      control := .popped createAttr.tag (.memory 0) })
    rfl ⟨rfl, rfl, rfl⟩ (by decide) ⟨by decide, by decide⟩ (filter_createAttr hk)
  exact (congrArg _ (filteringCreates_take ..)).trans hkeep

theorem filteringCreates_creates (total : Nat) {n k : Nat} (hk : k + n ≤ fromMove * 2 ^ 10) :
    (Traverser.step attrWorld)^[2 * n] (filteringCreates total (List.replicate n createAttr)
        (BitVec.ofNat 32 (k * 2 ^ 10))) =
      filteringCreates total [] (BitVec.ofNat 32 ((k + n) * 2 ^ 10)) := by
  induction n generalizing k with
  | zero => rfl
  | succ n ih =>
    rw [Nat.mul_succ, Function.iterate_add_apply, List.replicate_succ,
      filteringCreates_create _ _ (by omega), ih (by omega), Nat.add_right_comm, Nat.add_assoc]

/-- Behind the pass the tag comes to the label. -/
theorem filteringCreates_done (total : Nat) (tag : Tag) :
    ((Traverser.step attrWorld)^[2] (filteringCreates total [] tag)).control =
      .popped tag (.disk 0 8) := by
  have hnext : (filteringCreates total [] tag).step attrWorld =
      { filteringCreates total [] tag with control := .broken 0 } :=
    Traverser.step_done (s := filteringCreates total [] tag) rfl
      (show 8 ≤ 4 + tagDsize 0xb0000000#32 by decide) rfl
  rw [Function.iterate_succ_apply, hnext]
  rfl

theorem manyCreates_popped {n : Nat} (hn : n ≤ fromMove * 2 ^ 10) :
    ((manyCreates n).after attrWorld () (2 + (2 * n + 3))).control =
      .popped (BitVec.ofNat 32 (n * 2 ^ 10)) (.disk 0 8) := by
  have hcreates := filteringCreates_creates n (n := n) (k := 0) (by rwa [Nat.zero_add])
  rw [Nat.zero_add, Nat.zero_mul] at hcreates
  rw [TraverseCall.after, Function.iterate_add_apply, Function.iterate_add_apply,
    ← TraverseCall.after, manyCreates_start]
  exact (congrArg (fun s => ((Traverser.step attrWorld)^[2] s).control) hcreates).trans
    (filteringCreates_done ..)

/-- With so many creates the tag comes to the label as an `LFS_FROM_MOVE`. -/
theorem manyCreates_taken : ¬ ∀ (σ : Type) (w : TraverseWorld σ) (call : TraverseCall) (data : σ),
    (∀ a ∈ call.attrs, a.Ordinary w) →
    (∃ n res, (call.after w data n).control = .returned res) ∧
    (∀ n, (call.after w data n).stack.length < (call.after w data (n + 1)).stack.length →
      (call.after w data n).stack.length ≤ dirTraverseDepth - 2) ∧
    ∀ n tag block offset, (call.after w data n).control = .popped tag (.disk block offset) →
      tagType3 tag ≠ fromMove ∧ tagType3 tag ≠ fromUserattrs := fun h =>
  have hall := (h Unit attrWorld (manyCreates 263168) () (manyCreates_ordinary _)).2.2
  have htype : tagType3 (BitVec.ofNat 32 (263168 * 2 ^ 10)) = fromMove := by decide +kernel
  (hall _ _ _ _ (manyCreates_popped (by decide +kernel))).1 htype

end LittleFs
