import LittleFs.Compaction
import LittleFs.TraverseTags
import Mathlib.Data.List.Forall2

/-! The loop of `lfs_dir_traverse` and the list of its calls. Where its pointers lead to a log and
to attributes, the loop returns 0 and has called back with the tags of `dirTraverse`: a pass of the
filter is a scan of what is left, and a move is a pass over the directory that it names. -/

namespace LittleFs

/-! ## What pointers lead to -/

section

variable {σ : Type} (w : TraverseWorld σ) (bytes : Pointer → List UInt8)

/-- Behind `offset` a directory has the tags of the log and no others. -/
def TraverseWorld.LogAt (dir : TraversedDir) : (offset : Nat) → (ptag : Tag) → List LogEntry → Prop
  | offset, ptag, [] => dir.offset ≤ offset + tagDsize ptag
  | offset, ptag, e :: log => offset + tagDsize ptag < dir.offset ∧
    (∃ word, w.read dir.block (offset + tagDsize ptag) = .ok word ∧
      (word ^^^ ptag) ||| 0x80000000#32 = e.read.tag) ∧
    bytes (.disk dir.block (offset + tagDsize ptag + 4)) = e.data ∧
    LogAt dir (offset + tagDsize ptag) e.read.tag log

/-- A pointer leads to a buffer. -/
structure TraverseWorld.Points (p : Pointer) (buffer : Buffer) : Prop where
  data : bytes p = buffer.bytes
  dir : ∀ log, buffer = .dir log → w.LogAt bytes (w.dirAt p) 0 0xffffffff#32 log
  userattrs : ∀ attrs, buffer = .userattrs attrs → ∀ i a, attrs[i]? = some a →
    (w.userattrAt p i).type = a.type ∧ (w.userattrAt p i).size = a.buffer.length ∧
      bytes (.memory (w.userattrAt p i).buffer) = a.buffer

/-- A list in memory has the tags and buffers of the attributes. -/
def TraverseWorld.AttrsAt : List ListedAttr → List Attr → Prop :=
  List.Forall₂ fun listed a => listed.tag = a.tag ∧ w.Points bytes (.memory listed.buffer) a.buffer

/-- What is left of a level. -/
def TraverseLevel.Holds (l : TraverseLevel) (items : List Attr) : Prop :=
  ∃ log attrs, items = log.map LogEntry.read ++ attrs ∧
    w.LogAt bytes l.dir l.offset l.ptag log ∧ w.AttrsAt bytes l.attrs attrs

/-- The callback takes every tag with its data. -/
def TraverseWorld.Records (f : σ → LogEntry → σ) : Prop :=
  ∀ tag p data, w.cb tag p data = (0, f data ⟨tag, bytes p⟩)

/-- The loop comes from one state to another. -/
def Traverser.Leads : Traverser σ → Traverser σ → Prop :=
  Relation.ReflTransGen fun s s' => s.step w = s'

end

/-- The buffers that the special tags need. -/
structure Suits (tag : Tag) (buffer : Buffer) : Prop where
  move : tagType3 tag = fromMove → ∃ log, buffer = .dir log
  userattrs : tagType3 tag = fromUserattrs →
    ∃ attrs, buffer = .userattrs attrs ∧ tagSize tag ≤ attrs.length

/-- The tags that come to the label, each as the filter leaves it. -/
def passed (tmask ttag : Tag) : List Attr → List (Tag × Buffer)
  | [] => []
  | a :: rest =>
    let mask := mkTag typeMovestate 0 0
    if mask &&& tmask &&& a.tag ≠ mask &&& tmask &&& ttag then passed tmask ttag rest
    else (if tagId tmask ≠ 0 then filterScan rest a.tag else a.tag, a.buffer) ::
      passed tmask ttag rest

variable {σ : Type} {w : TraverseWorld σ} {bytes : Pointer → List UInt8} {f : σ → LogEntry → σ}
  {s s' : Traverser σ} {l : TraverseLevel} {st : List TraverseFrame} {b : TraverseFrame}
  {data : σ} {items rest : List Attr} {a : Attr} {tag : Tag} {p : Pointer} {buffer : Buffer}

theorem Suits.of_not_isFrom (h : ¬ IsFrom tag) : Suits tag buffer :=
  ⟨fun hmove => absurd (.inl hmove) h, fun huserattrs => absurd (.inr huserattrs) h⟩

/-! ## Steps -/

theorem Traverser.Leads.iterate (h : Traverser.Leads w s s') :
    ∃ n, (Traverser.step w)^[n] s = s' := by
  induction h with
  | refl => exact ⟨0, rfl⟩
  | tail _ hstep ih =>
    obtain ⟨n, rfl⟩ := ih
    exact ⟨n + 1, by rw [Function.iterate_succ_apply', hstep]⟩

/-- Behind the last tag. -/
theorem TraverseLevel.Holds.step_nil (h : l.Holds w bytes []) :
    (⟨l, st, .loop, data⟩ : Traverser σ).step w = ⟨l, st, .broken 0, data⟩ := by
  obtain ⟨log, attrs, hnil, hlog, hattrs⟩ := h
  obtain ⟨hmap, rfl⟩ := List.append_eq_nil_iff.mp hnil.symm
  obtain rfl := List.map_eq_nil_iff.mp hmap
  exact Traverser.step_done rfl hlog (List.forall₂_nil_right_iff.mp hattrs)

/-- The next tag. -/
theorem TraverseLevel.Holds.step_cons (h : l.Holds w bytes (a :: rest)) :
    ∃ p offset ptag attrs, w.Points bytes p a.buffer ∧
      { l with offset, ptag, attrs }.Holds w bytes rest ∧
      ∀ st data, (⟨l, st, .loop, data⟩ : Traverser σ).step w =
        Traverser.visit a.tag p ⟨{ l with offset, ptag, attrs }, st, .loop, data⟩ := by
  obtain ⟨log, attrs, hitems, hlog, hattrs⟩ := h
  cases log with
  | cons e log =>
    obtain ⟨rfl, rfl⟩ := List.cons.inj hitems
    obtain ⟨hmore, ⟨word, hread, htag⟩, hbytes, hlog⟩ := hlog
    refine ⟨.disk l.dir.block (l.offset + tagDsize l.ptag + 4), l.offset + tagDsize l.ptag,
      e.read.tag, l.attrs, ⟨hbytes, fun _ h => (by cases h), fun _ h => (by cases h)⟩,
      ⟨log, attrs, rfl, hlog, hattrs⟩, fun st data => ?_⟩
    rw [Traverser.step]
    dsimp only
    rw [Traverser.next]
    dsimp only
    rw [if_pos hmore, hread]
    dsimp only
    rw [htag]
  | nil =>
    rw [List.map_nil, List.nil_append] at hitems
    subst hitems
    obtain ⟨listed, lattrs, ⟨htag, hpoints⟩, hrest, hlattrs⟩ :=
      List.forall₂_cons_right_iff.mp hattrs
    refine ⟨.memory listed.buffer, l.offset, l.ptag, lattrs, hpoints,
      ⟨[], rest, rfl, hlog, hrest⟩, fun st data => ?_⟩
    rw [Traverser.step]
    dsimp only
    rw [Traverser.next]
    dsimp only
    rw [if_neg (Nat.not_lt.mpr hlog), hlattrs]
    dsimp only
    rw [htag]

theorem Traverser.step_pop (res : Int) : (⟨l, st ++ [b], .broken res, data⟩ : Traverser σ).step w =
    ⟨b.toTraverseLevel, st, .popped b.tag b.buffer, data⟩ := by
  rw [Traverser.step]
  dsimp only
  rw [List.getLast?_concat, List.dropLast_concat]

theorem Traverser.step_outside
    (h : tagId l.tmask ≠ 0 ∧ ¬ (tagId tag ≥ l.begin ∧ tagId tag < l.stop)) :
    (⟨l, st, .popped tag p, data⟩ : Traverser σ).step w = ⟨l, st, .loop, data⟩ := by
  rw [Traverser.step]
  dsimp only
  rw [Traverser.dispatch, if_pos h]
  rfl

theorem Traverser.step_noop (h : tagType3 tag = fromNoop) :
    (⟨l, st, .popped tag p, data⟩ : Traverser σ).step w = ⟨l, st, .loop, data⟩ := by
  rw [Traverser.step]
  dsimp only
  rw [Traverser.dispatch, if_pos h, ite_self]
  rfl

/-! ## A pass of the filter -/

theorem ListedUserAttr.tag_eq {listed : ListedUserAttr} {a : UserAttribute} (id : Nat)
    (htype : listed.type = a.type) (hsize : listed.size = a.buffer.length) :
    listed.tag id = a.tag id := by
  rw [ListedUserAttr.tag, UserAttribute.tag, mkTag, htype, hsize, idShift]
  rfl

theorem TraverseLevel.Filters.visit (hl : l.Filters slot) :
    Traverser.visit tag p ⟨l, st, .loop, data⟩ = (⟨l, st, .popped tag p, data⟩ : Traverser σ) := by
  have hid : tagId 0#32 = 0 := by decide
  rw [Traverser.visit]
  dsimp only
  rw [hl.tmask, BitVec.and_zero, BitVec.zero_and, BitVec.zero_and, if_neg (not_not.mpr rfl), hid,
    if_neg (not_not.mpr rfl)]
  rfl

theorem Traverser.slotTag_concat :
    (⟨l, st ++ [b], c, data⟩ : Traverser σ).slotTag st.length = b.tag := by
  rw [Traverser.slotTag, List.getElem?_concat_length]
  rfl

theorem Traverser.setTag_concat (ft : Tag) :
    (⟨l, st ++ [b], c, data⟩ : Traverser σ).setTag st.length ft = st ++ [{ b with tag := ft }] := by
  rw [Traverser.setTag]
  induction st with
  | nil => rfl
  | cons b' st ih => exact congrArg (b' :: ·) ih

/-- A call of the filter from its pass. -/
theorem TraverseLevel.Filters.call (hl : l.Filters st.length) (t : Tag) :
    (⟨l, st ++ [b], c, data⟩ : Traverser σ).call w t p =
      (if (dirTraverseFilter t b.tag).2 then 1 else 0,
        ⟨l, st ++ [{ b with tag := (dirTraverseFilter t b.tag).1 }], c, data⟩) := by
  rw [Traverser.call_filter hl.cb, Traverser.slotTag_concat, Traverser.setTag_concat]

/-- The loop over a list of user attributes, of which those from `i` on are left. -/
theorem TraverseLevel.Filters.callUserattrs {attrs : List UserAttribute} {n i : Nat}
    (hl : l.Filters st.length) (hpoints : w.Points bytes p (.userattrs attrs)) (id : Nat)
    (hle : i + n ≤ attrs.length) :
    ∃ res : Int, 0 ≤ res ∧ (⟨l, st ++ [b], c, data⟩ : Traverser σ).callUserattrs w id p n i =
      (res, ⟨l, st ++ [{ b with
        tag := filterUserattrs id ((attrs.drop i).take n) b.tag }], c, data⟩) := by
  induction n generalizing b i with
  | zero => exact ⟨0, Int.le_refl 0, rfl⟩
  | succ n ih =>
    have hi : i < attrs.length := by omega
    obtain ⟨htype, hsize, -⟩ := hpoints.userattrs _ rfl i _ (List.getElem?_eq_getElem hi)
    rw [Traverser.callUserattrs]
    dsimp only
    rw [ListedUserAttr.tag_eq id htype hsize, hl.call, List.drop_eq_getElem_cons hi,
      List.take_succ_cons, filterUserattrs]
    dsimp only
    cases hhit : (dirTraverseFilter (attrs[i].tag id) b.tag).2 with
    | true => exact ⟨1, by decide, rfl⟩
    | false =>
      obtain ⟨res, hres, hrest⟩ := ih (b := { b with
        tag := (dirTraverseFilter (attrs[i].tag id) b.tag).1 }) (i := i + 1) (by omega)
      exact ⟨res, hres, hrest⟩

/-- What a pass does with a tag: it leaves the filtered one as `filterScan` does, and has come to
its end on a match. -/
theorem TraverseLevel.Filters.step (hl : l.Filters st.length) (hpoints : w.Points bytes p a.buffer)
    (hsuits : Suits a.tag a.buffer) :
    ∃ ft c, (⟨l, st ++ [b], .popped a.tag p, data⟩ : Traverser σ).step w =
        ⟨l, st ++ [{ b with tag := ft }], c, data⟩ ∧
      ((c = .loop ∧ ∀ rest, filterScan (a :: rest) b.tag = filterScan rest ft) ∨
        c = .broken 1 ∧ ∀ rest, filterScan (a :: rest) b.tag = ft) := by
  have hid : tagId 0#32 = 0 := by decide
  by_cases hnoop : tagType3 a.tag = fromNoop
  · exact ⟨b.tag, .loop, Traverser.step_noop hnoop,
      .inl ⟨rfl, fun rest => by rw [filterScan, if_pos hnoop]⟩⟩
  rw [Traverser.step]
  dsimp only
  rw [Traverser.dispatch]
  dsimp only
  rw [hl.tmask, if_neg fun h => h.1 hid, if_neg hnoop]
  by_cases hmove : tagType3 a.tag = fromMove
  · rw [if_pos hmove, if_neg (by rw [hl.cb]; exact fun h => by cases h)]
    exact ⟨b.tag, .loop, rfl,
      .inl ⟨rfl, fun rest => by rw [filterScan, if_neg hnoop, if_pos hmove]⟩⟩
  rw [if_neg hmove]
  by_cases huserattrs : tagType3 a.tag = fromUserattrs
  · obtain ⟨attrs, hbuffer, hle⟩ := hsuits.userattrs huserattrs
    rw [hbuffer] at hpoints
    obtain ⟨res, hres, hcall⟩ := hl.callUserattrs (b := b) (c := .popped a.tag p)
      (i := 0) hpoints (tagId a.tag) (by omega : 0 + tagSize a.tag ≤ attrs.length)
    rw [if_pos huserattrs, hl.diff, Int.add_zero, hcall]
    dsimp only
    rw [if_neg (Int.not_lt.mpr hres)]
    refine ⟨_, .loop, rfl, .inl ⟨rfl, fun rest => ?_⟩⟩
    rw [filterScan, if_neg hnoop, if_neg hmove, if_pos huserattrs, hbuffer]
    rfl
  · rw [if_neg huserattrs, hl.diff, idShift_zero, BitVec.add_zero, hl.call]
    dsimp only
    have hscan : ∀ rest, filterScan (a :: rest) b.tag =
        if (dirTraverseFilter a.tag b.tag).2 then (dirTraverseFilter a.tag b.tag).1
        else filterScan rest (dirTraverseFilter a.tag b.tag).1 := fun rest => by
      rw [filterScan, if_neg hnoop, if_neg hmove, if_neg huserattrs]
    cases hhit : (dirTraverseFilter a.tag b.tag).2 with
    | true => exact ⟨_, .broken 1, rfl, .inr ⟨rfl, fun rest => by rw [hscan, hhit]; rfl⟩⟩
    | false => exact ⟨_, .loop, rfl, .inl ⟨rfl, fun rest => by rw [hscan, hhit]; rfl⟩⟩

/-- **A pass of the filter** is a scan of what is left. -/
theorem TraverseLevel.Filters.leads (hl : l.Filters st.length) (h : l.Holds w bytes items)
    (hsuits : ∀ a ∈ items, Suits a.tag a.buffer) :
    Traverser.Leads w ⟨l, st ++ [b], .loop, data⟩
      ⟨b.toTraverseLevel, st, .popped (filterScan items b.tag) b.buffer, data⟩ := by
  induction items generalizing l b with
  | nil => exact .head h.step_nil (.single (Traverser.step_pop 0))
  | cons a rest ih =>
    obtain ⟨ha, hrest⟩ := List.forall_mem_cons.mp hsuits
    obtain ⟨p, offset, ptag, attrs, hpoints, hholds, hstep⟩ := h.step_cons
    have hl' : { l with offset, ptag, attrs }.Filters st.length := ⟨hl.cb, hl.tmask, hl.diff⟩
    obtain ⟨ft, c, hdispatch, hscan⟩ := hl'.step (b := b) hpoints ha
    refine .head ((hstep _ _).trans hl'.visit) (.head hdispatch ?_)
    rcases hscan with ⟨rfl, hscan⟩ | ⟨rfl, hscan⟩
    · rw [hscan]
      exact ih hl' hholds hrest
    · rw [hscan]
      exact .single (Traverser.step_pop 1)

/-! ## Passed tags -/

theorem passed_log (tmask ttag : Tag) (log : List LogEntry) :
    ∀ t ∈ passed tmask ttag (log.map LogEntry.read), ¬ IsFrom t.1 := by
  induction log with
  | nil => exact fun t ht => absurd ht List.not_mem_nil
  | cons e log ih =>
    rw [List.map_cons, passed]
    split
    · exact ih
    · refine List.forall_mem_cons.mpr ⟨?_, ih⟩
      split
      · have hdisk : ∀ a ∈ log.map LogEntry.read, tagIsValid a.tag = false := fun a ha => by
          obtain ⟨e', -, rfl⟩ := List.mem_map.mp ha
          exact tagIsValid_read e'.tag
        rcases filterScan_disk _ hdisk e.read.tag with h | h <;> rw [h]
        · exact e.not_isFrom
        · exact (by decide : ¬ IsFrom 0#32)
      · exact e.not_isFrom

/-! ## A pass of the caller -/

/-- A tag that the masks let through comes to the label, filtered if there is an id in the mask. -/
theorem TraverseLevel.Holds.label (h : l.Holds w bytes rest) (st : List TraverseFrame) (data : σ)
    (hsuits : tagId l.tmask ≠ 0 → ∀ a ∈ rest, Suits a.tag a.buffer)
    (hmask : mkTag typeMovestate 0 0 &&& l.tmask &&& tag =
      mkTag typeMovestate 0 0 &&& l.tmask &&& l.ttag) :
    Traverser.Leads w (Traverser.visit tag p ⟨l, st, .loop, data⟩)
      ⟨l, st, .popped (if tagId l.tmask ≠ 0 then filterScan rest tag else tag) p, data⟩ := by
  rw [Traverser.visit]
  dsimp only
  rw [if_neg (not_not.mpr hmask)]
  split
  · rename_i hid
    exact TraverseLevel.Filters.leads (l := l.filtering st.length)
      (b := { l with tag := tag, buffer := p }) ⟨rfl, rfl, rfl⟩ h (hsuits hid)
  · exact .refl

/-- **A pass** whose tags are dealt with one by one. -/
theorem TraverseLevel.Holds.leads {P : Tag → Buffer → Prop} (h : l.Holds w bytes items)
    (st : List TraverseFrame) (data : σ) (cb : Tag → Buffer → List LogEntry)
    (hsuits : tagId l.tmask ≠ 0 → ∀ a ∈ items, Suits a.tag a.buffer)
    (hpassed : ∀ t ∈ passed l.tmask l.ttag items, P t.1 t.2)
    (hcalls : ∀ offset ptag attrs tag p buffer data, w.Points bytes p buffer → P tag buffer →
      (tagId l.tmask ≠ 0 → tagId tag ≥ l.begin ∧ tagId tag < l.stop) →
      Traverser.Leads w ⟨{ l with offset, ptag, attrs }, st, .popped tag p, data⟩
        ⟨{ l with offset, ptag, attrs }, st, .loop, (cb tag buffer).foldl f data⟩) :
    ∃ l', Traverser.Leads w ⟨l, st, .loop, data⟩ ⟨l', st, .broken 0,
      (traverseLoop l.tmask l.ttag l.begin l.stop cb items).foldl f data⟩ := by
  induction items generalizing l data with
  | nil => exact ⟨l, .single h.step_nil⟩
  | cons a rest ih =>
    obtain ⟨p, offset, ptag, attrs, hpoints, hholds, hstep⟩ := h.step_cons
    have hsuits' : tagId l.tmask ≠ 0 → ∀ a ∈ rest, Suits a.tag a.buffer :=
      fun hid a ha => hsuits hid a (.tail _ ha)
    have hrest := fun hpassed data =>
      ih (l := { l with offset, ptag, attrs }) hholds data hsuits' hpassed
        fun offset ptag attrs => hcalls offset ptag attrs
    rw [traverseLoop]
    rw [passed] at hpassed
    dsimp only at hpassed ⊢
    by_cases hmask : mkTag typeMovestate 0 0 &&& l.tmask &&& a.tag =
        mkTag typeMovestate 0 0 &&& l.tmask &&& l.ttag
    · rw [if_neg (not_not.mpr hmask)] at hpassed ⊢
      obtain ⟨hP, hpassed⟩ := List.forall_mem_cons.mp hpassed
      have hlabel := hholds.label (p := p) st data hsuits' hmask
      dsimp only at hlabel hP
      generalize (if tagId l.tmask ≠ 0 then filterScan rest a.tag else a.tag) = tag at hlabel hP ⊢
      by_cases hrange : tagId l.tmask ≠ 0 ∧ ¬ (tagId tag ≥ l.begin ∧ tagId tag < l.stop)
      · rw [if_pos hrange]
        obtain ⟨l', hl'⟩ := hrest hpassed data
        exact ⟨l', .head (hstep st data) (hlabel.trans (.head (Traverser.step_outside hrange) hl'))⟩
      · rw [if_neg hrange, List.foldl_append]
        have hcall := hcalls offset ptag attrs tag p a.buffer data hpoints hP
          fun hid => of_not_not fun hout => hrange ⟨hid, hout⟩
        obtain ⟨l', hl'⟩ := hrest hpassed ((cb tag a.buffer).foldl f data)
        exact ⟨l', .head (hstep st data) (hlabel.trans (hcall.trans hl'))⟩
    · rw [if_pos hmask] at hpassed ⊢
      obtain ⟨l', hl'⟩ := hrest hpassed data
      refine ⟨l', .head ((hstep st data).trans ?_) hl'⟩
      rw [Traverser.visit]
      dsimp only
      rw [if_pos hmask]
      rfl

/-! ## What is done with a tag -/

theorem TraverseWorld.Records.call (Hw : w.Records bytes f) (hcb : l.cb = .caller) :
    (⟨l, st, c, data⟩ : Traverser σ).call w tag p = (0, ⟨l, st, c, f data ⟨tag, bytes p⟩⟩) := by
  rw [Traverser.call, hcb]
  exact congrArg (fun r : Int × σ => (r.1, (⟨l, st, c, r.2⟩ : Traverser σ))) (Hw tag p data)

/-- The loop over a list of user attributes, of which those from `i` on are left. -/
theorem TraverseWorld.Records.callUserattrs {attrs : List UserAttribute} {n i : Nat}
    (Hw : w.Records bytes f) (hcb : l.cb = .caller)
    (hpoints : w.Points bytes p (.userattrs attrs)) (id : Nat) (hle : i + n ≤ attrs.length) :
    (⟨l, st, c, data⟩ : Traverser σ).callUserattrs w id p n i =
      (0, ⟨l, st, c, (((attrs.drop i).take n).map fun a =>
        (⟨a.tag id, a.buffer⟩ : LogEntry)).foldl f data⟩) := by
  induction n generalizing i data with
  | zero => rfl
  | succ n ih =>
    have hi : i < attrs.length := by omega
    obtain ⟨htype, hsize, hbytes⟩ := hpoints.userattrs _ rfl i _ (List.getElem?_eq_getElem hi)
    rw [Traverser.callUserattrs]
    dsimp only
    rw [ListedUserAttr.tag_eq id htype hsize, Hw.call hcb, hbytes, List.drop_eq_getElem_cons hi,
      List.take_succ_cons, List.map_cons, List.foldl_cons]
    dsimp only
    rw [if_neg (not_not.mpr rfl), ih (by omega)]

section

variable (Hw : w.Records bytes f) (hcb : l.cb = .caller) (hpoints : w.Points bytes p buffer)
  (hrange : tagId l.tmask ≠ 0 → tagId tag ≥ l.begin ∧ tagId tag < l.stop)

include Hw hcb hpoints hrange

/-- A tag of a log. -/
theorem Traverser.Leads.direct (hfrom : ¬ IsFrom tag) (depth : Nat) :
    Traverser.Leads w ⟨l, st, .popped tag p, data⟩
      ⟨l, st, .loop, (traverseTag depth l.diff tag buffer).foldl f data⟩ := by
  refine .single ?_
  by_cases hnoop : tagType3 tag = fromNoop
  · rw [traverseTag_noop depth _ (t := (tag, buffer)) hnoop, Traverser.step_noop hnoop]
    rfl
  · obtain ⟨hmove, huserattrs⟩ := not_or.mp hfrom
    rw [traverseTag_shifted hfrom hnoop, Traverser.step]
    dsimp only
    rw [Traverser.dispatch, if_neg fun h => h.2 (hrange h.1), if_neg hnoop, if_neg hmove,
      if_neg huserattrs, Hw.call hcb, hpoints.data]
    rfl

/-- A list of user attributes. -/
theorem Traverser.Leads.list {attrs : List UserAttribute} (hbuffer : buffer = .userattrs attrs)
    (hle : tagSize tag ≤ attrs.length) (huserattrs : tagType3 tag = fromUserattrs)
    (hid : 0 ≤ tagId tag + l.diff) (depth : Nat) :
    Traverser.Leads w ⟨l, st, .popped tag p, data⟩
      ⟨l, st, .loop, (traverseTag depth l.diff tag buffer).foldl f data⟩ := by
  subst hbuffer
  have hnoop : tagType3 tag ≠ fromNoop := by rw [huserattrs]; decide
  have hmove : tagType3 tag ≠ fromMove := by rw [huserattrs]; decide
  refine .single ?_
  rw [traverseTag_userattrs huserattrs, Traverser.step]
  dsimp only
  rw [Traverser.dispatch, if_neg fun h => h.2 (hrange h.1), if_neg hnoop, if_neg hmove,
    if_pos huserattrs, ← Int.toNat_of_nonneg hid,
    Hw.callUserattrs hcb hpoints _ (by omega : 0 + tagSize tag ≤ attrs.length)]
  rfl

/-- The directory of a move has a pass of its own. -/
theorem Traverser.Leads.move {log : List LogEntry} (hbuffer : buffer = .dir log)
    (hmove : tagType3 tag = fromMove) :
    Traverser.Leads w ⟨l, st, .popped tag p, data⟩
      ⟨l, st, .loop, (traverseTag 1 l.diff tag buffer).foldl f data⟩ := by
  subst hbuffer
  have hnoop : tagType3 tag ≠ fromNoop := by rw [hmove]; decide
  have hpush : (⟨l, st, .popped tag p, data⟩ : Traverser σ).step w = ⟨l.moving (w.dirAt p) tag,
      st ++ [{ l with tag := mkTag fromNoop 0 0, buffer := .memory 0 }], .loop, data⟩ := by
    rw [Traverser.step]
    dsimp only
    rw [Traverser.dispatch, if_neg fun h => h.2 (hrange h.1), if_neg hnoop, if_pos hmove,
      if_pos hcb]
  have hholds : (l.moving (w.dirAt p) tag).Holds w bytes (log.map LogEntry.read) :=
    ⟨log, [], (List.append_nil _).symm, hpoints.dir log rfl, .nil⟩
  obtain ⟨l', hpass⟩ := hholds.leads (P := fun tag _ => ¬ IsFrom tag)
    (st ++ [{ l with tag := mkTag fromNoop 0 0, buffer := .memory 0 }]) data
    (traverseTag 0 (tagId tag - tagSize tag + l.diff))
    (fun _ a ha => .of_not_isFrom (by
      obtain ⟨e, -, rfl⟩ := List.mem_map.mp ha
      exact e.not_isFrom))
    (passed_log _ _ log) fun offset ptag attrs _ _ _ _ hpoints hfrom hrange =>
      Traverser.Leads.direct (l := { l.moving (w.dirAt p) tag with offset, ptag, attrs }) Hw hcb
        hpoints hrange hfrom 0
  rw [traverseTag_move hmove]
  exact .head hpush (hpass.trans (.head (Traverser.step_pop 0)
    (.single (Traverser.step_noop (show tagType3 (mkTag fromNoop 0 0) = fromNoop by decide)))))

/-- **What is done with a tag** that has the buffer it needs. -/
theorem Traverser.Leads.suited (hsuits : Suits tag buffer) (hid : 0 ≤ tagId tag + l.diff) :
    Traverser.Leads w ⟨l, st, .popped tag p, data⟩
      ⟨l, st, .loop, (traverseTag 1 l.diff tag buffer).foldl f data⟩ := by
  by_cases hmove : tagType3 tag = fromMove
  · obtain ⟨log, hbuffer⟩ := hsuits.move hmove
    exact .move Hw hcb hpoints hrange hbuffer hmove
  by_cases huserattrs : tagType3 tag = fromUserattrs
  · obtain ⟨attrs, hbuffer, hle⟩ := hsuits.userattrs huserattrs
    exact .list Hw hcb hpoints hrange hbuffer hle huserattrs hid 1
  · exact .direct Hw hcb hpoints hrange (not_or.mpr ⟨hmove, huserattrs⟩) 1

end

/-! ## A call -/

/-- **The loop makes the calls of `dirTraverse`**, and returns 0. -/
theorem TraverseCall.traverses {call : TraverseCall} {log : List LogEntry} {attrs : List Attr}
    (data : σ) (Hw : w.Records bytes f)
    (hlog : w.LogAt bytes call.dir call.offset call.ptag log)
    (hattrs : w.AttrsAt bytes call.attrs attrs)
    (hdiff : ∀ id : Nat, (call.use = .compact → call.begin ≤ id) → 0 ≤ id + call.diff)
    (hsuits : call.use = .compact → ∀ a ∈ attrs, Suits a.tag a.buffer)
    (hpassed : ∀ t ∈ passed call.use.tmask call.use.ttag (log.map LogEntry.read ++ attrs),
      Suits t.1 t.2) :
    ∃ n, (call.after w data n).control = .returned 0 ∧
      (call.after w data n).data = (dirTraverse log attrs call.use.tmask call.use.ttag call.begin
        call.stop call.diff).foldl f data := by
  have hid : tagId call.use.tmask ≠ 0 ↔ call.use = .compact := by
    cases call.use <;> decide
  have hholds : (call.start data).level.Holds w bytes (log.map LogEntry.read ++ attrs) :=
    ⟨log, attrs, rfl, hlog, hattrs⟩
  obtain ⟨l', hpass⟩ := hholds.leads (P := Suits) [] data (traverseTag 1 call.diff)
    (fun huse a ha => by
      rcases List.mem_append.mp ha with ha | ha
      · obtain ⟨e, -, rfl⟩ := List.mem_map.mp ha
        exact .of_not_isFrom e.not_isFrom
      · exact hsuits (hid.mp huse) a ha)
    hpassed fun offset ptag attrs tag _ _ _ hpoints hP hrange =>
      Traverser.Leads.suited (l := { (call.start data).level with offset, ptag, attrs }) Hw rfl
        hpoints hrange hP (hdiff (tagId tag) fun huse => (hrange (hid.mpr huse)).1)
  obtain ⟨n, hn⟩ := Traverser.Leads.iterate (hpass.tail rfl)
  refine ⟨n, ?_⟩
  rw [TraverseCall.after]
  exact ⟨congrArg Traverser.control hn, congrArg Traverser.data hn⟩

/-- The struct of another directory is moved to the place of a new entry. The create has moved the
old one out of the range. -/
example :
    let e : LogEntry := ⟨mkTag typeInlinestruct 0 0, []⟩
    let w : TraverseWorld (List LogEntry) :=
      { read := fun _ offset => if offset = 4 then .ok (~~~ e.tag) else .error errCorrupt
        dirAt := fun _ => ⟨1, 8⟩
        userattrAt := fun _ _ => ⟨0, 0, 0⟩
        cb := fun tag _ data => (0, data ++ [⟨tag, []⟩]) }
    let call : TraverseCall :=
      { dir := ⟨0, 8⟩, offset := 0, ptag := 0xffffffff#32
        attrs := [⟨mkTag typeCreate 0 0, 0⟩, ⟨mkTag fromMove 0 0, 0⟩]
        use := .compact, begin := 0, stop := 1, diff := 0 }
    ∃ n, (call.after w [] n).control = .returned 0 ∧
      (call.after w [] n).data = [⟨e.read.tag, []⟩] := by
  intro e w call
  have hlog : ∀ block, w.LogAt (fun _ => []) ⟨block, 8⟩ 0 0xffffffff#32 [e] := fun block =>
    ⟨(by decide : 4 < 8), ⟨_, rfl, by decide⟩, rfl, (by decide : 8 ≤ 4 + tagDsize e.read.tag)⟩
  have hattrs : w.AttrsAt (fun _ => []) call.attrs
      [⟨mkTag typeCreate 0 0, .null⟩, ⟨mkTag fromMove 0 0, .dir [e]⟩] :=
    .cons ⟨rfl, rfl, fun _ h => (by cases h), fun _ h => (by cases h)⟩
      (.cons ⟨rfl, rfl, fun _ h => (by cases h; exact hlog 1), fun _ h => (by cases h)⟩ .nil)
  have hcreate : Suits (mkTag typeCreate 0 0) .null := .of_not_isFrom (by decide)
  have hmove : Suits (mkTag fromMove 0 0) (.dir [e]) :=
    ⟨fun _ => ⟨_, rfl⟩, fun h => absurd h (by decide)⟩
  have hpassed : passed (mkTag typeSplice 0x3ff 0) (mkTag typeName 0 0)
      [e.read, ⟨mkTag typeCreate 0 0, .null⟩, ⟨mkTag fromMove 0 0, .dir [e]⟩] =
      [(e.read.tag + idShift 1, .data []), (mkTag fromMove 0 0, .dir [e])] := by decide +kernel
  obtain ⟨n, hreturns, hdata⟩ := TraverseCall.traverses (f := fun data e => data ++ [e]) []
    (fun _ _ _ => rfl) (hlog 0) hattrs (fun id _ => Int.natCast_nonneg id)
    (fun _ => List.forall_mem_cons.mpr ⟨hcreate, List.forall_mem_singleton.mpr hmove⟩)
    (hpassed.symm ▸ List.forall_mem_cons.mpr ⟨.of_not_isFrom (by decide),
      List.forall_mem_singleton.mpr hmove⟩)
  exact ⟨n, hreturns, hdata.trans (by decide +kernel)⟩

/-! ## The callers -/

theorem passed_eq_scans (items : List Attr) :
    passed (mkTag typeSplice 0x3ff 0) (mkTag typeName 0 0) items = scans typeName items := by
  have hid : tagId (mkTag typeSplice 0x3ff 0) ≠ 0 := by decide
  induction items with
  | nil => rfl
  | cons a rest ih =>
    rw [passed, scans]
    rw [ih, if_pos hid]
    by_cases hty : typeName ≤ tagTy a.tag ∧ tagTy a.tag < typeSplice
    · rw [if_pos hty, if_neg (not_not.mpr ((passes_splice a.tag).mpr hty))]
    · rw [if_neg hty, if_pos (mt (passes_splice a.tag).mp hty)]

theorem mem_of_mem_passed_zero {t : Tag × Buffer} (h : t ∈ passed 0#32 0#32 items) :
    ∃ a ∈ items, t = (a.tag, a.buffer) := by
  have hid : tagId 0#32 = 0 := by decide
  induction items with
  | nil => cases h
  | cons a rest ih =>
    rw [passed, BitVec.and_zero, BitVec.zero_and, BitVec.zero_and, if_neg (not_not.mpr rfl), hid,
      if_neg (not_not.mpr rfl)] at h
    rcases List.mem_cons.mp h with rfl | h
    · exact ⟨a, .head _, rfl⟩
    · obtain ⟨a', ha', ht⟩ := ih h
      exact ⟨a', .tail _ ha', ht⟩

theorem ItemKind.suits {u : Attr} (H : ItemKind u count count') : Suits u.tag u.buffer := by
  cases H with
  | noop htype =>
    refine .of_not_isFrom ?_
    rw [IsFrom, htype]
    decide
  | move htype hbuffer =>
    exact ⟨fun _ => ⟨_, hbuffer⟩, fun h => absurd (htype.symm.trans h) (by decide)⟩
  | userattrs htype hbuffer _ hlength =>
    exact ⟨fun h => absurd (htype.symm.trans h) (by decide),
      fun _ => ⟨_, hbuffer, Nat.le_of_eq hlength.symm⟩⟩
  | direct hfrom => exact .of_not_isFrom hfrom

theorem Counts.suits {first count : Nat} (H : Counts first items count) :
    ∀ a ∈ items, Suits a.tag a.buffer := by
  induction H with
  | nil => exact fun a ha => absurd ha List.not_mem_nil
  | snoc _ hk ih =>
    intro a ha
    rcases List.mem_append.mp ha with ha | ha
    · exact ih a ha
    · obtain rfl := List.mem_singleton.mp ha
      exact hk.suits

theorem FromOk.suits {t : Tag × Buffer} (H : FromOk t) : Suits t.1 t.2 := by
  rcases H with ⟨htype, log, hbuffer, -⟩ | ⟨htype, attrs, hbuffer, hlength, -⟩
  · exact ⟨fun _ => ⟨log, hbuffer⟩, fun h => absurd (htype.symm.trans h) (by decide)⟩
  · exact ⟨fun h => absurd (htype.symm.trans h) (by decide),
      fun _ => ⟨attrs, hbuffer, Nat.le_of_eq hlength.symm⟩⟩

theorem Tracks.suits {ts : List (Tag × Buffer)} {P : List (Nat × KeyedLog.Patch Nat EntryValue)}
    {moved : Prop} (H : Tracks lowest moved count ts P) : ∀ t ∈ ts, Suits t.1 t.2 := by
  induction H with
  | nil => exact fun t ht => absurd ht List.not_mem_nil
  | noop hnoop _ ih =>
    refine List.forall_mem_cons.mpr ⟨.of_not_isFrom ?_, ih⟩
    rw [IsFrom, hnoop.type3]
    decide
  | @live t _ _ _ hlive _ ih =>
    refine List.forall_mem_cons.mpr ⟨?_, ih⟩
    by_cases hkind : tagTy t.1 / 0x100 = 1
    · exact (hlive.kind hkind).2.suits
    · refine .of_not_isFrom fun hfrom => hkind ?_
      have hty := hfrom.ty
      rw [fromMove, fromUserattrs] at hty
      omega

section

variable {call : TraverseCall} {log : List LogEntry} {attrs : List Attr}
  (Hw : w.Records bytes f) (hattrs : w.AttrsAt bytes call.attrs attrs)

include Hw hattrs

/-- **What a compaction writes** and measures is what the loop calls back with. -/
theorem WellFormed.compacts (H : WellFormed log attrs) (hmiss : NoMissedSplice typeName log)
    (hlog : w.LogAt bytes call.dir call.offset call.ptag log) (huse : call.use = .compact)
    (hdiff : call.diff = -call.begin) :
    ∃ n, (call.after w data n).control = .returned 0 ∧ (call.after w data n).data =
      (compactTags log attrs call.begin call.stop).foldl f data := by
  obtain ⟨count, hcount⟩ := Option.isSome_iff_exists.mp H.count
  have hcounts := counts_of_foldlM hcount
  obtain ⟨P, -, htracks, -⟩ :=
    tracks_of_counts hcounts (by decide) H.attrs_valid H.removals hmiss
  have hrun := TraverseCall.traverses data Hw hlog hattrs
    (fun id hid => by
      have := hid huse
      omega)
    (fun _ a ha => hcounts.suits a (List.mem_append_right _ ha))
    (by rw [huse]; exact passed_eq_scans _ ▸ htracks.suits)
  rwa [huse, hdiff] at hrun

/-- **What a commit appends** is what the loop calls back with, from the end of the log on. -/
theorem TraverseCall.appends (hsuits : ∀ a ∈ attrs, Suits a.tag a.buffer)
    (hlog : w.LogAt bytes call.dir call.offset call.ptag []) (huse : call.use = .commit)
    (hdiff : call.diff = 0) :
    ∃ n, (call.after w data n).control = .returned 0 ∧ (call.after w data n).data =
      (dirTraverse [] attrs 0#32 0#32 call.begin call.stop 0).foldl f data := by
  have hrun := TraverseCall.traverses data Hw hlog hattrs
    (fun id _ => by omega) (fun _ => hsuits) (by
      rw [huse]
      intro t ht
      obtain ⟨a, ha, rfl⟩ := mem_of_mem_passed_zero ht
      exact hsuits a ha)
  rwa [huse, hdiff] at hrun

end

end LittleFs
