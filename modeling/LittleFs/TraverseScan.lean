import LittleFs.TraverseFilter

/-! The traversal of a well-formed log with its filter: what the scan behind each tag leaves of it
are the patches that compaction of a keyed log leaves, when no tag is carried past a create or
delete on disk that should have moved its id. -/

namespace LittleFs

open KeyedLog (Op Filtered Droppable)

/-! ## Well-formed logs and attribute lists -/

/-- The number of entries after a tag, `none` when the tag does not fit the directory. A name may
stand for an entry that a compaction wrote without a create tag. -/
def tagCount (tag : Tag) (count : Nat) : Option Nat :=
  if tagTy tag = typeCreate then
    if tagId tag ≤ count ∧ count + 1 < 0x3ff then some (count + 1) else none
  else if tagTy tag = typeDelete then
    if tagId tag < count then some (count - 1) else none
  else if tagTy tag < typeFrom then
    if tagId tag + 1 < 0x3ff then some (max count (tagId tag + 1)) else none
  else if typeStruct ≤ tagTy tag ∧ tagTy tag < typeSplice then
    if tagId tag < count then some count else none
  else if typeCrc ≤ tagTy tag then some count
  else none

/-- The log ends with the CRC tag of its last commit. -/
def Committed (log : List LogEntry) : Prop :=
  ∀ e ∈ log.getLast?, tagTy e.tag / 0x100 * 0x100 = typeCrc

instance (log : List LogEntry) : Decidable (Committed log) :=
  inferInstanceAs (Decidable (∀ e ∈ log.getLast?, tagTy e.tag / 0x100 * 0x100 = typeCrc))

/-- The number of entries of a directory with this log. -/
def logCount (log : List LogEntry) : Option Nat :=
  log.foldlM (fun count e => if tagIsValid e.tag then tagCount e.tag count else none) 0

/-- The log fits a directory that some number of entries is assumed of before it. -/
def Counted (log : List LogEntry) : Prop :=
  ∃ count < 0x3ff, (log.foldlM (fun count e =>
    if tagIsValid e.tag then tagCount e.tag count else none) count).isSome

theorem counted_of_logCount (h : (logCount log).isSome) : Counted log :=
  ⟨0, by decide, h⟩

/-- `tagCount` for an entry read from disk or a pending attribute. -/
def Attr.count (a : Attr) (count : Nat) : Option Nat :=
  if tagIsValid a.tag = false then tagCount a.tag count
  else if tagType3 a.tag = fromNoop then
    if tagId a.tag ≤ count then some count else none
  else if tagType3 a.tag = fromMove then
    match a.buffer with
    | .dir log =>
      if tagId a.tag < count ∧ tagSize a.tag < 0x3ff ∧ (logCount log).isSome ∧ Committed log then
        some count
      else none
    | _ => none
  else if tagType3 a.tag = fromUserattrs then
    match a.buffer with
    | .userattrs attrs =>
      if tagId a.tag < count ∧ attrs.length = tagSize a.tag ∧ tagSize a.tag < 0x3ff ∧
          ∀ attr ∈ attrs, attr.buffer.length < 0x3ff then
        some count
      else none
    | _ => none
  else tagCount a.tag count

def IsFrom (tag : Tag) : Prop := tagType3 tag = fromMove ∨ tagType3 tag = fromUserattrs

instance (tag : Tag) : Decidable (IsFrom tag) := inferInstanceAs (Decidable (_ ∨ _))

/-- The number of entries after a log and the attributes pending on it. -/
def countWith (log : List LogEntry) (attrs : List Attr) : Option Nat :=
  (log.map LogEntry.read ++ attrs).foldlM (fun count a => a.count count) 0

/-- What every caller provides: a log of valid tags, attributes that fit it, and no removal of a
user attribute behind a list of them. -/
structure WellFormed (log : List LogEntry) (attrs : List Attr) : Prop where
  log_valid : ∀ e ∈ log, tagIsValid e.tag = true
  attrs_valid : ∀ a ∈ attrs, tagIsValid a.tag = true
  count : (countWith log attrs).isSome
  removals : attrs.Pairwise fun a b => IsFrom a.tag → tagSize b.tag ≠ 0x3ff

/-! ## Tags carried past splices on disk -/

/-- The scan of the tags behind `tag` comes to a create or delete that should move its id, before
the tag is superseded. -/
def missesSplice (tag : Tag) : List LogEntry → Bool
  | [] => false
  | e :: rest =>
    if Supersedes e.tag tag then false
    else tagTy e.tag / 0x100 * 0x100 == typeSplice && tagId e.tag ≤ tagId tag || missesSplice tag
      rest

/-- No tag of a type from `lowest` up to the splices is carried past a splice of the log. -/
def NoMissedSplice (lowest : Nat) : List LogEntry → Prop
  | [] => True
  | e :: rest =>
    (lowest ≤ tagTy e.tag ∧ tagTy e.tag < typeSplice → missesSplice e.tag rest = false) ∧
      NoMissedSplice lowest rest

instance NoMissedSplice.decidable (lowest : Nat) :
    (log : List LogEntry) → Decidable (NoMissedSplice lowest log)
  | [] => .isTrue trivial
  | _ :: rest =>
    have := NoMissedSplice.decidable lowest rest
    inferInstanceAs (Decidable (_ ∧ _))

/-! ## The traversal as scans -/

/-- The tags of the types from `lowest` up to the splices, each as the filter leaves it. -/
def scans (lowest : Nat) : List Attr → List (Tag × Buffer)
  | [] => []
  | a :: rest =>
    if lowest ≤ tagTy a.tag ∧ tagTy a.tag < typeSplice then
      (filterScan rest a.tag, a.buffer) :: scans lowest rest
    else scans lowest rest

/-- What is written for the scanned tags of a range. -/
def emitted (begin stop : Nat) (cb : Tag → Buffer → List LogEntry) (ts : List (Tag × Buffer)) :
    List LogEntry :=
  (ts.filter fun t => begin ≤ tagId t.1 ∧ tagId t.1 < stop).flatMap fun t => cb t.1 t.2

theorem traverseLoop_eq {tmask ttag : Tag} {cb : Tag → Buffer → List LogEntry}
    (hid : tagId tmask ≠ 0)
    (hpass : ∀ tag : Tag, mkTag typeMovestate 0 0 &&& tmask &&& tag =
      mkTag typeMovestate 0 0 &&& tmask &&& ttag ↔ lowest ≤ tagTy tag ∧ tagTy tag < typeSplice)
    (items : List Attr) :
    traverseLoop tmask ttag begin stop cb items = emitted begin stop cb (scans lowest items) := by
  induction items with
  | nil => rfl
  | cons a rest ih =>
    simp only [emitted] at ih ⊢
    simp only [traverseLoop, scans, ne_eq, hpass, ih, hid, not_false_eq_true, if_true, true_and]
    by_cases hty : lowest ≤ tagTy a.tag ∧ tagTy a.tag < typeSplice
    · simp only [hty, not_true_eq_false, ↓reduceIte, and_self, List.filter_cons]
      by_cases hrange : begin ≤ tagId (filterScan rest a.tag) ∧ tagId (filterScan rest a.tag) < stop
      · simp only [ge_iff_le, hrange, and_self, not_true_eq_false, ↓reduceIte, decide_true,
          List.flatMap_cons]
      · simp only [ge_iff_le, hrange, not_false_eq_true, ↓reduceIte, decide_false,
          Bool.false_eq_true]
    · simp only [hty, not_false_eq_true, ↓reduceIte]

/-- One more item after the scanned ones. -/
def filterStep (u : Attr) (filtertag : Tag) : Tag := filterScan [u] filtertag

theorem filterScan_append_singleton (items : List Attr) (u : Attr) (filtertag : Tag) :
    filterScan (items ++ [u]) filtertag = filterStep u (filterScan items filtertag) ∨
    filterScan items filtertag = 0#32 ∧ filterScan (items ++ [u]) filtertag = 0#32 := by
  induction items generalizing filtertag with
  | nil => exact .inl rfl
  | cons a rest ih =>
    simp only [List.cons_append, filterScan]
    split
    · exact ih _
    · split
      · exact ih _
      · split
        · split
          · exact ih _
          · exact ih _
        · rw [dirTraverseFilter_eq]
          split
          · exact .inr ⟨rfl, rfl⟩
          · split <;> exact ih _

/-- The same tag before and after one more item. -/
def Stepped (u : Attr) (t t' : Tag × Buffer) : Prop :=
  t'.2 = t.2 ∧ (t'.1 = filterStep u t.1 ∨ t.1 = 0#32 ∧ t'.1 = 0#32)

theorem scans_append_singleton (lowest : Nat) (items : List Attr) (u : Attr) :
    ∃ ts, List.Forall₂ (Stepped u) (scans lowest items) ts ∧
      scans lowest (items ++ [u]) = ts ++
        if lowest ≤ tagTy u.tag ∧ tagTy u.tag < typeSplice then [(u.tag, u.buffer)] else [] := by
  induction items with
  | nil =>
    refine ⟨[], .nil, ?_⟩
    simp only [List.nil_append, scans, filterScan]
  | cons a rest ih =>
    obtain ⟨ts, hts, happend⟩ := ih
    simp only [List.cons_append, scans]
    split
    · refine ⟨(filterScan (rest ++ [u]) a.tag, a.buffer) :: ts,
        .cons ⟨rfl, filterScan_append_singleton rest u a.tag⟩ hts, ?_⟩
      rw [happend, List.cons_append]
    · exact ⟨ts, hts, happend⟩

/-! ## Scanned tags as patches -/

/-- A dropped tag. Its id still takes part in later shifts. -/
structure NoopTag (count : Nat) (tag : Tag) : Prop where
  valid : tagIsValid tag = true
  ty : tagTy tag = 0
  le : tagId tag ≤ count

/-- The buffers that go with the `LFS_FROM_` types. -/
def FromOk (t : Tag × Buffer) : Prop :=
  (tagType3 t.1 = fromMove ∧ ∃ log, t.2 = .dir log ∧ tagSize t.1 < 0x3ff ∧
    Counted log ∧ Committed log) ∨
  (tagType3 t.1 = fromUserattrs ∧ ∃ attrs, t.2 = .userattrs attrs ∧
    attrs.length = tagSize t.1 ∧ tagSize t.1 < 0x3ff ∧ ∀ a ∈ attrs, a.buffer.length < 0x3ff)

/-- A tag that was not dropped, as the patch it carries. `moved` says that the items so far hold
an `LFS_FROM_MOVE` or `LFS_FROM_USERATTRS`. -/
structure LiveTag (lowest : Nat) (moved : Prop) (count : Nat) (t : Tag × Buffer)
    (p : Nat × KeyedLog.Patch Nat EntryValue) : Prop where
  id : tagId t.1 = p.1
  lt : tagId t.1 < count
  patch : p.2 = attrPatch t.1 t.2
  lowest_le : lowest ≤ tagTy t.1
  ty : tagTy t.1 < typeSplice
  ne_noop : tagType3 t.1 ≠ fromNoop
  kind : tagTy t.1 / 0x100 = 1 → moved ∧ FromOk t

/-- The scanned tags and the patches that are left of them. -/
inductive Tracks (lowest : Nat) (moved : Prop) (count : Nat) :
    List (Tag × Buffer) → List (Nat × KeyedLog.Patch Nat EntryValue) → Prop where
  | nil : Tracks lowest moved count [] []
  | noop : NoopTag count t.1 → Tracks lowest moved count ts P →
      Tracks lowest moved count (t :: ts) P
  | live : LiveTag lowest moved count t p → Tracks lowest moved count ts P →
      Tracks lowest moved count (t :: ts) (p :: P)

theorem noopTag_zero (count : Nat) : NoopTag count 0#32 :=
  ⟨by decide, by decide, Nat.zero_le _⟩

theorem NoopTag.type3 (H : NoopTag count tag) : tagType3 tag = fromNoop := by
  rw [tagType3_of_valid H.valid, H.ty, fromNoop]

theorem tagPatch_congr (H : SameButId tag tag') (data : List UInt8) :
    tagPatch tag' data = tagPatch tag data := by
  funext k
  simp only [tagPatch, H.size, H.ty]

theorem attrPatch_congr (H : SameButId tag tag') (buffer : Buffer) :
    attrPatch tag' buffer = attrPatch tag buffer := by
  simp only [attrPatch, H.tagType3, H.size, tagPatch_congr H]

theorem fromOk_congr (H : SameButId tag tag') (buffer : Buffer) :
    FromOk (tag', buffer) ↔ FromOk (tag, buffer) := by
  simp only [FromOk, H.tagType3, H.size]

theorem FromOk.size (H : FromOk t) : tagSize t.1 ≠ 0x3ff := by
  rcases H with ⟨_, _, _, hsize, _⟩ | ⟨_, _, _, _, hsize, _⟩ <;> exact Nat.ne_of_lt hsize

/-- The tag after its id has moved. -/
theorem LiveTag.shift (H : LiveTag lowest moved count (tag, buffer) p) (hsame : SameButId tag tag')
    (hid : tagId tag' = j) (hlt : j < count') :
    LiveTag lowest moved count' (tag', buffer) (j, p.2) where
  id := hid
  lt := hid ▸ hlt
  patch := H.patch.trans (attrPatch_congr hsame buffer).symm
  lowest_le := hsame.ty ▸ H.lowest_le
  ty := hsame.ty ▸ H.ty
  ne_noop := hsame.tagType3 ▸ H.ne_noop
  kind hty := by
    obtain ⟨hfrom, hok⟩ := H.kind (hsame.ty ▸ hty)
    exact ⟨hfrom, (fromOk_congr hsame buffer).mpr hok⟩

theorem LiveTag.mono (H : LiveTag lowest moved count t p) (hle : count ≤ count')
    (hfrom : moved → moved') :
    LiveTag lowest moved' count' t p :=
  { H with
    lt := H.lt.trans_le hle
    kind := fun hty => (H.kind hty).imp_left hfrom }

/-- A tag that is not an `LFS_FROM_` patches one key. -/
theorem LiveTag.direct (H : LiveTag lowest moved count t p) (hfrom : ¬ IsFrom t.1) :
    p.2 = tagPatch t.1 t.2.bytes := by
  rw [IsFrom, not_or] at hfrom
  simp only [H.patch, attrPatch, hfrom.1, hfrom.2, ↓reduceIte]

/-- `LFS_FROM_` tags have their own types. -/
theorem IsFrom.ty (h : IsFrom tag) : tagTy tag = fromMove ∨ tagTy tag = fromUserattrs := by
  cases hv : tagIsValid tag with
  | true => simpa only [IsFrom, tagType3_of_valid hv] using h
  | false =>
    have hty := tagType3_of_invalid hv
    rw [IsFrom, fromMove, fromUserattrs] at h
    omega

theorem IsFrom.valid (h : IsFrom tag) : tagIsValid tag = true := by
  cases hv : tagIsValid tag with
  | true => rfl
  | false =>
    have hty := tagType3_of_invalid hv
    rw [IsFrom, fromMove, fromUserattrs] at h
    omega

theorem tagPatch_ne_none (h : tagPatch tag data k ≠ none) : k = typeKey (tagTy tag) := by
  unfold tagPatch at h
  split at h
  · assumption
  · exact absurd rfl h

/-- A live tag that its successor supersedes by its size is a removal. -/
theorem LiveTag.removal (H : LiveTag lowest moved count t p) (hsize : tagSize t.1 = 0x3ff) (k : Nat)
    (v : EntryValue) : p.2 k ≠ some (some v) := by
  have hfrom : ¬ IsFrom t.1 := by
    intro hf
    have hty := hf.ty
    exact (H.kind (by rw [fromMove, fromUserattrs] at hty; omega)).2.size hsize
  rw [H.direct hfrom, tagPatch, if_pos hsize]
  split <;> simp

/-- A direct tag of the same key and id covers a live one. -/
theorem LiveTag.covered (H : LiveTag lowest moved count t p) (hty : tagTy tag / 0x100 ≠ 1)
    (hkey : typeKey (tagTy tag) = typeKey (tagTy t.1)) (hk : p.2 k ≠ none) :
    k = typeKey (tagTy tag) := by
  have hfrom : ¬ IsFrom t.1 := by
    intro hf
    have hf := hf.ty
    rw [fromMove, fromUserattrs] at hf
    rw [typeKey_eq_iff] at hkey
    split at hkey <;> omega
  rw [H.direct hfrom] at hk
  rw [hkey]
  exact tagPatch_ne_none hk

/-! ## The cases of the filter on a well-formed log -/

/-- The cases of `tagCount`. -/
inductive TagKind (tag : Tag) (count : Nat) : Nat → Prop where
  | create (hty : tagTy tag = typeCreate) (hid : tagId tag ≤ count) :
      TagKind tag count (count + 1)
  | delete (hty : tagTy tag = typeDelete) (hid : tagId tag < count) :
      TagKind tag count (count - 1)
  | name (hty : tagTy tag < typeFrom) : TagKind tag count (max count (tagId tag + 1))
  | value (hlo : typeStruct ≤ tagTy tag) (hty : tagTy tag < typeSplice) (hid : tagId tag < count) :
      TagKind tag count count
  | other (hty : typeCrc ≤ tagTy tag) : TagKind tag count count

theorem tagCount_kind (h : tagCount tag count = some count') : TagKind tag count count' := by
  unfold tagCount at h
  split at h
  · obtain ⟨⟨hid, _⟩, rfl⟩ := Option.ite_none_right_eq_some.mp h |>.imp_right Option.some.inj
    exact .create ‹_› hid
  · split at h
    · obtain ⟨hid, rfl⟩ := Option.ite_none_right_eq_some.mp h |>.imp_right Option.some.inj
      exact .delete ‹_› hid
    · split at h
      · obtain ⟨_, rfl⟩ := Option.ite_none_right_eq_some.mp h |>.imp_right Option.some.inj
        exact .name ‹_›
      · split at h
        · obtain ⟨hid, rfl⟩ := Option.ite_none_right_eq_some.mp h |>.imp_right Option.some.inj
          exact .value (‹_ ∧ _›).1 (‹_ ∧ _›).2 hid
        · obtain ⟨hty, rfl⟩ := Option.ite_none_right_eq_some.mp h |>.imp_right Option.some.inj
          exact .other hty

theorem tagCount_lt (h : tagCount tag count = some count') (hcount : count < 0x3ff) :
    count' < 0x3ff := by
  unfold tagCount at h
  grind

theorem logCount_append_singleton (log : List LogEntry) (e : LogEntry) (count' : Nat) :
    logCount (log ++ [e]) = some count' ↔
      ∃ count, logCount log = some count ∧ tagIsValid e.tag = true ∧
        tagCount e.tag count = some count' := by
  rw [logCount, List.foldlM_append, Option.bind_eq_bind, Option.bind_eq_some_iff]
  simp only [List.foldlM_cons, List.foldlM_nil, Option.pure_def, Option.bind_eq_bind,
    Option.bind_fun_some, Option.ite_none_right_eq_some, logCount]

theorem logCount_lt (h : logCount log = some count) : count < 0x3ff := by
  induction log using List.reverseRecOn generalizing count with
  | nil =>
    cases h
    decide
  | append_singleton log e ih =>
    obtain ⟨_, hlog, _, he⟩ := (logCount_append_singleton log e count).mp h
    exact tagCount_lt he (ih hlog)

theorem TagKind.ty_ne (H : TagKind tag count count') : tagTy tag / 0x100 ≠ 1 := by
  cases H <;> simp only [typeCreate, typeDelete, typeFrom, typeStruct, typeCrc] at * <;> omega

theorem TagKind.splice (H : TagKind tag count count') (h : tagTy tag / 2 ^ 8 = 4) :
    tagTy tag = typeCreate ∧ tagId tag ≤ count ∧ count' = count + 1 ∨
    tagTy tag = typeDelete ∧ tagId tag < count ∧ count' = count - 1 := by
  cases H with
  | create hty hid => exact .inl ⟨hty, hid, rfl⟩
  | delete hty hid => exact .inr ⟨hty, hid, rfl⟩
  | name hty => simp only [typeFrom] at hty; omega
  | value hlo hty => simp only [typeSplice] at hty; omega
  | other hty => simp only [typeCrc] at hty; omega

theorem TagKind.le_of_not_splice (H : TagKind tag count count') (h : tagTy tag / 2 ^ 8 ≠ 4) :
    count ≤ count' := by
  cases H with
  | create hty => simp only [typeCreate] at hty; omega
  | delete hty => simp only [typeDelete] at hty; omega
  | name => exact Nat.le_max_left ..
  | value => exact Nat.le_refl _
  | other => exact Nat.le_refl _

theorem tagOp_create (h : tagTy tag = typeCreate) (data : List UInt8) :
    tagOp tag data = .create (tagId tag) := by
  rw [tagOp, if_pos h]

theorem tagOp_delete (h : tagTy tag = typeDelete) (data : List UInt8) :
    tagOp tag data = .delete (tagId tag) := by
  rw [tagOp, if_neg (by rw [h]; decide), if_pos h]

theorem tagOp_move (h : tagTy tag / 2 ^ 8 ≠ 4) (data : List UInt8) (i : Nat) :
    (tagOp tag data).move i = some i := by
  have hc : tagTy tag ≠ typeCreate := by simp only [typeCreate]; omega
  have hd : tagTy tag ≠ typeDelete := by simp only [typeDelete]; omega
  rw [tagOp, if_neg hc, if_neg hd]
  split <;> rfl

/-- The filter leaves a tag with moved id alone otherwise. -/
structure Carried (tag filtertag : Tag) (data : List UInt8) (count count' : Nat) : Prop where
  same : SameButId filtertag (dirTraverseFilter tag filtertag).1
  le : tagId (dirTraverseFilter tag filtertag).1 ≤ count'
  lt : tagId filtertag < count → tagId (dirTraverseFilter tag filtertag).1 < count'
  move : (tagOp tag data).move (tagId filtertag) = some (tagId (dirTraverseFilter tag filtertag).1)

theorem dirTraverseFilter_of_le (h : ¬ Supersedes tag filtertag)
    (hvalid : tagIsValid tag = true) (hty : tagTy tag / 2 ^ 8 = 4)
    (hid : tagId tag ≤ tagId filtertag) :
    (dirTraverseFilter tag filtertag).1 = filtertag + idShift (tagSplice tag) := by
  rw [dirTraverseFilter_of_mem hvalid h, if_pos ⟨hty, hid⟩]

theorem dirTraverseFilter_of_not_le (h : ¬ Supersedes tag filtertag)
    (hid : ¬ (tagTy tag / 2 ^ 8 = 4 ∧ tagId tag ≤ tagId filtertag)) :
    (dirTraverseFilter tag filtertag).1 = filtertag := by
  cases hvalid : tagIsValid tag with
  | true => rw [dirTraverseFilter_of_mem hvalid h, if_neg hid]
  | false => rw [dirTraverseFilter_of_disk hvalid h]

/-- An item on disk does not miss the tag: it is no splice, or the tag is dropped already, is
superseded by it or has a smaller id. -/
def NotMissed (tag filtertag : Tag) : Prop :=
  tagIsValid tag = false → tagTy tag / 2 ^ 8 = 4 →
    filtertag = 0#32 ∨ Supersedes tag filtertag ∨ tagId filtertag < tagId tag

/-- Where the filter takes a tag that is not superseded, if it does not miss a splice. -/
theorem TagKind.carried (H : TagKind tag count count') (hcount : count' < 0x3ff)
    (hle : tagId filtertag ≤ count) (hn : ¬ Supersedes tag filtertag) (data : List UInt8)
    (hhit : tagIsValid tag = false → tagTy tag / 2 ^ 8 = 4 → tagId filtertag < tagId tag) :
    Carried tag filtertag data count count' := by
  by_cases hsplice : tagTy tag / 2 ^ 8 = 4 ∧ tagId tag ≤ tagId filtertag
  · have hvalid : tagIsValid tag = true := by
      rw [← Bool.not_eq_false]
      intro hv
      have := hhit hv hsplice.1
      omega
    have hfilter := dirTraverseFilter_of_le hn hvalid hsplice.1 hsplice.2
    rcases H.splice hsplice.1 with ⟨hty, _, rfl⟩ | ⟨hty, hlt, rfl⟩
    · rw [tagSplice_create hty] at hfilter
      have hid := tagId_add_idShift filtertag (d := 1) (by omega) (by omega)
      have hsame := sameButId_add_idShift filtertag (d := 1) (by omega) (by omega)
      rw [← hfilter] at hid hsame
      refine ⟨hsame, by omega, by omega, ?_⟩
      rw [tagOp_create hty, Op.move, if_pos hsplice.2, Option.some.injEq]
      omega
    · have hne : tagId tag ≠ tagId filtertag := fun heq => hn (.inr (.inr ⟨hty, heq⟩))
      rw [tagSplice_delete hty] at hfilter
      have hid := tagId_add_idShift filtertag (d := -1) (by omega) (by omega)
      have hsame := sameButId_add_idShift filtertag (d := -1) (by omega) (by omega)
      rw [← hfilter] at hid hsame
      refine ⟨hsame, by omega, by omega, ?_⟩
      rw [tagOp_delete hty, Op.move, if_neg hne.symm, if_pos (by omega), Option.some.injEq]
      omega
  · have hfilter := dirTraverseFilter_of_not_le hn hsplice
    refine ⟨by rw [hfilter]; exact .refl _, ?_, ?_, ?_⟩ <;> rw [hfilter]
    · by_cases hty : tagTy tag / 2 ^ 8 = 4
      · rcases H.splice hty with ⟨_, _, rfl⟩ | ⟨_, _, rfl⟩ <;> omega
      · exact hle.trans (H.le_of_not_splice hty)
    · intro hlt
      by_cases hty : tagTy tag / 2 ^ 8 = 4
      · rcases H.splice hty with ⟨_, _, rfl⟩ | ⟨_, _, rfl⟩ <;> omega
      · exact hlt.trans_le (H.le_of_not_splice hty)
    · by_cases hty : tagTy tag / 2 ^ 8 = 4
      · rcases H.splice hty with ⟨hc, _⟩ | ⟨hd, _⟩
        · rw [tagOp_create hc, Op.move, if_neg (by omega)]
        · rw [tagOp_delete hd, Op.move, if_neg (by omega), if_neg (by omega)]
      · exact tagOp_move hty data _

/-- The filter on a tag that is dropped already. -/
theorem NoopTag.filter (H : NoopTag count filtertag) (hk : TagKind tag count count')
    (hcount : count' < 0x3ff) (hhit : NotMissed tag filtertag) :
    NoopTag count' (dirTraverseFilter tag filtertag).1 := by
  by_cases hs : Supersedes tag filtertag
  · rw [dirTraverseFilter_of_supersedes hs]
    exact noopTag_zero count'
  · by_cases hzero : tagIsValid tag = false ∧ filtertag = 0#32
    · rw [dirTraverseFilter_of_disk hzero.1 hs, hzero.2]
      exact noopTag_zero count'
    · have hc := hk.carried hcount H.le hs [] fun hv hty =>
        ((hhit hv hty).resolve_left fun h => hzero ⟨hv, h⟩).resolve_left hs
      exact ⟨hc.same.valid.trans H.valid, hc.same.ty.trans H.ty, hc.le⟩

/-! ## One more item -/

/-- What becomes of a live tag. -/
inductive LiveTag.Next (lowest : Nat) (moved : Prop) (count' : Nat) (u : Op Nat EntryValue)
    (t' : Tag × Buffer) (p : Nat × KeyedLog.Patch Nat EntryValue) : Prop where
  | dropped (h : NoopTag count' t'.1) (hdrop : Droppable u p)
  | kept (hmove : u.move p.1 = some j) (h : LiveTag lowest moved count' t' (j, p.2))

theorem tagOp_writes (hty : tagTy tag < typeSplice) (hid : tagId tag = i)
    (hk : k = typeKey (tagTy tag)) (data : List UInt8) : (tagOp tag data).Writes i k := by
  have hc : tagTy tag ≠ typeCreate := by simp only [typeCreate, typeSplice] at *; omega
  have hd : tagTy tag ≠ typeDelete := by simp only [typeDelete, typeSplice] at *; omega
  rw [tagOp, if_neg hc, if_neg hd, if_pos hty]
  refine ⟨hid, ?_⟩
  rw [tagPatch, if_pos hk]
  simp

theorem lowest_le_of_key {lowest : Nat} (hlow : lowest % 0x100 = 0)
    (hkey : typeKey y = typeKey z) (h : lowest ≤ z) : lowest ≤ y := by
  rw [typeKey_eq_iff] at hkey
  split at hkey <;> omega

/-- The types below `lowest` that a traversal leaves out. -/
def Lowest (lowest : Nat) : Prop := lowest = typeName ∨ lowest = typeStruct

/-- `tagOp`, unless the tag is left out. -/
def tagOpFrom (lowest : Nat) (tag : Tag) (data : List UInt8) : Op Nat EntryValue :=
  if tagTy tag < lowest then .skip else tagOp tag data

/-- A superseded tag may go. -/
theorem LiveTag.droppable (H : LiveTag lowest moved count t p) (hk : TagKind tag count count')
    (hlow : Lowest lowest) (hs : Supersedes tag t.1) (data : List UInt8) :
    Droppable (tagOpFrom lowest tag data) p := by
  rcases hs with ⟨hid, hkey⟩ | hsize | ⟨hty, hid⟩
  · refine .covered fun k hne => ?_
    have hty : tagTy tag < typeSplice := by
      have := H.ty
      rw [typeKey_eq_iff] at hkey
      simp only [typeSplice] at *
      split at hkey <;> omega
    have hle : lowest ≤ tagTy tag :=
      lowest_le_of_key (by rcases hlow with rfl | rfl <;> rfl) hkey H.lowest_le
    rw [tagOpFrom, if_neg (Nat.not_lt.mpr hle)]
    exact tagOp_writes hty (hid.trans H.id) (H.covered hk.ty_ne hkey hne) data
  · exact .removal (H.removal hsize)
  · have hle : ¬ tagTy tag < lowest := by
      rcases hlow with rfl | rfl <;> rw [hty] <;> decide
    rw [tagOpFrom, if_neg hle, tagOp_delete hty]
    exact .deleted (if_pos (H.id.symm.trans hid.symm))

theorem tagOpFrom_move (hlow : Lowest lowest) (data : List UInt8) (i : Nat) :
    (tagOpFrom lowest tag data).move i = (tagOp tag data).move i := by
  rw [tagOpFrom]
  split
  · have hty : tagTy tag / 2 ^ 8 ≠ 4 := by
      rcases hlow with rfl | rfl <;> simp only [typeName, typeStruct] at * <;> omega
    rw [tagOp_move hty]
    rfl
  · rfl

theorem LiveTag.filter (H : LiveTag lowest moved count t p) (hk : TagKind tag count count')
    (hlow : Lowest lowest) (hcount : count' < 0x3ff) (hhit : NotMissed tag t.1)
    (data : List UInt8) :
    LiveTag.Next lowest moved count' (tagOpFrom lowest tag data)
      ((dirTraverseFilter tag t.1).1, t.2) p := by
  by_cases hs : Supersedes tag t.1
  · refine .dropped ?_ (H.droppable hk hlow hs data)
    rw [dirTraverseFilter_of_supersedes hs]
    exact noopTag_zero count'
  · have hzero : t.1 ≠ 0#32 := fun h => H.ne_noop (by rw [h]; rfl)
    have hc := hk.carried hcount H.lt.le hs data fun hv hty =>
      ((hhit hv hty).resolve_left hzero).resolve_left hs
    exact .kept ((tagOpFrom_move hlow data _).trans (H.id ▸ hc.move))
      (H.shift hc.same rfl (hc.lt H.lt))

/-! ## The attributes of an `LFS_FROM_USERATTRS` -/

theorem UserAttribute.tag_toNat {a : UserAttribute} (hi : i < 2 ^ 10)
    (hlen : a.buffer.length < 2 ^ 10) :
    (a.tag i).toNat = (typeUserattr + a.type.toNat) * 2 ^ 20 + i * 2 ^ 10 + a.buffer.length := by
  have htype : typeUserattr + a.type.toNat < 2 ^ 12 := by
    have := a.type.toNat_lt
    simp only [typeUserattr]
    omega
  exact mkTag_toNat htype hi hlen

/-- The fields of the tag of a user attribute. -/
theorem UserAttribute.tag_fields {a : UserAttribute} (hi : i < 2 ^ 10)
    (hlen : a.buffer.length < 2 ^ 10) :
    tagTy (a.tag i) = typeUserattr + a.type.toNat ∧ tagId (a.tag i) = i ∧
      tagSize (a.tag i) = a.buffer.length := by
  have htoNat := a.tag_toNat hi hlen
  have htype := a.type.toNat_lt
  simp only [typeUserattr] at *
  rw [tagTy, tagId_eq, tagSize_eq]
  omega

/-- The loop drops the tag or leaves it alone. -/
theorem filterUserattrs_eq {attrs : List UserAttribute} (hi : i < 2 ^ 10)
    (hlen : ∀ a ∈ attrs, a.buffer.length < 0x3ff) (filtertag : Tag) :
    filterUserattrs i attrs filtertag = filtertag ∨
    filterUserattrs i attrs filtertag = 0#32 ∧
      ∃ a ∈ attrs, Supersedes (a.tag i) filtertag := by
  induction attrs with
  | nil => exact .inl rfl
  | cons a attrs ih =>
    obtain ⟨ha, hattrs⟩ := List.forall_mem_cons.mp hlen
    rw [filterUserattrs]
    by_cases hs : Supersedes (a.tag i) filtertag
    · rw [dirTraverseFilter_of_supersedes hs]
      exact .inr ⟨rfl, a, .head _, hs⟩
    · have htoNat := a.tag_toNat hi (by omega)
      have htype := a.type.toNat_lt
      have hne : ¬ (tagType1 (a.tag i) = typeSplice ∧ tagId (a.tag i) ≤ tagId filtertag) := by
        rw [tagType1_eq]
        simp only [typeUserattr, typeSplice] at *
        omega
      rw [dirTraverseFilter_eq, if_neg hs, if_neg hne]
      rcases ih hattrs with h | ⟨h, b, hb, hsup⟩
      · exact .inl h
      · exact .inr ⟨h, b, .tail _ hb, hsup⟩

/-! ## A step over any item -/

/-- The cases of `Attr.count`. -/
inductive ItemKind (u : Attr) (count : Nat) : Nat → Prop where
  | noop (htype : tagType3 u.tag = fromNoop) (hvalid : tagIsValid u.tag = true)
      (hid : tagId u.tag ≤ count) : ItemKind u count count
  | move (htype : tagType3 u.tag = fromMove) (hbuffer : u.buffer = .dir log)
      (hid : tagId u.tag < count) (hsize : tagSize u.tag < 0x3ff)
      (hlog : Counted log) (hcommitted : Committed log) : ItemKind u count count
  | userattrs (htype : tagType3 u.tag = fromUserattrs) (hbuffer : u.buffer = .userattrs attrs)
      (hid : tagId u.tag < count) (hlength : attrs.length = tagSize u.tag)
      (hsize : tagSize u.tag < 0x3ff) (hlen : ∀ a ∈ attrs, a.buffer.length < 0x3ff) :
      ItemKind u count count
  | direct (hfrom : ¬ IsFrom u.tag) (hnoop : tagType3 u.tag ≠ fromNoop)
      (hcount : tagCount u.tag count = some count') : ItemKind u count count'

theorem itemKind_of_count {u : Attr} (h : u.count count = some count') :
    ItemKind u count count' := by
  unfold Attr.count at h
  split at h
  · have htype := tagType3_of_invalid ‹_›
    refine .direct ?_ ?_ h
    · rw [IsFrom, fromMove, fromUserattrs]
      omega
    · rw [fromNoop]
      omega
  · split at h
    · obtain ⟨hid, rfl⟩ := Option.ite_none_right_eq_some.mp h |>.imp_right Option.some.inj
      exact .noop ‹_› ((Bool.not_eq_false _).mp ‹_›) hid
    · split at h
      · split at h
        · obtain ⟨⟨hid, hsize, hlog, hc⟩, rfl⟩ :=
            Option.ite_none_right_eq_some.mp h |>.imp_right Option.some.inj
          exact .move ‹_› ‹_› hid hsize (counted_of_logCount hlog) hc
        · cases h
      · split at h
        · split at h
          · obtain ⟨⟨hid, hlength, hsize, hlen⟩, rfl⟩ :=
              Option.ite_none_right_eq_some.mp h |>.imp_right Option.some.inj
            exact .userattrs ‹_› ‹_› hid hlength hsize hlen
          · cases h
        · exact .direct (not_or.mpr ⟨‹_›, ‹_›⟩) ‹_› h

theorem ItemKind.lt {u : Attr} (H : ItemKind u count count') (hcount : count < 0x3ff) :
    count' < 0x3ff := by
  cases H with
  | noop => exact hcount
  | move => exact hcount
  | userattrs => exact hcount
  | direct _ _ h => exact tagCount_lt h hcount

/-- The entry of the log that an item is for a traversal of the types from `lowest` on. -/
def Attr.opFrom (lowest : Nat) (u : Attr) : Op Nat EntryValue :=
  if tagType3 u.tag = fromNoop ∨ IsFrom u.tag then u.op
  else tagOpFrom lowest u.tag u.buffer.bytes

theorem Attr.opFrom_direct {u : Attr} (hfrom : ¬ IsFrom u.tag) (hnoop : tagType3 u.tag ≠ fromNoop) :
    u.opFrom lowest = tagOpFrom lowest u.tag u.buffer.bytes :=
  if_neg (not_or.mpr ⟨hnoop, hfrom⟩)

theorem Attr.opFrom_noop {u : Attr} (h : tagType3 u.tag = fromNoop) : u.opFrom lowest = .skip := by
  rw [Attr.opFrom, if_pos (.inl h), Attr.op, if_pos h]

theorem Attr.opFrom_from {u : Attr} (h : IsFrom u.tag) :
    u.opFrom lowest = .put (tagId u.tag) (attrPatch u.tag u.buffer) := by
  have hnoop : tagType3 u.tag ≠ fromNoop := by
    rw [IsFrom, fromMove, fromUserattrs] at h
    rw [fromNoop]
    omega
  rw [Attr.opFrom, if_pos (.inr h), Attr.op, if_neg hnoop]
  exact if_pos h

theorem filterStep_noop {u : Attr} (h : tagType3 u.tag = fromNoop) : filterStep u tag = tag := by
  rw [filterStep, filterScan, if_pos h, filterScan]

theorem filterStep_move {u : Attr} (h : tagType3 u.tag = fromMove) : filterStep u tag = tag := by
  rw [filterStep, filterScan, if_neg (by rw [h]; decide), if_pos h, filterScan]

theorem filterStep_userattrs {u : Attr} (h : tagType3 u.tag = fromUserattrs)
    (hbuffer : u.buffer = .userattrs attrs) (hlength : attrs.length = tagSize u.tag) :
    filterStep u tag = filterUserattrs (tagId u.tag) attrs tag := by
  simp only [filterStep, filterScan, h, hbuffer, ← hlength, List.take_length, ↓reduceIte]
  rfl

theorem filterStep_direct {u : Attr} (hfrom : ¬ IsFrom u.tag) (hnoop : tagType3 u.tag ≠ fromNoop) :
    filterStep u tag = (dirTraverseFilter u.tag tag).1 := by
  rw [IsFrom, not_or] at hfrom
  simp only [filterStep, filterScan, hnoop, hfrom.1, hfrom.2, ↓reduceIte, ite_self]

theorem NoopTag.step {u : Attr} (H : NoopTag count t.1) (hk : ItemKind u count count')
    (hcount : count' < 0x3ff) (hhit : NotMissed u.tag t.1) (hst : Stepped u t t') :
    NoopTag count' t'.1 := by
  rcases hst.2 with h | ⟨_, h⟩
  · rw [h]
    cases hk with
    | noop htype => rwa [filterStep_noop htype]
    | move htype => rwa [filterStep_move htype]
    | userattrs htype hbuffer hid hlength hsize hlen =>
      rw [filterStep_userattrs htype hbuffer hlength]
      rcases filterUserattrs_eq (tagId_lt u.tag) hlen t.1 with heq | ⟨heq, _⟩
      · rwa [heq]
      · rw [heq]
        exact noopTag_zero count
    | direct hfrom hnoop hc =>
      rw [filterStep_direct hfrom hnoop]
      exact H.filter (tagCount_kind hc) hcount hhit
  · rw [h]
    exact noopTag_zero count'

theorem LiveTag.next_self (H : LiveTag lowest moved count t p) (hmove : u.move p.1 = some p.1) :
    LiveTag.Next lowest moved count u t p :=
  .kept hmove { H with }

/-- A user attribute of the list writes the key of the tag it supersedes. -/
theorem LiveTag.droppable_userattrs {attrs : List UserAttribute}
    (H : LiveTag lowest moved count t p) (hi : i < 2 ^ 10) (ha : a ∈ attrs)
    (hlen : a.buffer.length < 0x3ff) (hs : Supersedes (a.tag i) t.1) :
    Droppable (.put i (userattrsPatch attrs)) p := by
  obtain ⟨hty, hid, _⟩ := a.tag_fields hi (by omega)
  have htype := a.type.toNat_lt
  simp only [typeUserattr] at hty
  rcases hs with ⟨heq, hkey⟩ | hsize | ⟨hdel, _⟩
  · refine .covered fun k hne => ⟨hid.symm.trans (heq.trans H.id), ?_⟩
    have hk := H.covered (by omega) hkey hne
    obtain ⟨hty₀, _⟩ := a.tag_fields (i := 0) (by decide) (by omega)
    refine KeyedLog.value_ne_none (p := (0, tagPatch (a.tag 0) a.buffer))
      (List.mem_map.mpr ⟨a, ha, rfl⟩) ?_
    change tagPatch (a.tag 0) a.buffer k ≠ none
    rw [tagPatch, if_pos (by rw [hk, hty, hty₀, typeUserattr])]
    simp
  · exact .removal (H.removal hsize)
  · simp only [typeDelete] at hdel
    omega

theorem LiveTag.step {u : Attr} (H : LiveTag lowest moved count t p) (hk : ItemKind u count count')
    (hlow : Lowest lowest) (hcount : count' < 0x3ff) (hhit : NotMissed u.tag t.1)
    (hst : Stepped u t t') : LiveTag.Next lowest moved count' (u.opFrom lowest) t' p := by
  have hzero : t.1 ≠ 0#32 := fun h => H.ne_noop (by rw [h]; rfl)
  obtain ⟨tag', buffer'⟩ := t'
  obtain ⟨rfl, hstep⟩ := hst
  obtain rfl : tag' = filterStep u t.1 := hstep.resolve_right fun h => hzero h.1
  cases hk with
  | noop htype =>
    rw [filterStep_noop htype, Attr.opFrom_noop htype]
    exact H.next_self rfl
  | move htype =>
    rw [filterStep_move htype, Attr.opFrom_from (.inl htype)]
    exact H.next_self rfl
  | @userattrs attrs htype hbuffer hid hlength hsize hlen =>
    rw [filterStep_userattrs htype hbuffer hlength, Attr.opFrom_from (.inr htype)]
    rcases filterUserattrs_eq (tagId_lt u.tag) hlen t.1 with heq | ⟨heq, a, ha, hs⟩
    · rw [heq]
      exact H.next_self rfl
    · rw [heq]
      refine .dropped (noopTag_zero count) ?_
      have hpatch : attrPatch u.tag u.buffer = userattrsPatch attrs := by
        simp only [attrPatch, htype, hbuffer, ← hlength, List.take_length, ↓reduceIte]
        rfl
      rw [hpatch]
      exact H.droppable_userattrs (tagId_lt u.tag) ha (hlen a ha) hs
  | direct hfrom hnoop hc =>
    rw [filterStep_direct hfrom hnoop, Attr.opFrom_direct hfrom hnoop]
    exact H.filter (tagCount_kind hc) hlow hcount hhit u.buffer.bytes

/-! ## Runs over a list of items -/

theorem Tracks.mono (H : Tracks lowest moved count ts P) (hmoved : moved → moved') :
    Tracks lowest moved' count ts P := by
  induction H with
  | nil => exact .nil
  | noop h _ ih => exact .noop h ih
  | live h _ ih => exact .live (h.mono (Nat.le_refl _) hmoved) ih

theorem Tracks.append (H : Tracks lowest moved count ts P) (H' : Tracks lowest moved count ts' P') :
    Tracks lowest moved count (ts ++ ts') (P ++ P') := by
  induction H with
  | nil => exact H'
  | noop h _ ih => exact .noop h ih
  | live h _ ih => exact .live h ih

theorem Tracks.exists_live (H : Tracks lowest moved count ts P) (hp : p ∈ P) :
    ∃ t ∈ ts, LiveTag lowest moved count t p := by
  induction H with
  | nil => cases hp
  | noop _ _ ih =>
    obtain ⟨t, ht, hl⟩ := ih hp
    exact ⟨t, .tail _ ht, hl⟩
  | live h _ ih =>
    rcases List.mem_cons.mp hp with rfl | hp
    · exact ⟨_, .head _, h⟩
    · obtain ⟨t, ht, hl⟩ := ih hp
      exact ⟨t, .tail _ ht, hl⟩

/-- The item filters what the tags so far have left. -/
theorem Tracks.step {u : Attr} (H : Tracks lowest moved count ts P) (hk : ItemKind u count count')
    (hlow : Lowest lowest) (hcount : count' < 0x3ff) (hhit : ∀ t ∈ ts, NotMissed u.tag t.1)
    (hst : List.Forall₂ (Stepped u) ts ts') :
    ∃ P', Filtered (u.opFrom lowest) P P' ∧ Tracks lowest moved count' ts' P' := by
  induction H generalizing ts' with
  | nil =>
    cases hst
    exact ⟨[], .nil, .nil⟩
  | noop h _ ih =>
    cases hst with
    | cons hst hrest =>
      obtain ⟨P', hf, ht⟩ := ih (fun t ht => hhit t (.tail _ ht)) hrest
      exact ⟨P', hf, .noop (h.step hk hcount (hhit _ (.head _)) hst) ht⟩
  | live h _ ih =>
    cases hst with
    | cons hst hrest =>
      obtain ⟨P', hf, ht⟩ := ih (fun t ht => hhit t (.tail _ ht)) hrest
      cases h.step hk hlow hcount (hhit _ (.head _)) hst with
      | dropped hn hdrop => exact ⟨P', .drop hdrop hf, .noop hn ht⟩
      | kept hmove hl => exact ⟨_, .keep hmove hf, .live hl ht⟩

theorem tagOpFrom_eq (hlo : lowest ≤ tagTy tag) (hty : tagTy tag < typeSplice)
    (data : List UInt8) : tagOpFrom lowest tag data = .put (tagId tag) (tagPatch tag data) := by
  have hc : tagTy tag ≠ typeCreate := by simp only [typeCreate, typeSplice] at *; omega
  have hd : tagTy tag ≠ typeDelete := by simp only [typeDelete, typeSplice] at *; omega
  rw [tagOpFrom, if_neg (Nat.not_lt.mpr hlo), tagOp, if_neg hc, if_neg hd, if_pos hty]

theorem tagOpFrom_puts (h : ¬ (lowest ≤ tagTy tag ∧ tagTy tag < typeSplice)) (data : List UInt8) :
    (tagOpFrom lowest tag data).puts = [] := by
  unfold tagOpFrom tagOp
  split
  · rfl
  · split
    · rfl
    · split
      · rfl
      · rw [if_neg (by omega)]
        rfl

/-- The item itself, behind the tags so far. -/
theorem tracks_item {u : Attr} (hk : ItemKind u count count')
    (hfrom : IsFrom u.tag → lowest = typeName) :
    Tracks lowest (IsFrom u.tag) count'
      (if lowest ≤ tagTy u.tag ∧ tagTy u.tag < typeSplice then [(u.tag, u.buffer)] else [])
      (u.opFrom lowest).puts := by
  have htracks_from : ∀ h : IsFrom u.tag, tagId u.tag < count' → FromOk (u.tag, u.buffer) →
      Tracks lowest (IsFrom u.tag) count'
        (if lowest ≤ tagTy u.tag ∧ tagTy u.tag < typeSplice then [(u.tag, u.buffer)] else [])
        (u.opFrom lowest).puts := by
    intro h hid hok
    have hty := h.ty
    have htype : tagType3 u.tag ≠ fromNoop := by
      rw [IsFrom, fromMove, fromUserattrs] at h
      rw [fromNoop]
      omega
    have hlt : tagTy u.tag < typeSplice := by
      rw [fromMove, fromUserattrs] at hty
      rw [typeSplice]
      omega
    have hlo : lowest ≤ tagTy u.tag := hfrom h ▸ Nat.zero_le _
    rw [if_pos ⟨hlo, hlt⟩, Attr.opFrom_from h]
    exact .live ⟨rfl, hid, rfl, hlo, hlt, htype, fun _ => ⟨h, hok⟩⟩ .nil
  cases hk with
  | noop htype hvalid hid =>
    rw [Attr.opFrom_noop htype]
    split
    · rw [tagType3_of_valid hvalid] at htype
      exact .noop ⟨hvalid, htype, hid⟩ .nil
    · exact .nil
  | move htype hbuffer hid hsize hlog hc =>
    exact htracks_from (.inl htype) hid (.inl ⟨htype, _, hbuffer, hsize, hlog, hc⟩)
  | userattrs htype hbuffer hid hlength hsize hlen =>
    exact htracks_from (.inr htype) hid (.inr ⟨htype, _, hbuffer, hlength, hsize, hlen⟩)
  | direct hn hnoop hc =>
    have hkind := tagCount_kind hc
    rw [Attr.opFrom_direct hn hnoop]
    split
    · obtain ⟨hlo, hty⟩ := (‹_ ∧ _› : lowest ≤ tagTy u.tag ∧ _)
      rw [tagOpFrom_eq hlo hty]
      have hid : tagId u.tag < count' := by
        cases hkind with
        | create hc => simp only [typeCreate, typeSplice] at *; omega
        | delete hd => simp only [typeDelete, typeSplice] at *; omega
        | name => omega
        | value _ _ hid => exact hid
        | other hc => simp only [typeCrc, typeSplice] at *; omega
      refine .live ⟨rfl, hid, ?_, hlo, hty, hnoop, fun h => absurd h hkind.ty_ne⟩ .nil
      rw [IsFrom, not_or] at hn
      simp only [attrPatch, hn.1, hn.2, ↓reduceIte]
    · rw [tagOpFrom_puts ‹_›]
      exact .nil

theorem tagPatch_removal (h : tagPatch tag data k = some none) :
    k = typeKey (tagTy tag) ∧ tagSize tag = 0x3ff := by
  unfold tagPatch at h
  split at h
  · split at h
    · exact ⟨‹_›, ‹_›⟩
    · cases h
  · cases h

theorem exists_stepped {u : Attr} (H : List.Forall₂ (Stepped u) ts ts') (h : t' ∈ ts') :
    ∃ t, Stepped u t t' := by
  induction H with
  | nil => cases h
  | cons hst _ ih =>
    rcases List.mem_cons.mp h with rfl | h
    · exact ⟨_, hst⟩
    · exact ih h

/-- A superseded tag would have been dropped by the very item. -/
theorem Stepped.not_supersedes {u : Attr} (H : Stepped u t t') (hfrom : ¬ IsFrom u.tag)
    (hnoop : tagType3 u.tag ≠ fromNoop) (hty : tagTy u.tag / 2 ^ 8 ≠ 4)
    (hlive : tagType3 t'.1 ≠ fromNoop) :
    ¬ Supersedes u.tag t'.1 := by
  rcases H.2 with h | ⟨_, h⟩
  · rw [filterStep_direct hfrom hnoop] at h
    by_cases hs : Supersedes u.tag t.1
    · rw [dirTraverseFilter_of_supersedes hs] at h
      exact absurd (by rw [h]; rfl) hlive
    · rw [dirTraverseFilter_of_not_le hs fun hid => hty hid.1] at h
      rwa [h]
  · exact absurd (by rw [h]; rfl) hlive

/-- What is left of the tags so far does not set what the item removes. -/
theorem Tracks.cleanRemoval {u : Attr} (H : Tracks lowest moved count' ts' P')
    (hk : ItemKind u count count') (hst : List.Forall₂ (Stepped u) ts ts')
    (hrem : moved → tagSize u.tag ≠ 0x3ff) : KeyedLog.CleanRemoval P' (u.opFrom lowest) := by
  intro p hp q hq hid k hnone v hsome
  cases hk with
  | noop htype =>
    rw [Attr.opFrom_noop htype] at hp
    cases hp
  | move htype hbuffer =>
    rw [Attr.opFrom_from (.inl htype)] at hp
    cases List.mem_singleton.mp hp
    simp only [attrPatch, htype, hbuffer, ↓reduceIte, movePatch] at hnone
    split at hnone <;> simp at hnone
  | @userattrs attrs htype hbuffer _ hlength _ hlen =>
    rw [Attr.opFrom_from (.inr htype)] at hp
    cases List.mem_singleton.mp hp
    have hpatch : attrPatch u.tag u.buffer k = userattrsPatch attrs k := by
      simp only [attrPatch, htype, hbuffer, ← hlength, List.take_length, ↓reduceIte]
      rfl
    obtain ⟨p, hp, _, hremoval⟩ := KeyedLog.exists_of_value (hpatch.symm.trans hnone)
    obtain ⟨a, ha, rfl⟩ := List.mem_map.mp hp
    have hsize := (tagPatch_removal hremoval).2
    have := hlen a ha
    obtain ⟨_, _, hsize'⟩ := a.tag_fields (i := 0) (by decide) (by omega)
    omega
  | direct hn hnoop hc =>
    rw [Attr.opFrom_direct hn hnoop] at hp
    by_cases hty : lowest ≤ tagTy u.tag ∧ tagTy u.tag < typeSplice
    · rw [tagOpFrom_eq hty.1 hty.2] at hp
      cases List.mem_singleton.mp hp
      obtain ⟨hkey, hsize⟩ := tagPatch_removal hnone
      obtain ⟨t', ht', hlive⟩ := H.exists_live hq
      have hdirect : ¬ IsFrom t'.1 := by
        intro hf
        have hf := hf.ty
        rw [fromMove, fromUserattrs] at hf
        exact hrem (hlive.kind (by omega)).1 hsize
      have hkey' : k = typeKey (tagTy t'.1) :=
        tagPatch_ne_none (by rw [← hlive.direct hdirect, hsome]; simp)
      have hs : Supersedes u.tag t'.1 := .inl ⟨(hlive.id.trans hid).symm, hkey.symm.trans hkey'⟩
      obtain ⟨t, hst⟩ := exists_stepped hst ht'
      have hsplice : tagTy u.tag / 2 ^ 8 ≠ 4 := by
        have := hty.2
        simp only [typeSplice] at this
        omega
      exact hst.not_supersedes hn hnoop hsplice hlive.ne_noop hs
    · rw [tagOpFrom_puts hty] at hp
      cases hp

/-- The items take a directory of `first` entries to one of `count`. -/
inductive Counts (first : Nat) : List Attr → Nat → Prop where
  | nil : Counts first [] first
  | snoc : Counts first T count → ItemKind u count count' → Counts first (T ++ [u]) count'

theorem counts_of_foldlM {items : List Attr}
    (h : items.foldlM (fun count a => a.count count) first = some count) :
    Counts first items count := by
  induction items using List.reverseRecOn generalizing count with
  | nil =>
    cases h
    exact .nil
  | append_singleton T u ih =>
    rw [List.foldlM_append, Option.bind_eq_bind, Option.bind_eq_some_iff] at h
    obtain ⟨count₁, hcount₁, hu⟩ := h
    rw [List.foldlM_cons, Option.bind_eq_bind, Option.bind_eq_some_iff] at hu
    obtain ⟨_, hu, hrfl⟩ := hu
    cases hrfl
    exact .snoc (ih hcount₁) (itemKind_of_count hu)

/-- **The scans of a list of items** are what compaction leaves of their log. -/
theorem tracks_items (hlow : Lowest lowest) (hcount : Counts first items count)
    (hfirst : first < 0x3ff)
    (hhit : ∀ T u S, items = T ++ u :: S → ∀ t ∈ scans lowest T, NotMissed u.tag t.1)
    (hrem : items.Pairwise fun a b => IsFrom a.tag → tagSize b.tag ≠ 0x3ff)
    (hfrom : ∀ u ∈ items, IsFrom u.tag → lowest = typeName) :
    ∃ P, KeyedLog.Compacts (items.map (Attr.opFrom lowest)) P ∧
      Tracks lowest (∃ a ∈ items, IsFrom a.tag) count (scans lowest items) P ∧ count < 0x3ff := by
  induction hcount with
  | nil => exact ⟨[], .nil, .nil, hfirst⟩
  | @snoc T _ u _ _ hk ih =>
    obtain ⟨hremT, _, hremu⟩ := List.pairwise_append.mp hrem
    obtain ⟨P, hcompacts, htracks, hlt⟩ := ih
      (fun T' u' S h => hhit T' u' (S ++ [u]) (by rw [h, List.append_assoc]; rfl)) hremT
      (fun a ha => hfrom a (List.mem_append_left _ ha))
    have hlt' := hk.lt hlt
    obtain ⟨ts', hst, hscans⟩ := scans_append_singleton lowest T u
    obtain ⟨P', hfilter, htracks'⟩ := htracks.step hk hlow hlt' (hhit T u [] rfl) hst
    have hclean : KeyedLog.CleanRemoval P' (u.opFrom lowest) :=
      htracks'.cleanRemoval hk hst fun ⟨a, ha, hf⟩ => hremu a ha u (.head _) hf
    have hitem := tracks_item hk (hfrom u (List.mem_append_right _ (.head _)))
    refine ⟨P' ++ (u.opFrom lowest).puts, ?_, ?_, hlt'⟩
    · rw [List.map_append, List.map_singleton]
      exact .snoc hcompacts hfilter hclean
    · rw [hscans]
      refine (htracks'.mono ?_).append (hitem.mono ?_)
      · exact fun ⟨a, ha, hf⟩ => ⟨a, List.mem_append_left _ ha, hf⟩
      · exact fun hf => ⟨u, List.mem_append_right _ (.head _), hf⟩

end LittleFs
