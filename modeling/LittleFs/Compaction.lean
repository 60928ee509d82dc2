import LittleFs.TraverseScan
import Mathlib.Data.List.Infix

/-! Compaction keeps the directory: the tags that `lfs_dir_compact` writes replay to the compacted
range of the log and the pending attributes, renumbered from zero, when no tag of a log is carried
past a create or delete on disk that should have moved its id. -/

namespace LittleFs

open KeyedLog (Op value value_append value_singleton)

/-! ## Logs on disk -/

theorem supersedes_read {tag filtertag : Tag} :
    Supersedes (tag ||| 0x80000000#32) (filtertag ||| 0x80000000#32) ↔
      Supersedes tag filtertag := by
  simp only [Supersedes, tagId_read, tagTy_read, tagSize_read]

theorem tagCount_read (tag : Tag) (count : Nat) :
    tagCount (tag ||| 0x80000000#32) count = tagCount tag count := by
  simp only [tagCount, tagTy_read, tagId_read]

theorem LogEntry.not_isFrom (e : LogEntry) : ¬ IsFrom e.read.tag := by
  intro h
  have := h.valid
  rw [LogEntry.read, tagIsValid_read] at this
  cases this

theorem LogEntry.ne_noop (e : LogEntry) : tagType3 e.read.tag ≠ fromNoop := by
  have htype := tagType3_of_invalid (tagIsValid_read e.tag)
  rw [fromNoop]
  exact fun h => absurd (h ▸ htype) (by decide)

theorem LogEntry.count_read (e : LogEntry) (count : Nat) :
    e.read.count count = tagCount e.tag count := by
  rw [Attr.count, LogEntry.read, if_pos (tagIsValid_read e.tag), tagCount_read]

/-- The scan over a log on disk drops the tag or leaves it as it is, and in the second case the
next entry does not miss it. -/
theorem filterScan_read {tag : Tag} (h : missesSplice tag (mid ++ e :: rest) = false) :
    filterScan (mid.map LogEntry.read) (tag ||| 0x80000000#32) = 0#32 ∨
    filterScan (mid.map LogEntry.read) (tag ||| 0x80000000#32) = tag ||| 0x80000000#32 ∧
      (Supersedes e.tag tag ∨ tagTy e.tag / 2 ^ 8 ≠ 4 ∨ tagId tag < tagId e.tag) := by
  induction mid with
  | nil =>
    refine .inr ⟨rfl, ?_⟩
    simp only [List.nil_append, missesSplice] at h
    by_cases hs : Supersedes e.tag tag
    · exact .inl hs
    · simp only [hs, ↓reduceIte, Bool.or_eq_false_iff, Bool.and_eq_false_iff, beq_eq_false_iff_ne,
        decide_eq_false_iff_not, typeSplice] at h
      omega
  | cons a mid ih =>
    rw [List.cons_append, missesSplice] at h
    have hfrom := a.not_isFrom
    rw [IsFrom, not_or] at hfrom
    rw [List.map_cons, filterScan, if_neg a.ne_noop, if_neg hfrom.1, if_neg hfrom.2]
    by_cases hs : Supersedes a.tag tag
    · have hfilter : dirTraverseFilter a.read.tag (tag ||| 0x80000000#32) = (0#32, true) :=
        dirTraverseFilter_of_supersedes (supersedes_read.mpr hs)
      rw [hfilter]
      exact .inl rfl
    · rw [if_neg hs, Bool.or_eq_false_iff] at h
      have hfilter : dirTraverseFilter a.read.tag (tag ||| 0x80000000#32) =
          (tag ||| 0x80000000#32, false) :=
        dirTraverseFilter_of_disk (tagIsValid_read a.tag) (mt supersedes_read.mp hs)
      rw [hfilter]
      exact ih h.2

theorem NoMissedSplice.of_append {log : List LogEntry} (H : NoMissedSplice lowest (pre ++ log)) :
    NoMissedSplice lowest log := by
  induction pre with
  | nil => exact H
  | cons _ _ ih => exact ih H.2

/-- Where a scanned tag comes from. -/
theorem exists_of_mem_scans (h : t ∈ scans lowest items) :
    ∃ pre a mid, items = pre ++ a :: mid ∧ lowest ≤ tagTy a.tag ∧ tagTy a.tag < typeSplice ∧
      t = (filterScan mid a.tag, a.buffer) := by
  induction items with
  | nil => cases h
  | cons a rest ih =>
    rw [scans] at h
    have hrest : t ∈ scans lowest rest → ∃ pre a' mid, a :: rest = pre ++ a' :: mid ∧
        lowest ≤ tagTy a'.tag ∧ tagTy a'.tag < typeSplice ∧
        t = (filterScan mid a'.tag, a'.buffer) := by
      intro h
      obtain ⟨pre, a', mid, rfl, hlo, hty, rfl⟩ := ih h
      exact ⟨a :: pre, a', mid, rfl, hlo, hty, rfl⟩
    split at h
    · rcases List.mem_cons.mp h with rfl | h
      · exact ⟨[], a, rest, rfl, (‹_ ∧ _› : lowest ≤ tagTy a.tag ∧ _).1,
          (‹_ ∧ _› : lowest ≤ tagTy a.tag ∧ _).2, rfl⟩
      · exact hrest h
    · exact hrest h

/-- The condition on the log says that no scan over it misses a splice. -/
theorem NoMissedSplice.notMissed {log : List LogEntry} {attrs : List Attr}
    (H : NoMissedSplice lowest log) (hattrs : ∀ a ∈ attrs, tagIsValid a.tag = true)
    (hitems : log.map LogEntry.read ++ attrs = T ++ u :: S) (ht : t ∈ scans lowest T) :
    NotMissed u.tag t.1 := by
  intro hdisk hsplice
  -- `u` is on disk, and so is everything before it
  obtain ⟨log₁, e, log₂, rfl, rfl, rfl⟩ : ∃ log₁ e log₂, log = log₁ ++ e :: log₂ ∧
      T = log₁.map LogEntry.read ∧ u = e.read := by
    rcases List.append_eq_append_iff.mp hitems with ⟨T', rfl, hT⟩ | ⟨S', hlog, hS⟩
    · have hu : u ∈ attrs := by
        rw [hT]
        exact List.mem_append_right _ (.head _)
      rw [hattrs u hu] at hdisk
      cases hdisk
    · cases S' with
      | nil =>
        have hu : u ∈ attrs := by
          rw [List.nil_append] at hS
          rw [← hS]
          exact .head _
        rw [hattrs u hu] at hdisk
        cases hdisk
      | cons u' S' =>
        obtain ⟨rfl, rfl⟩ := List.cons.inj hS
        obtain ⟨log₁, log₂, rfl, rfl, h⟩ := List.map_eq_append_iff.mp hlog
        obtain ⟨e, log₂, rfl, rfl, _⟩ := List.map_eq_cons_iff.mp h
        exact ⟨log₁, e, log₂, rfl, rfl, rfl⟩
  obtain ⟨pre, a, mid, hsplit, hlo, hty, rfl⟩ := exists_of_mem_scans ht
  obtain ⟨pre', mid', rfl, rfl, h⟩ := List.map_eq_append_iff.mp hsplit
  obtain ⟨a', mid, rfl, rfl, rfl⟩ := List.map_eq_cons_iff.mp h
  rw [LogEntry.read, tagTy_read] at hlo hty
  rw [List.append_assoc, List.cons_append] at H
  have hmiss := H.of_append.1 ⟨hlo, hty⟩
  rcases filterScan_read hmiss with hzero | ⟨hsame, hnext⟩
  · exact .inl hzero
  · right
    change Supersedes _ (filterScan (mid.map LogEntry.read) (a'.tag ||| 0x80000000#32)) ∨
      tagId (filterScan (mid.map LogEntry.read) (a'.tag ||| 0x80000000#32)) < _
    rw [LogEntry.read, tagTy_read] at hsplice
    rw [hsame, LogEntry.read, supersedes_read, tagId_read, tagId_read]
    exact hnext.imp_right fun h => h.resolve_left (absurd hsplice)

/-! ## What a traversal writes -/

/-- The patches of written tags. -/
def entryPuts (es : List LogEntry) : List (Nat × KeyedLog.Patch Nat EntryValue) :=
  es.map fun e => (tagId e.tag, tagPatch e.tag e.data)

theorem replayLog_eq (h : ∀ e ∈ es, tagTy e.tag < typeSplice) :
    replayLog es = KeyedLog.read (entryPuts es) := by
  rw [← KeyedLog.replay_puts, entryPuts, List.map_map, replayLog]
  congr 1
  refine List.map_congr_left fun e he => ?_
  have hop := tagOpFrom_eq (Nat.zero_le (tagTy e.tag)) (h e he) e.data
  rwa [tagOpFrom, if_neg (Nat.not_lt_zero _)] at hop

/-- The tags written for one scanned tag say what its patch says, at an id moved by `diff`. -/
structure Writes (es : List LogEntry) (i : Int) (f : KeyedLog.Patch Nat EntryValue) : Prop where
  ty : ∀ e ∈ es, tagTy e.tag < typeSplice
  value : ∀ j k, KeyedLog.value (entryPuts es) j k = if (j : Int) = i then f k else none

theorem entryPuts_append (es es' : List LogEntry) :
    entryPuts (es ++ es') = entryPuts es ++ entryPuts es' :=
  List.map_append

/-- A traversal writes the patches of its range, moved by `diff`. -/
theorem Tracks.written (H : Tracks lowest moved count ts P) (begin stop : Nat) (diff : Int)
    {cb : Tag → Buffer → List LogEntry}
    (hnoop : ∀ t : Tag × Buffer, tagType3 t.1 = fromNoop → cb t.1 t.2 = [])
    (hcb : ∀ t ∈ ts, ∀ p, LiveTag lowest moved count t p → begin ≤ p.1 → p.1 < stop →
      Writes (cb t.1 t.2) (p.1 + diff) p.2) :
    (∀ e ∈ emitted begin stop cb ts, tagTy e.tag < typeSplice) ∧
    ∀ (j : Nat) k, value (entryPuts (emitted begin stop cb ts)) j k =
      if begin ≤ j - diff ∧ j - diff < stop then value P (j - diff).toNat k else none := by
  induction H with
  | nil => exact ⟨fun _ h => (nomatch h), fun j k => (ite_self _).symm⟩
  | @noop t ts P h _ ih =>
    have hrest := ih fun t ht => hcb t (.tail _ ht)
    have hnil := hnoop t h.type3
    rw [emitted, List.filter_cons]
    split
    · rw [List.flatMap_cons, hnil, List.nil_append]
      exact hrest
    · exact hrest
  | @live t p ts P h _ ih =>
    obtain ⟨hty, hvalue⟩ := ih fun t ht => hcb t (.tail _ ht)
    have hid := h.id
    rw [emitted, List.filter_cons]
    by_cases hrange : begin ≤ tagId t.1 ∧ tagId t.1 < stop
    · rw [if_pos (decide_eq_true hrange), List.flatMap_cons, ← emitted]
      have hw := hcb t (.head _) p h (by omega) (by omega)
      refine ⟨fun e he => ?_, fun j k => ?_⟩
      · exact (List.mem_append.mp he).elim (hw.ty e) (hty e)
      · rw [entryPuts_append, value_append, hvalue, hw.value, value]
        by_cases hj : begin ≤ j - diff ∧ j - diff < stop
        · rw [if_pos hj, if_pos hj]
          congr 1
          by_cases hp : (j : Int) = p.1 + diff
          · rw [if_pos hp, if_pos (by omega)]
          · rw [if_neg hp, if_neg (by omega)]
        · rw [if_neg hj, if_neg hj, if_neg (by omega)]
          rfl
    · rw [if_neg (by simpa using hrange), ← emitted]
      refine ⟨hty, fun j k => ?_⟩
      rw [hvalue, value]
      by_cases hj : begin ≤ j - diff ∧ j - diff < stop
      · rw [if_pos hj, if_pos hj, if_neg (by omega), Option.or_none]
      · rw [if_neg hj, if_neg hj]

/-- A tag of its own is written with its id moved. -/
theorem LiveTag.writes_direct (H : LiveTag lowest moved count t p) (hfrom : ¬ IsFrom t.1)
    (depth : Nat) {diff : Int} (hlo : 0 ≤ p.1 + diff) (hhi : p.1 + diff < 2 ^ 10) :
    Writes (traverseTag depth diff t.1 t.2) (p.1 + diff) p.2 := by
  have hid := H.id
  have hmove := tagId_add_idShift t.1 (d := diff) (by omega) (by omega)
  have hsame := sameButId_add_idShift t.1 (d := diff) (by omega) (by omega)
  have hf := hfrom
  rw [IsFrom, not_or] at hf
  have htags : traverseTag depth diff t.1 t.2 = [⟨t.1 + idShift diff, t.2.bytes⟩] := by
    unfold traverseTag
    simp only [H.ne_noop, hf.1, hf.2, ↓reduceIte]
  rw [htags, H.direct hfrom]
  refine ⟨fun e he => ?_, fun j k => ?_⟩
  · cases List.mem_singleton.mp he
    exact hsame.ty ▸ H.ty
  · rw [entryPuts, List.map_singleton, value_singleton, tagPatch_congr hsame]
    by_cases hj : (j : Int) = p.1 + diff
    · rw [if_pos hj, if_pos (by dsimp only; omega)]
    · rw [if_neg hj, if_neg (by dsimp only; omega)]

theorem traverseTag_noop (depth : Nat) (diff : Int) {t : Tag × Buffer}
    (h : tagType3 t.1 = fromNoop) : traverseTag depth diff t.1 t.2 = [] := by
  unfold traverseTag
  simp only [h, ↓reduceIte]

theorem traverseTag_shifted {tag : Tag} (hfrom : ¬ IsFrom tag) (hnoop : tagType3 tag ≠ fromNoop)
    (depth : Nat) (diff : Int) (buffer : Buffer) :
    traverseTag depth diff tag buffer = [⟨tag + idShift diff, buffer.bytes⟩] := by
  obtain ⟨hmove, huserattrs⟩ := not_or.mp hfrom
  rw [traverseTag.eq_def]
  simp only [hnoop, hmove, huserattrs, ↓reduceIte]

theorem traverseTag_userattrs {tag : Tag} (huserattrs : tagType3 tag = fromUserattrs) (depth : Nat)
    (diff : Int) (attrs : List UserAttribute) : traverseTag depth diff tag (.userattrs attrs) =
      (attrs.take (tagSize tag)).map fun a => ⟨a.tag (tagId tag + diff).toNat, a.buffer⟩ := by
  have hnoop : fromUserattrs ≠ fromNoop := by decide
  have hmove : fromUserattrs ≠ fromMove := by decide
  rw [traverseTag.eq_def]
  simp only [huserattrs, hnoop, hmove, ↓reduceIte]

theorem traverseTag_move {tag : Tag} (hmove : tagType3 tag = fromMove) (depth : Nat) (diff : Int)
    (log : List LogEntry) : traverseTag (depth + 1) diff tag (.dir log) =
      traverseLoop (mkTag typeTail 0x3ff 0) (mkTag typeStruct 0 0) (tagSize tag) (tagSize tag + 1)
        (traverseTag depth (tagId tag - tagSize tag + diff)) (log.map LogEntry.read) := by
  have hnoop : fromMove ≠ fromNoop := by decide
  rw [traverseTag.eq_def]
  simp only [hmove, hnoop, ↓reduceIte]

/-- The attributes of an `LFS_FROM_USERATTRS` are written one by one. -/
theorem LiveTag.writes_userattrs {attrs : List UserAttribute}
    (H : LiveTag lowest moved count t p) (htype : tagType3 t.1 = fromUserattrs)
    (hbuffer : t.2 = .userattrs attrs) (hlength : attrs.length = tagSize t.1)
    (hlen : ∀ a ∈ attrs, a.buffer.length < 0x3ff) (depth : Nat) {diff : Int}
    (hlo : 0 ≤ p.1 + diff) (hhi : p.1 + diff < 2 ^ 10) :
    Writes (traverseTag depth diff t.1 t.2) (p.1 + diff) p.2 := by
  have hid := H.id
  have hi : (tagId t.1 + diff).toNat < 2 ^ 10 := by omega
  have htags : traverseTag depth diff t.1 t.2 =
      attrs.map fun a => ⟨a.tag (tagId t.1 + diff).toNat, a.buffer⟩ := by
    unfold traverseTag
    simp only [htype, hbuffer, ← hlength, List.take_length]
    rfl
  have hpatch : p.2 = userattrsPatch attrs := by
    rw [H.patch]
    simp only [attrPatch, htype, hbuffer, ← hlength, List.take_length]
    rfl
  rw [htags, hpatch]
  refine ⟨fun e he => ?_, fun j k => ?_⟩
  · obtain ⟨a, ha, rfl⟩ := List.mem_map.mp he
    have htype := a.type.toNat_lt
    have hfields := a.tag_fields hi (by have := hlen a ha; omega)
    simp only [typeUserattr] at hfields
    simp only [typeSplice]
    omega
  · rw [entryPuts, List.map_map, userattrsPatch]
    clear htags hpatch hlength hbuffer
    induction attrs with
    | nil => exact (ite_self _).symm
    | cons a attrs ih =>
      obtain ⟨ha, hattrs⟩ := List.forall_mem_cons.mp hlen
      obtain ⟨hty, hid', hsize⟩ := a.tag_fields hi (by omega)
      obtain ⟨hty₀, _, hsize₀⟩ := a.tag_fields (i := 0) (by decide) (by omega)
      have hsame : tagPatch (a.tag (tagId t.1 + diff).toNat) a.buffer =
        tagPatch (a.tag 0) a.buffer := by
        funext k
        simp only [tagPatch, hty, hsize, hty₀, hsize₀]
      simp only [List.map_cons, value, ih hattrs, Function.comp_apply, hid', hsame]
      by_cases hj : (j : Int) = p.1 + diff
      · rw [if_pos hj, if_pos hj, if_pos (by omega), if_pos trivial]
      · rw [if_neg hj, if_neg hj, if_neg (by omega)]
        rfl

/-! ## The source of a move -/

theorem foldlM_read {log : List LogEntry} (h : log.foldlM (fun count e =>
      if tagIsValid e.tag then tagCount e.tag count else none) c = some count) :
    (log.map LogEntry.read).foldlM (fun count a => a.count count) c = some count := by
  induction log generalizing c with
  | nil => exact h
  | cons e log ih =>
    rw [List.foldlM_cons, Option.bind_eq_bind, Option.bind_eq_some_iff] at h
    obtain ⟨c', hc, hrest⟩ := h
    rw [List.map_cons, List.foldlM_cons, Option.bind_eq_bind, Option.bind_eq_some_iff]
    exact ⟨c', (e.count_read c).trans (Option.ite_none_right_eq_some.mp hc).2, ih hrest⟩

/-- The log of a directory as the items of a traversal of its own. -/
theorem tracks_log {log : List LogEntry} (hlow : Lowest lowest) (hcounted : Counted log)
    (hmiss : NoMissedSplice lowest log) :
    ∃ count P, KeyedLog.Compacts ((log.map LogEntry.read).map (Attr.opFrom lowest)) P ∧
      Tracks lowest (∃ a ∈ log.map LogEntry.read, IsFrom a.tag) count
        (scans lowest (log.map LogEntry.read)) P := by
  obtain ⟨first, hfirst, hsome⟩ := hcounted
  obtain ⟨count, hcount⟩ := Option.isSome_iff_exists.mp hsome
  have hnone : ∀ u ∈ log.map LogEntry.read, ¬ IsFrom u.tag := by
    intro u hu
    obtain ⟨e, _, rfl⟩ := List.mem_map.mp hu
    exact e.not_isFrom
  obtain ⟨P, hcompacts, htracks, _⟩ := tracks_items hlow (counts_of_foldlM (foldlM_read hcount))
    hfirst
    (fun T u S hitems t ht => hmiss.notMissed (fun a (h : a ∈ ([] : List Attr)) => nomatch h)
      (by rw [List.append_nil]; exact hitems) ht)
    (List.pairwise_of_forall_mem_list fun a ha _ _ h => absurd h (hnone a ha))
    fun u hu h => absurd h (hnone u hu)
  exact ⟨count, P, hcompacts, htracks⟩

theorem tagOpFrom_read (lowest : Nat) (e : LogEntry) :
    e.read.opFrom lowest = tagOpFrom lowest e.tag e.data := by
  rw [Attr.opFrom_direct e.not_isFrom e.ne_noop]
  simp only [LogEntry.read, Buffer.bytes, tagOpFrom, tagOp, tagTy_read, tagId_read]
  have hpatch : tagPatch (e.tag ||| 0x80000000#32) e.data = tagPatch e.tag e.data := by
    funext k
    simp only [tagPatch, tagTy_read, tagSize_read]
  rw [hpatch]

theorem typeStruct_le_typeKey : typeStruct ≤ typeKey ty ↔ typeStruct ≤ ty := by
  unfold typeKey
  simp only [typeStruct]
  split <;> omega

/-- Without its names, a log is the same log for all other keys. -/
theorem restricts_struct (log : List LogEntry) :
    KeyedLog.Restricts (typeStruct ≤ ·) (log.map fun e => tagOp e.tag e.data)
      ((log.map LogEntry.read).map (Attr.opFrom typeStruct)) := by
  induction log using List.reverseRecOn with
  | nil => exact .nil
  | append_singleton log e ih =>
    simp only [List.map_append, List.map_singleton, tagOpFrom_read]
    by_cases hlo : typeStruct ≤ tagTy e.tag
    · rw [tagOpFrom, if_neg (Nat.not_lt.mpr hlo)]
      refine .same ih fun k hk j hwrites => hk ?_
      by_cases hty : tagTy e.tag < typeSplice
      · have hop := tagOpFrom_eq hlo hty e.data
        rw [tagOpFrom, if_neg (Nat.not_lt.mpr hlo)] at hop
        rw [hop] at hwrites
        rw [tagPatch_ne_none hwrites.2, typeStruct_le_typeKey]
        exact hlo
      · have hputs : (tagOpFrom typeStruct e.tag e.data).puts = [] :=
          tagOpFrom_puts (fun h => hty h.2) e.data
        rw [tagOpFrom, if_neg (Nat.not_lt.mpr hlo)] at hputs
        cases hop : tagOp e.tag e.data with
        | put => rw [hop] at hputs; cases hputs
        | _ => rw [hop] at hwrites; exact hwrites.elim
    · have hty : tagTy e.tag < typeSplice := by
        simp only [typeStruct, typeSplice] at *
        omega
      have hop := tagOpFrom_eq (Nat.zero_le (tagTy e.tag)) hty e.data
      rw [tagOpFrom, if_neg (Nat.not_lt_zero _)] at hop
      rw [tagOpFrom, if_pos (Nat.not_le.mp hlo), hop]
      refine .other ih fun k hk => ?_
      refine Classical.byContradiction fun hne => hlo ?_
      rw [← typeStruct_le_typeKey, ← tagPatch_ne_none hne]
      exact hk

/-- Behind the CRC of a commit no removal is left. -/
theorem scans_committed {log : List LogEntry} (hc : Committed log)
    (ht : t ∈ scans lowest (log.map LogEntry.read)) (hlive : tagType3 t.1 ≠ fromNoop) :
    tagSize t.1 ≠ 0x3ff := by
  induction log using List.reverseRecOn with
  | nil => cases ht
  | append_singleton log e _ =>
    have hcrc := hc e (by simp)
    simp only [typeCrc] at hcrc
    obtain ⟨ts, hst, hscans⟩ := scans_append_singleton lowest (log.map LogEntry.read) e.read
    have hty : tagTy e.read.tag = tagTy e.tag := tagTy_read e.tag
    have hnot : ¬ (lowest ≤ tagTy e.read.tag ∧ tagTy e.read.tag < typeSplice) := by
      rw [hty]
      simp only [typeSplice]
      omega
    rw [List.map_append, List.map_singleton, hscans, if_neg hnot, List.append_nil] at ht
    obtain ⟨t₀, hst⟩ := exists_stepped hst ht
    intro hsize
    exact hst.not_supersedes e.not_isFrom e.ne_noop (by rw [hty]; omega) hlive (.inr (.inl hsize))

/-- What is left of the log of a move's source, at the id it moves. -/
theorem moved_value {log : List LogEntry} (hcompacts : KeyedLog.Compacts
      ((log.map LogEntry.read).map (Attr.opFrom typeStruct)) P)
    (htracks : Tracks typeStruct moved count (scans typeStruct (log.map LogEntry.read)) P)
    (hmoved : ¬ moved) (hc : Committed log) (i k : Nat) : value P i k = movePatch log i k := by
  have hread : (value P i k).join =
      KeyedLog.replay ((log.map LogEntry.read).map (Attr.opFrom typeStruct)) i k :=
    congrFun (congrFun hcompacts.read i) k
  obtain ⟨hin, hout⟩ := (restricts_struct log).replay_eq
  have hnone : value P i k ≠ some none := by
    intro h
    obtain ⟨p, hp, _, hk⟩ := KeyedLog.exists_of_value h
    obtain ⟨t, ht, hlive⟩ := htracks.exists_live hp
    have hfrom : ¬ IsFrom t.1 := by
      intro hf
      have hty := hf.ty
      rw [fromMove, fromUserattrs] at hty
      exact hmoved (hlive.kind (by omega)).1
    rw [hlive.direct hfrom] at hk
    exact scans_committed hc ht hlive.ne_noop (tagPatch_removal hk).2
  rw [movePatch]
  split
  · rw [hin i k ‹_›] at hread
    rw [replayLog, ← hread]
    rcases hv : value P i k with _ | _ | v
    · rfl
    · exact absurd hv hnone
    · rfl
  · rw [hout i k ‹_›] at hread
    rcases hv : value P i k with _ | _ | v
    · rfl
    · exact absurd hv hnone
    · rw [hv] at hread
      cases hread

theorem passes_splice (tag : Tag) :
    mkTag typeMovestate 0 0 &&& mkTag typeSplice 0x3ff 0 &&& tag =
      mkTag typeMovestate 0 0 &&& mkTag typeSplice 0x3ff 0 &&& mkTag typeName 0 0 ↔
    typeName ≤ tagTy tag ∧ tagTy tag < typeSplice := by
  have hmask := BitField.and_mask tag.toNat 30 1
  have hty := tagTy_lt tag
  rw [show mkTag typeMovestate 0 0 &&& mkTag typeSplice 0x3ff 0 = 0x40000000#32 from by decide,
    ← BitVec.toNat_inj, BitVec.toNat_and, Nat.and_comm,
    show (0x40000000#32).toNat = (2 ^ 1 - 1) * 2 ^ 30 from rfl, hmask]
  rw [tagTy] at hty ⊢
  change _ = 0 ↔ _
  simp only [typeName, typeSplice]
  omega

theorem passes_tail (tag : Tag) :
    mkTag typeMovestate 0 0 &&& mkTag typeTail 0x3ff 0 &&& tag =
      mkTag typeMovestate 0 0 &&& mkTag typeTail 0x3ff 0 &&& mkTag typeStruct 0 0 ↔
    typeStruct ≤ tagTy tag ∧ tagTy tag < typeSplice := by
  have hmask := BitField.and_mask tag.toNat 29 2
  have hty := tagTy_lt tag
  rw [show mkTag typeMovestate 0 0 &&& mkTag typeTail 0x3ff 0 = 0x60000000#32 from by decide,
    ← BitVec.toNat_inj, BitVec.toNat_and, Nat.and_comm,
    show (0x60000000#32).toNat = (2 ^ 2 - 1) * 2 ^ 29 from rfl, hmask]
  rw [tagTy] at hty ⊢
  change _ = 1 * 2 ^ 29 ↔ _
  simp only [typeStruct, typeSplice]
  omega

/-- An `LFS_FROM_MOVE` writes the struct and the attributes of the entry it moves. -/
theorem LiveTag.writes_move {log : List LogEntry} (H : LiveTag lowest moved count t p)
    (htype : tagType3 t.1 = fromMove) (hbuffer : t.2 = .dir log)
    (hlog : Counted log) (hc : Committed log) (hmiss : NoMissedSplice typeStruct log)
    {diff : Int} (hlo : 0 ≤ p.1 + diff) (hhi : p.1 + diff < 2 ^ 10) :
    Writes (traverseTag 1 diff t.1 t.2) (p.1 + diff) p.2 := by
  obtain ⟨count', P, hcompacts, htracks⟩ := tracks_log (.inr rfl) hlog hmiss
  have hmoved : ¬ ∃ a ∈ log.map LogEntry.read, IsFrom a.tag := by
    rintro ⟨a, ha, hf⟩
    obtain ⟨e, _, rfl⟩ := List.mem_map.mp ha
    exact e.not_isFrom hf
  have hid := H.id
  have htags : traverseTag 1 diff t.1 t.2 = emitted (tagSize t.1) (tagSize t.1 + 1)
      (traverseTag 0 (tagId t.1 - tagSize t.1 + diff))
        (scans typeStruct (log.map LogEntry.read)) := by
    rw [← traverseLoop_eq (by decide) passes_tail, hbuffer, traverseTag_move htype]
  have hw := htracks.written (tagSize t.1) (tagSize t.1 + 1) (tagId t.1 - tagSize t.1 + diff)
    (fun _ h => traverseTag_noop 0 _ h)
    fun t' _ p' hlive hb hs => hlive.writes_direct (fun hf => by
      have hty := hf.ty
      rw [fromMove, fromUserattrs] at hty
      exact hmoved (hlive.kind (by omega)).1) 0 (by omega) (by omega)
  have hpatch : p.2 = movePatch log (tagSize t.1) := by
    rw [H.patch]
    simp only [attrPatch, htype, hbuffer, ↓reduceIte]
  rw [htags, hpatch]
  refine ⟨hw.1, fun j k => ?_⟩
  rw [hw.2]
  by_cases hj : (j : Int) = p.1 + diff
  · have hfrom : (j - (tagId t.1 - tagSize t.1 + diff) : Int) = tagSize t.1 := by omega
    rw [if_pos hj, hfrom, if_pos (by omega), Int.toNat_natCast]
    exact moved_value hcompacts htracks hmoved hc _ k
  · rw [if_neg hj, if_neg (by omega)]

/-! ## Compaction -/

theorem opFrom_name (u : Attr) : u.opFrom typeName = u.op := by
  unfold Attr.opFrom
  split
  · rfl
  · rename_i h
    obtain ⟨hnoop, hfrom⟩ := not_or.mp h
    have hlo : ¬ tagTy u.tag < typeName := Nat.not_lt_zero _
    rw [tagOpFrom, if_neg hlo, Attr.op, if_neg hnoop]
    exact (if_neg hfrom).symm

/-- No scan over a log that a move copies from misses a splice, for the moves that are left of the
attributes and have their id in the range. -/
def NoMissedMove (log : List LogEntry) (attrs : List Attr) (begin stop : Nat) : Prop :=
  ∀ t ∈ scans typeName (log.map LogEntry.read ++ attrs), begin ≤ tagId t.1 → tagId t.1 < stop →
    tagType3 t.1 = fromMove → ∀ source, t.2 = .dir source → NoMissedSplice typeStruct source

theorem noMissedMove_of_forall {attrs : List Attr}
    (h : ∀ a ∈ attrs, ∀ source, a.buffer = .dir source → NoMissedSplice typeStruct source)
    (log : List LogEntry) (begin stop : Nat) : NoMissedMove log attrs begin stop := by
  intro t ht _ _ _ source hbuffer
  obtain ⟨pre, a, mid, hsplit, _, _, rfl⟩ := exists_of_mem_scans ht
  have ha : a ∈ log.map LogEntry.read ++ attrs := by
    rw [hsplit]
    exact List.mem_append_right _ (.head _)
  rcases List.mem_append.mp ha with ha | ha
  · obtain ⟨e, _, rfl⟩ := List.mem_map.mp ha
    cases hbuffer
  · exact h a ha source hbuffer

/-- What is compacted replays to the entries of the range, renumbered from zero. -/
def KeepsRange (log : List LogEntry) (attrs : List Attr) (begin stop : Nat) : Prop :=
  ∀ j k, replayLog (compactTags log attrs begin stop) j k =
    if begin + j < stop then replayWith log attrs (begin + j) k else none

/-- The scans of a log and the attributes behind it, when none misses a splice. -/
theorem tracks_of_counts {log : List LogEntry} {attrs : List Attr}
    (hcount : Counts first (log.map LogEntry.read ++ attrs) count) (hfirst : first < 0x3ff)
    (hvalid : ∀ a ∈ attrs, tagIsValid a.tag = true)
    (hremovals : attrs.Pairwise fun a b => IsFrom a.tag → tagSize b.tag ≠ 0x3ff)
    (hlog : NoMissedSplice typeName log) :
    ∃ P, KeyedLog.Compacts ((log.map LogEntry.read ++ attrs).map (Attr.opFrom typeName)) P ∧
      Tracks typeName (∃ a ∈ log.map LogEntry.read ++ attrs, IsFrom a.tag) count
        (scans typeName (log.map LogEntry.read ++ attrs)) P ∧ count < 0x3ff := by
  have hrem : (log.map LogEntry.read ++ attrs).Pairwise fun a b =>
      IsFrom a.tag → tagSize b.tag ≠ 0x3ff := by
    have hdisk : ∀ a ∈ log.map LogEntry.read, ¬ IsFrom a.tag := by
      intro a ha
      obtain ⟨e, _, rfl⟩ := List.mem_map.mp ha
      exact e.not_isFrom
    refine List.pairwise_append.mpr ⟨?_, hremovals, fun a ha _ _ h => absurd h (hdisk a ha)⟩
    exact List.pairwise_of_forall_mem_list fun a ha _ _ h => absurd h (hdisk a ha)
  exact tracks_items (.inl rfl) hcount hfirst
    (fun T u S hitems t ht => hlog.notMissed hvalid hitems ht) hrem fun _ _ _ => rfl

/-- Compaction keeps the directory when no scan misses a splice, whatever number of entries the
log is assumed to start from. -/
theorem keepsRange_of_counts {log : List LogEntry} {attrs : List Attr} {begin stop : Nat}
    (hcount : Counts first (log.map LogEntry.read ++ attrs) count) (hfirst : first < 0x3ff)
    (hvalid : ∀ a ∈ attrs, tagIsValid a.tag = true)
    (hremovals : attrs.Pairwise fun a b => IsFrom a.tag → tagSize b.tag ≠ 0x3ff)
    (hlog : NoMissedSplice typeName log) (hmoves : NoMissedMove log attrs begin stop) :
    KeepsRange log attrs begin stop := by
  intro j k
  obtain ⟨P, hcompacts, htracks, hlt⟩ := tracks_of_counts hcount hfirst hvalid hremovals hlog
  have htags : compactTags log attrs begin stop = emitted begin stop (traverseTag 1 (-begin))
      (scans typeName (log.map LogEntry.read ++ attrs)) :=
    traverseLoop_eq (by decide) passes_splice _
  have hw := htracks.written begin stop (-begin)
    (fun _ h => traverseTag_noop 1 _ h) fun t ht p hlive hb hs => by
      have hid := hlive.id
      have hidlt := hlive.lt
      by_cases hfrom : tagTy t.1 / 0x100 = 1
      · rcases (hlive.kind hfrom).2 with
          ⟨htype, source, hbuffer, _, hsource, hc⟩ | ⟨htype, list, hbuffer, hlength, _, hlen⟩
        · have hmiss := hmoves t ht (by omega) (by omega) htype source hbuffer
          exact hlive.writes_move htype hbuffer hsource hc hmiss (by omega) (by omega)
        · exact hlive.writes_userattrs htype hbuffer hlength hlen 1 (by omega) (by omega)
      · refine hlive.writes_direct (fun hf => hfrom ?_) 1 (by omega) (by omega)
        have hty := hf.ty
        rw [fromMove, fromUserattrs] at hty
        omega
  have hops : (log.map LogEntry.read ++ attrs).map (Attr.opFrom typeName) =
      (log.map LogEntry.read ++ attrs).map Attr.op :=
    List.map_congr_left fun u _ => opFrom_name u
  rw [htags, replayLog_eq hw.1, KeyedLog.read, hw.2, replayWith, ← hops, ← hcompacts.read,
    KeyedLog.read]
  have hshift : (j - (-begin : Int)).toNat = begin + j := by omega
  by_cases hj : begin + j < stop
  · rw [if_pos hj, if_pos (by omega), hshift]
  · rw [if_neg hj, if_neg (by omega)]
    rfl

/-- Compaction keeps the directory when no scan misses a splice. -/
theorem WellFormed.keepsRange (H : WellFormed log attrs) (hlog : NoMissedSplice typeName log)
    (hmoves : NoMissedMove log attrs begin stop) : KeepsRange log attrs begin stop := by
  obtain ⟨count, hcount⟩ := Option.isSome_iff_exists.mp H.count
  exact keepsRange_of_counts (counts_of_foldlM hcount) (by decide) H.attrs_valid H.removals hlog
    hmoves

/-! ## The ids that stand on disk -/

/-- The log as the filter reads it: a later tag of the same key and id on disk replaces a tag, a
delete takes the tags with its id, and no create or delete moves an id. -/
def unmoved : List LogEntry → List LogEntry
  | [] => []
  | e :: rest =>
    if tagTy e.tag / 0x100 * 0x100 = typeSplice ∨ ∃ e' ∈ rest, Supersedes e'.tag e.tag then
      unmoved rest
    else e :: unmoved rest

/-- An attribute that copies from the log as the filter reads it. -/
def Attr.unmoved (a : Attr) : Attr :=
  match a.buffer with
  | .dir log => ⟨a.tag, .dir (LittleFs.unmoved log)⟩
  | _ => a

theorem mem_of_mem_unmoved (h : e ∈ unmoved log) :
    e ∈ log ∧ tagTy e.tag / 0x100 * 0x100 ≠ typeSplice := by
  induction log with
  | nil => cases h
  | cons a log ih =>
    rw [unmoved] at h
    split at h
    · exact (ih h).imp_left (.tail _)
    · rcases List.mem_cons.mp h with rfl | h
      · exact ⟨.head _, fun hty => (‹¬ _› : ¬ (_ ∨ _)) (.inl hty)⟩
      · exact (ih h).imp_left (.tail _)

@[simp] theorem Attr.unmoved_tag (a : Attr) : a.unmoved.tag = a.tag := by
  unfold Attr.unmoved
  split <;> rfl

theorem Attr.unmoved_dir {a : Attr} (h : a.buffer = .dir log) :
    a.unmoved.buffer = .dir (LittleFs.unmoved log) := by
  simp only [Attr.unmoved, h]

theorem Attr.unmoved_eq {a : Attr} (h : ∀ log, a.buffer ≠ .dir log) : a.unmoved = a := by
  unfold Attr.unmoved
  split
  · exact absurd ‹_› (h _)
  · rfl

/-- On disk the scan drops a tag or leaves it alone. -/
theorem filterScan_onDisk (log : List LogEntry) (attrs : List Attr) (tag : Tag) :
    filterScan (log.map LogEntry.read ++ attrs) (tag ||| 0x80000000#32) =
      if ∃ e ∈ log, Supersedes e.tag tag then 0#32
      else filterScan attrs (tag ||| 0x80000000#32) := by
  induction log with
  | nil => exact (if_neg (by rintro ⟨_, h, _⟩; cases h)).symm
  | cons e log ih =>
    have hfrom := e.not_isFrom
    rw [IsFrom, not_or] at hfrom
    rw [List.map_cons, List.cons_append, filterScan, if_neg e.ne_noop, if_neg hfrom.1,
      if_neg hfrom.2]
    by_cases hs : Supersedes e.tag tag
    · have hfilter : dirTraverseFilter e.read.tag (tag ||| 0x80000000#32) = (0#32, true) :=
        dirTraverseFilter_of_supersedes (supersedes_read.mpr hs)
      rw [hfilter, if_pos ⟨e, .head _, hs⟩]
      rfl
    · have hfilter : dirTraverseFilter e.read.tag (tag ||| 0x80000000#32) =
          (tag ||| 0x80000000#32, false) :=
        dirTraverseFilter_of_disk (tagIsValid_read e.tag) (mt supersedes_read.mp hs)
      rw [hfilter]
      simp only [List.mem_cons, exists_eq_or_imp, hs, false_or]
      exact ih

theorem filterScan_unmoved (attrs : List Attr) (tag : Tag) :
    filterScan (attrs.map Attr.unmoved) tag = filterScan attrs tag := by
  induction attrs generalizing tag with
  | nil => rfl
  | cons a attrs ih =>
    simp only [List.map_cons, filterScan, Attr.unmoved_tag, ih]
    by_cases hdir : ∃ log, a.buffer = .dir log
    · obtain ⟨log, hdir⟩ := hdir
      rw [hdir, Attr.unmoved_dir hdir]
    · rw [Attr.unmoved_eq (not_exists.mp hdir)]

section
variable {lowest begin stop : Nat} {cb cb' : Tag → Buffer → List LogEntry}

/-- What is written for the attributes, when the callback reads their logs alike. -/
theorem emitted_attrs (hcb : ∀ a : Attr, ∀ tag, cb' tag a.unmoved.buffer = cb tag a.buffer)
    (attrs : List Attr) :
    emitted begin stop cb' (scans lowest (attrs.map Attr.unmoved)) =
      emitted begin stop cb (scans lowest attrs) := by
  induction attrs with
  | nil => rfl
  | cons a attrs ih =>
    simp only [emitted] at ih ⊢
    simp only [List.map_cons, scans, Attr.unmoved_tag, filterScan_unmoved]
    split
    · simp only [List.filter_cons]
      split
      · simp only [List.flatMap_cons, ih, hcb]
      · exact ih
    · exact ih

/-- What is written for a log is written for its tags that stand. -/
theorem emitted_unmoved (hcb : ∀ a : Attr, ∀ tag, cb' tag a.unmoved.buffer = cb tag a.buffer)
    (hnoop : ∀ tag buffer, tagType3 tag = fromNoop → cb tag buffer = []) (log : List LogEntry)
    (attrs : List Attr) :
    emitted begin stop cb' (scans lowest
        ((unmoved log).map LogEntry.read ++ attrs.map Attr.unmoved)) =
      emitted begin stop cb (scans lowest (log.map LogEntry.read ++ attrs)) := by
  induction log with
  | nil => exact emitted_attrs hcb attrs
  | cons e log ih =>
    simp only [emitted] at ih ⊢
    rw [List.map_cons, List.cons_append, scans, unmoved]
    by_cases hsplice : tagTy e.tag / 0x100 * 0x100 = typeSplice
    · have hty : ¬ (lowest ≤ tagTy e.read.tag ∧ tagTy e.read.tag < typeSplice) := by
        rw [LogEntry.read, tagTy_read]
        simp only [typeSplice] at *
        omega
      rw [if_neg hty, if_pos (.inl hsplice)]
      exact ih
    · by_cases hs : ∃ e' ∈ log, Supersedes e'.tag e.tag
      · rw [if_pos (.inr hs)]
        have hscan : filterScan (log.map LogEntry.read ++ attrs) e.read.tag = 0#32 :=
          (filterScan_onDisk log attrs e.tag).trans (if_pos hs)
        split
        · rw [hscan, List.filter_cons]
          split
          · rw [List.flatMap_cons, hnoop 0#32 _ rfl, List.nil_append]
            exact ih
          · exact ih
        · exact ih
      · have hs' : ¬ ∃ e' ∈ unmoved log, Supersedes e'.tag e.tag := by
          rintro ⟨e', he', h⟩
          exact hs ⟨e', (mem_of_mem_unmoved he').1, h⟩
        have hscan : filterScan ((unmoved log).map LogEntry.read ++ attrs.map Attr.unmoved)
            e.read.tag = filterScan (log.map LogEntry.read ++ attrs) e.read.tag := by
          rw [LogEntry.read, filterScan_onDisk, filterScan_onDisk, if_neg hs, if_neg hs',
            filterScan_unmoved]
        have hbuffer : ∀ tag, cb' tag e.read.buffer = cb tag e.read.buffer := fun tag =>
          hcb e.read tag
        rw [if_neg (not_or.mpr ⟨hsplice, hs⟩), List.map_cons, List.cons_append, scans, hscan]
        split
        · simp only [List.filter_cons]
          split
          · simp only [List.flatMap_cons, ih, hbuffer]
          · exact ih
        · exact ih

end

/-- A move copies the same tags from what stands of its source. -/
theorem traverseTag_unmoved (depth : Nat) (diff : Int) (a : Attr) (tag : Tag) :
    traverseTag depth diff tag a.unmoved.buffer = traverseTag depth diff tag a.buffer := by
  induction depth generalizing diff a tag with
  | zero =>
    by_cases hdir : ∃ log, a.buffer = .dir log
    · obtain ⟨log, hdir⟩ := hdir
      rw [hdir, Attr.unmoved_dir hdir]
      unfold traverseTag
      rfl
    · rw [Attr.unmoved_eq (not_exists.mp hdir)]
  | succ depth ih =>
    by_cases hdir : ∃ log, a.buffer = .dir log
    · obtain ⟨log, hdir⟩ := hdir
      rw [hdir, Attr.unmoved_dir hdir]
      have hloop : traverseLoop (mkTag typeTail 0x3ff 0) (mkTag typeStruct 0 0) (tagSize tag)
            (tagSize tag + 1) (traverseTag depth (tagId tag - tagSize tag + diff))
            ((unmoved log).map LogEntry.read) =
          traverseLoop (mkTag typeTail 0x3ff 0) (mkTag typeStruct 0 0) (tagSize tag)
            (tagSize tag + 1) (traverseTag depth (tagId tag - tagSize tag + diff))
            (log.map LogEntry.read) := by
        rw [traverseLoop_eq (by decide) passes_tail, traverseLoop_eq (by decide) passes_tail]
        simpa only [List.map_nil, List.append_nil] using emitted_unmoved (ih _)
          (fun tag' buffer h => traverseTag_noop depth _ (t := (tag', buffer)) h) log []
      rw [traverseTag.eq_def, traverseTag.eq_def (depth + 1)]
      simp only [hloop]
      rfl
    · rw [Attr.unmoved_eq (not_exists.mp hdir)]

theorem compactTags_unmoved (log : List LogEntry) (attrs : List Attr) (begin stop : Nat) :
    compactTags (unmoved log) (attrs.map Attr.unmoved) begin stop =
      compactTags log attrs begin stop := by
  rw [compactTags, compactTags, dirTraverse, dirTraverse, traverseLoop_eq (by decide) passes_splice,
    traverseLoop_eq (by decide) passes_splice]
  exact emitted_unmoved (traverseTag_unmoved 1 _)
    (fun tag buffer h => traverseTag_noop 1 _ (t := (tag, buffer)) h) log attrs

/-- At no time the directory holds so many entries that the attributes could not create as many
more as there are of them. -/
def HasRoom (log : List LogEntry) (attrs : List Attr) : Prop :=
  ∀ items ∈ (log.map LogEntry.read ++ attrs).inits,
    ∀ count ∈ items.foldlM (fun count a => a.count count) 0, count + attrs.length < 0x3ff

instance (log : List LogEntry) (attrs : List Attr) : Decidable (HasRoom log attrs) :=
  inferInstanceAs (Decidable (∀ items ∈ (log.map LogEntry.read ++ attrs).inits,
    ∀ count ∈ items.foldlM (fun count a => a.count count) 0, count + attrs.length < 0x3ff))

/-- Each entry of the log fits the directory that the entries before it leave. -/
theorem exists_tagCount (h : (logCount log).isSome) (he : e ∈ log) :
    tagIsValid e.tag = true ∧ ∃ pre ∈ log.inits, ∃ count ∈ logCount pre, ∃ pre' ∈ log.inits,
      ∃ count' ∈ logCount pre', tagCount e.tag count = some count' := by
  obtain ⟨last, hlast⟩ := Option.isSome_iff_exists.mp h
  clear h
  induction log using List.reverseRecOn generalizing last with
  | nil => cases he
  | append_singleton log a ih =>
    obtain ⟨count, hcount, hvalid, htag⟩ := (logCount_append_singleton log a last).mp hlast
    simp only [List.mem_inits]
    rcases List.mem_append.mp he with he | he
    · obtain ⟨hvalid, pre, hpre, c, hc, pre', hpre', h⟩ := ih he count hcount
      rw [List.mem_inits] at hpre hpre'
      exact ⟨hvalid, pre, hpre.trans (List.prefix_append ..), c, hc, pre',
        hpre'.trans (List.prefix_append ..), h⟩
    · cases List.mem_singleton.mp he
      exact ⟨hvalid, log, List.prefix_append .., count, hcount, _, List.prefix_rfl, last, hlast,
        htag⟩

/-- A tag that moves no id fits a larger directory, and leaves it as it is. -/
theorem tagCount_of_le (h : tagCount tag count = some count')
    (hty : tagTy tag / 0x100 * 0x100 ≠ typeSplice) (hle : count ≤ first) (hle' : count' ≤ first) :
    tagCount tag first = some first := by
  unfold tagCount at h ⊢
  simp only [typeCreate, typeDelete, typeSplice, typeFrom, typeStruct, typeCrc] at *
  grind

theorem counts_unmoved (hlog : (logCount log).isSome)
    (hfirst : ∀ pre ∈ log.inits, ∀ count ∈ logCount pre, count ≤ first) :
    ∀ e ∈ unmoved log, tagIsValid e.tag = true ∧ tagCount e.tag first = some first := by
  intro e he
  obtain ⟨hmem, hty⟩ := mem_of_mem_unmoved he
  obtain ⟨hvalid, pre, hpre, count, hcount, pre', hpre', count', hcount', htag⟩ :=
    exists_tagCount hlog hmem
  exact ⟨hvalid, tagCount_of_le htag hty (hfirst pre hpre count hcount)
    (hfirst pre' hpre' count' hcount')⟩

theorem foldlM_same {log : List LogEntry} {f : Nat → LogEntry → Option Nat}
    (h : ∀ e ∈ log, f first e = some first) :
    log.foldlM f first = some first := by
  induction log with
  | nil => rfl
  | cons e log ih =>
    rw [List.foldlM_cons, h e (.head _)]
    exact ih fun e he => h e (.tail _ he)

theorem foldlM_unmoved (hlog : (logCount log).isSome)
    (hfirst : ∀ pre ∈ log.inits, ∀ count ∈ logCount pre, count ≤ first) :
    (unmoved log).foldlM (fun count e =>
      if tagIsValid e.tag then tagCount e.tag count else none) first = some first := by
  refine foldlM_same fun e he => ?_
  obtain ⟨hvalid, htag⟩ := counts_unmoved hlog hfirst e he
  rw [if_pos hvalid, htag]

/-- What stands of the source of a move is itself a source of a move. -/
theorem counted_unmoved (hlog : (logCount log).isSome) : Counted (unmoved log) := by
  refine ⟨0x3fe, by decide, ?_⟩
  rw [foldlM_unmoved hlog fun pre _ count hcount => ?_]
  · rfl
  · have := logCount_lt hcount
    omega

theorem committed_unmoved (hc : Committed log) : Committed (unmoved log) := by
  induction log using List.reverseRecOn with
  | nil => exact hc
  | append_singleton log e _ =>
    have hcrc := hc e (by simp)
    have hlast : ∀ log : List LogEntry, (unmoved (log ++ [e])).getLast? = some e := by
      intro log
      induction log with
      | nil =>
        rw [List.nil_append, unmoved, if_neg]
        · rfl
        · rintro (hty | ⟨_, h, _⟩)
          · rw [hcrc] at hty
            cases hty
          · cases h
      | cons a log ih =>
        rw [List.cons_append, unmoved]
        split
        · exact ih
        · rw [List.getLast?_cons, ih]
          rfl
    intro e' he'
    rw [hlast] at he'
    cases he'
    exact hcrc

theorem missesSplice_of_forall {log : List LogEntry}
    (h : ∀ e ∈ log, tagTy e.tag / 0x100 * 0x100 ≠ typeSplice) (tag : Tag) :
    missesSplice tag log = false := by
  induction log with
  | nil => rfl
  | cons e log ih =>
    obtain ⟨he, hlog⟩ := List.forall_mem_cons.mp h
    rw [missesSplice, ih hlog, beq_false_of_ne he]
    split <;> rfl

theorem noMissedSplice_of_forall {log : List LogEntry}
    (h : ∀ e ∈ log, tagTy e.tag / 0x100 * 0x100 ≠ typeSplice) : NoMissedSplice lowest log := by
  induction log with
  | nil => trivial
  | cons e log ih =>
    obtain ⟨_, hlog⟩ := List.forall_mem_cons.mp h
    exact ⟨fun _ => missesSplice_of_forall hlog e.tag, ih hlog⟩

theorem noMissedSplice_unmoved (lowest : Nat) (log : List LogEntry) :
    NoMissedSplice lowest (unmoved log) :=
  noMissedSplice_of_forall fun _ he => (mem_of_mem_unmoved he).2

theorem source_of_count {u : Attr} (h : u.count count = some count')
    (htype : tagType3 u.tag = fromMove) (hbuffer : u.buffer = .dir log) :
    (logCount log).isSome := by
  have hvalid : tagIsValid u.tag = true := IsFrom.valid (.inl htype)
  rw [Attr.count, if_neg (by rw [hvalid]; decide), if_neg (by rw [htype]; decide), if_pos htype,
    hbuffer] at h
  exact (Option.ite_none_right_eq_some.mp h).1.2.2.1

/-- An item fits a directory with more entries too, also when its move copies from what stands of
the source. -/
theorem itemKind_unmoved {u : Attr} (h : u.count count = some count') (hle : count ≤ more)
    (hroom : more + 1 < 0x3ff) :
    ∃ more', ItemKind u.unmoved more more' ∧ count' ≤ more' ∧ more' ≤ max (more + 1) count' := by
  cases itemKind_of_count h with
  | noop htype hvalid hid =>
    exact ⟨more, .noop (by rwa [u.unmoved_tag]) (by rwa [u.unmoved_tag])
      (by rw [u.unmoved_tag]; omega), hle, by omega⟩
  | move htype hbuffer hid hsize _ hc =>
    exact ⟨more, .move (by rwa [u.unmoved_tag]) (Attr.unmoved_dir hbuffer)
      (by rw [u.unmoved_tag]; omega) (by rwa [u.unmoved_tag])
      (counted_unmoved (source_of_count h htype hbuffer)) (committed_unmoved hc), hle, by omega⟩
  | userattrs htype hbuffer hid hlength hsize hlen =>
    rw [Attr.unmoved_eq (by rw [hbuffer]; exact fun _ h => nomatch h)]
    exact ⟨more, .userattrs htype hbuffer (by omega) hlength hsize hlen, hle, by omega⟩
  | direct hfrom hnoop hcount =>
    obtain ⟨more', hmore, hle', hlt⟩ : ∃ more', tagCount u.tag more = some more' ∧
        count' ≤ more' ∧ more' ≤ max (more + 1) count' := by
      unfold tagCount at hcount ⊢
      grind
    exact ⟨more', .direct (by rwa [u.unmoved_tag]) (by rwa [u.unmoved_tag])
      (by rwa [u.unmoved_tag]), hle', hlt⟩

theorem counts_attrs {attrs : List Attr} (hle : count ≤ more)
    (hroom : more + attrs.length < 0x3ff)
    (hpre : ∀ pre, pre <+: attrs → ∀ c, pre.foldlM (fun count a => a.count count) count = some c →
      c ≤ more)
    (h : attrs.foldlM (fun count a => a.count count) count = some count') :
    ∃ more', Counts more (attrs.map Attr.unmoved) more' ∧ count' ≤ more' ∧
      more' ≤ more + attrs.length := by
  induction attrs using List.reverseRecOn generalizing count' with
  | nil =>
    cases h
    exact ⟨more, .nil, hle, Nat.le_refl _⟩
  | append_singleton T u ih =>
    have hlast := hpre _ List.prefix_rfl _ h
    rw [List.length_append, List.length_singleton] at hroom ⊢
    rw [List.foldlM_append, Option.bind_eq_bind, Option.bind_eq_some_iff] at h
    obtain ⟨mid, hmid, hu⟩ := h
    rw [List.foldlM_cons, Option.bind_eq_bind, Option.bind_eq_some_iff] at hu
    obtain ⟨_, hu, hrfl⟩ := hu
    cases hrfl
    obtain ⟨more₁, hcounts, hle₁, hlt₁⟩ := ih (by omega)
      (fun pre hp => hpre pre (hp.trans (List.prefix_append ..))) hmid
    obtain ⟨more', hmore, hle₂, hlt₂⟩ := itemKind_unmoved hu hle₁ (by omega)
    rw [List.map_append, List.map_singleton]
    exact ⟨more', .snoc hcounts hmore, hle₂, by omega⟩

theorem Counts.append (H : Counts first items count) (H' : Counts count items' count') :
    Counts first (items ++ items') count' := by
  induction H' with
  | nil => rwa [List.append_nil]
  | snoc _ hk ih =>
    rw [← List.append_assoc]
    exact .snoc ih hk

theorem foldlM_read_of_valid {log : List LogEntry} (h : ∀ e ∈ log, tagIsValid e.tag = true)
    (hcount : (log.map LogEntry.read).foldlM (fun count a => a.count count) c = some count) :
    log.foldlM (fun count e => if tagIsValid e.tag then tagCount e.tag count else none) c =
      some count := by
  induction log generalizing c with
  | nil => exact hcount
  | cons e log ih =>
    obtain ⟨he, hlog⟩ := List.forall_mem_cons.mp h
    rw [List.map_cons, List.foldlM_cons, Option.bind_eq_bind, Option.bind_eq_some_iff] at hcount
    obtain ⟨c', hc, hrest⟩ := hcount
    rw [List.foldlM_cons, if_pos he, ← e.count_read, hc]
    exact ih hlog hrest

/-- What stands on disk has an entry count of its own, which leaves the same attributes room. -/
theorem WellFormed.counts_unmoved (H : WellFormed log attrs) (hroom : HasRoom log attrs) :
    ∃ first < 0x3ff, ∃ last,
      Counts first ((unmoved log).map LogEntry.read ++ attrs.map Attr.unmoved) last := by
  obtain ⟨last, hlast⟩ := Option.isSome_iff_exists.mp H.count
  rw [countWith, List.foldlM_append, Option.bind_eq_bind, Option.bind_eq_some_iff] at hlast
  obtain ⟨count, hcount, hattrs⟩ := hlast
  have hlog := foldlM_read_of_valid H.log_valid hcount
  have hzero := hroom [] (by simp) 0 rfl
  have hprelog : ∀ pre ∈ log.inits, ∀ c ∈ logCount pre, c ≤ 0x3fe - attrs.length := by
    intro pre hpre c hc
    have := hroom (pre.map LogEntry.read) ?_ c (foldlM_read hc)
    · omega
    · rw [List.mem_inits] at hpre ⊢
      exact (hpre.map _).trans (List.prefix_append ..)
  have hpreattrs : ∀ pre, pre <+: attrs →
      ∀ c, pre.foldlM (fun count a => a.count count) count = some c → c ≤ 0x3fe - attrs.length := by
    intro pre hpre c hc
    have := hroom (log.map LogEntry.read ++ pre) ?_ c ?_
    · omega
    · rw [List.mem_inits]
      exact (List.prefix_append_right_inj _).mpr hpre
    · rw [List.foldlM_append, hcount]
      exact hc
  have hdisk := foldlM_read (foldlM_unmoved (Option.isSome_of_eq_some hlog) hprelog)
  obtain ⟨last', hlast', _⟩ := counts_attrs
    (hprelog log (by rw [List.mem_inits]) count hlog) (by omega) hpreattrs hattrs
  exact ⟨_, by omega, last', (counts_of_foldlM hdisk).append hlast'⟩

/-- **What compaction writes** replays to the range of what stands on disk and the attributes. -/
theorem WellFormed.keepsRange_unmoved (H : WellFormed log attrs) (hroom : HasRoom log attrs)
    (begin stop : Nat) : KeepsRange (unmoved log) (attrs.map Attr.unmoved) begin stop := by
  obtain ⟨first, hfirst, last, hcount⟩ := H.counts_unmoved hroom
  refine keepsRange_of_counts hcount hfirst ?_ ?_ (noMissedSplice_unmoved _ _) ?_
  · rw [List.forall_mem_map]
    exact fun a ha => (a.unmoved_tag ▸ H.attrs_valid a ha)
  · rw [List.pairwise_map]
    simpa only [Attr.unmoved_tag] using H.removals
  · refine noMissedMove_of_forall (fun a ha source hbuffer => ?_) _ begin stop
    obtain ⟨b, _, rfl⟩ := List.mem_map.mp ha
    by_cases hdir : ∃ log, b.buffer = .dir log
    · obtain ⟨log, hdir⟩ := hdir
      rw [Attr.unmoved_dir hdir] at hbuffer
      cases hbuffer
      exact noMissedSplice_unmoved _ _
    · rw [Attr.unmoved_eq (not_exists.mp hdir)] at hbuffer
      exact absurd ⟨source, hbuffer⟩ hdir

/-- **Compaction keeps the directory** exactly when the ids that stand on disk are those of the
entries, and so it does when no scan misses a splice. -/
theorem compact_replay (log : List LogEntry) (attrs : List Attr) (begin stop : Nat)
    (hwf : WellFormed log attrs) :
    (HasRoom log attrs → (KeepsRange log attrs begin stop ↔
      ∀ i, begin ≤ i → i < stop → ∀ k,
        replayWith (unmoved log) (attrs.map Attr.unmoved) i k = replayWith log attrs i k)) ∧
    (NoMissedSplice typeName log → NoMissedMove log attrs begin stop →
      KeepsRange log attrs begin stop) := by
  refine ⟨fun hroom => ?_, hwf.keepsRange⟩
  have hstands := hwf.keepsRange_unmoved hroom begin stop
  rw [KeepsRange, compactTags_unmoved] at hstands
  refine ⟨fun h i hlo hhi k => ?_, fun h j k => ?_⟩
  · have hleft := hstands (i - begin) k
    rw [h (i - begin) k, Nat.add_sub_cancel' hlo, if_pos hhi, if_pos hhi] at hleft
    exact hleft.symm
  · rw [hstands j k]
    by_cases hj : begin + j < stop
    · rw [if_pos hj, if_pos hj]
      exact h _ (by omega) hj k
    · rw [if_neg hj, if_neg hj]

/-! ## Two files in one directory -/

/-- The commit that creates a file of one byte with the inline data `value`. -/
def createFile (id : Nat) (name value : UInt8) : List LogEntry :=
  [⟨mkTag typeCreate id 0, []⟩, ⟨mkTag typeReg id 1, [name]⟩,
   ⟨mkTag typeInlinestruct id 1, [value]⟩, ⟨mkTag typeCrc 0x3ff 4, [0, 0, 0, 0]⟩]

/-- File `b` is created, then file `a` before it. -/
def insertedLog : List LogEntry := createFile 0 98 2 ++ createFile 0 97 1

/-- File `a` is created, then file `b` behind it. -/
def appendedLog : List LogEntry := createFile 0 97 1 ++ createFile 1 98 2

theorem insertedLog_wellFormed : WellFormed insertedLog [] :=
  ⟨by decide, by decide, by decide, .nil⟩

/-- Compaction loses file `b`: its tags are taken for older versions of those of file `a`. -/
theorem compact_replay_fails :
    ¬ ∀ (log : List LogEntry) (attrs : List Attr) (begin stop : Nat), WellFormed log attrs →
      ∀ j k, replayLog (compactTags log attrs begin stop) j k =
        if begin + j < stop then replayWith log attrs (begin + j) k else none := by
  intro h
  have hlost := h insertedLog [] 0 2 insertedLog_wellFormed 1 typeName
  exact absurd hlost (by decide)

/-- File `a` is renamed to `c` behind `b`, in one commit that compacts. -/
def renameAttrs : List Attr :=
  [⟨mkTag fromNoop 0 0, .null⟩, ⟨mkTag typeCreate 2 0, .null⟩, ⟨mkTag typeReg 2 1, .data [99]⟩,
   ⟨mkTag fromMove 2 0, .dir appendedLog⟩, ⟨mkTag typeDelete 0 0, .null⟩]

theorem compact_replay_renamed :
    KeepsRange appendedLog renameAttrs 0 2 ∧ ∀ i, 0 ≤ i → i < 2 → ∀ k,
      replayWith (unmoved appendedLog) (renameAttrs.map Attr.unmoved) i k =
        replayWith appendedLog renameAttrs i k := by
  obtain ⟨hiff, hsplice⟩ := compact_replay appendedLog renameAttrs 0 2
    ⟨by decide, by decide, by decide +kernel, by decide⟩
  have hmoves : NoMissedMove appendedLog renameAttrs 0 2 := by
    intro t ht _ _ hmove source hbuffer
    have hsource : ∀ t ∈ scans typeName (appendedLog.map LogEntry.read ++ renameAttrs),
        tagType3 t.1 = fromMove → t.2 = .dir appendedLog := by decide +kernel
    rw [hsource t ht hmove] at hbuffer
    cases hbuffer
    decide
  have hcompacted := hsplice (by decide) hmoves
  exact ⟨hcompacted, (hiff (by decide +kernel)).mp hcompacted⟩

end LittleFs
