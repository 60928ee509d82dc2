import LittleFs.CommitFetch
import Mathlib.Logic.Function.Basic

/-! A fetch behind an append: it finds the tags of the old log and those of the commit, and counts
the entries, the tail and the split flag from the tags as the commit counts them from its
attributes. -/

namespace LittleFs

open ByteImage (AgreeBelow)

/-! ## Attribute lists -/

/-- An attribute for a directory of `count` entries: a name has an entry, a splice is a create or a
delete, nothing is taken for a checksum, and a tail pointer is whole. -/
structure Attr.Fits (count : Nat) (a : Attr) : Prop where
  valid : tagIsValid a.tag = true
  name : tagType1 a.tag = typeName → tagType3 a.tag ≠ fromNoop → tagId a.tag < count
  splice : tagType1 a.tag = typeSplice →
    tagType3 a.tag = typeCreate ∨ tagType3 a.tag = typeDelete
  crc : tagType1 a.tag ≠ typeCrc
  tail : tagType1 a.tag = typeTail → 20 ≤ tagDsize a.tag
  userattrs : ∀ attrs, a.buffer = .userattrs attrs → ∀ u ∈ attrs, u.buffer.length < 2 ^ 10

/-- The attributes fit one by one. -/
def AttrsFit : FetchedDir → List Attr → Prop
  | _, [] => True
  | dir, a :: attrs => a.Fits dir.count ∧ ∀ dir' ∈ dir.change a, AttrsFit dir' attrs

/-- The tags of the log without the checksums. -/
def FetchedDir.tags (dir : FetchedDir) : List LogEntry :=
  dir.log.filter fun e => tagType1 e.tag ≠ typeCrc

/-- `d` has what `dir'` says, and behind the tags of `dir` it has those of `entries`. -/
structure FetchedDir.Agrees (d dir dir' : FetchedDir) (entries : List LogEntry) : Prop where
  pair : d.pair = dir'.pair
  revision : d.revision = dir'.revision
  offset : d.offset = dir'.offset
  etag : d.etag = dir'.etag
  count : d.count = dir'.count
  split : d.split = dir'.split
  tail : d.tail = dir'.tail
  tags : d.tags = dir.tags ++ entries.map LogEntry.stored

/-! ## Counting from tags and from attributes -/

/-- The scan has found what the directory says. -/
structure FetchedDir.Mirrors (d : FetchedDir) (t : FetchScan) : Prop where
  count : t.count = d.count
  lt : t.count < 2 ^ 16
  tail : t.tail = d.tail
  split : t.split = d.split

theorem FetchScan.modify_count_lt {t : FetchScan} (h : t.count < 2 ^ 16) (e : LogEntry) :
    (t.modify e).count < 2 ^ 16 := by
  have hid := tagId_lt e.tag
  have hmod : ((t.count + tagSplice e.tag) % 2 ^ 16).toNat < 2 ^ 16 := by omega
  rw [FetchScan.modify]
  split
  · dsimp only
    split <;> omega
  · split
    · exact hmod
    · split <;> exact h

theorem TagScan.Reads.count_lt {s s' : TagScan} (H : s.Reads cfg block s')
    (h : s.temp.count < 2 ^ 16) : s'.temp.count < 2 ^ 16 := by
  cases H with
  | crc => exact h
  | tail => exact FetchScan.modify_count_lt h _
  | other => exact FetchScan.modify_count_lt h _

theorem TagScan.Reaches.count_lt {s s' : TagScan} (H : s.Reaches cfg block s')
    (h : s.temp.count < 2 ^ 16) : s'.temp.count < 2 ^ 16 := by
  induction H with
  | refl => exact h
  | tail _ hreads ih => exact hreads.count_lt ih

/-- A tag that the scan passes over: a struct, a user attribute or a piece of global state. -/
def LogEntry.Silent (e : LogEntry) : Prop :=
  tagTy e.tag / 2 ^ 8 = 2 ∨ tagTy e.tag / 2 ^ 8 = 3 ∨ tagTy e.tag / 2 ^ 8 = 7

theorem LogEntry.Silent.plain {e : LogEntry} (h : e.Silent) : e.Plain := by
  rw [LogEntry.Silent] at h
  exact ⟨by omega, fun h6 => absurd h6 (by omega)⟩

theorem FetchScan.modify_silent (t : FetchScan) {e : LogEntry} (h : e.Silent) :
    t.modify e.stored = t := by
  have htype := stored_tagType1 e
  rw [LogEntry.Silent] at h
  rw [FetchScan.modify, htype, if_neg (by rw [typeName]; omega), if_neg (by rw [typeSplice]; omega),
    if_neg (by rw [typeTail]; omega)]

theorem foldl_modify_silent (t : FetchScan) {es : List LogEntry} (h : ∀ e ∈ es, e.Silent) :
    (es.map LogEntry.stored).foldl FetchScan.modify t = t := by
  induction es with
  | nil => rfl
  | cons e es ih =>
    obtain ⟨he, hes⟩ := List.forall_mem_cons.mp h
    rw [List.map_cons, List.foldl_cons, FetchScan.modify_silent t he, ih hes]

/-- The tag of a struct or a user attribute. -/
def IsValue (tag : Tag) : Prop := typeStruct ≤ tagTy tag ∧ tagTy tag < typeSplice

theorem IsValue.silent {e : LogEntry} (h : IsValue e.tag) : e.Silent := by
  simp only [IsValue, typeStruct, typeSplice] at h
  rw [LogEntry.Silent]
  omega

/-- A tag that was read back is written with its id moved. -/
theorem traverseTag_disk {tag : Tag} (h : tagIsValid tag = false) (depth : Nat) (diff : Int)
    (buffer : Buffer) : traverseTag depth diff tag buffer =
      [⟨tag + idShift diff, buffer.bytes⟩] := by
  have htype := tagType3_of_invalid h
  have hnoop : tagType3 tag ≠ fromNoop := by rw [fromNoop]; omega
  have hfrom : ¬ IsFrom tag := by
    rw [IsFrom, fromMove, fromUserattrs]
    omega
  exact traverseTag_shifted hfrom hnoop depth diff buffer

theorem IsValue.mem_disk {items : List Attr} (hdisk : ∀ a ∈ items, tagIsValid a.tag = false)
    (ht : t ∈ scans typeStruct items) {diff : Int} (hlo : 0 ≤ tagId t.1 + diff)
    (hhi : tagId t.1 + diff < 2 ^ 10) (he : e ∈ traverseTag depth diff t.1 t.2) :
    IsValue e.tag := by
  obtain ⟨pre, a, mid, rfl, hlow, hhigh, rfl⟩ := exists_of_mem_scans ht
  have ha := hdisk a (List.mem_append_right _ (.head _))
  dsimp only at hlo hhi he
  rcases filterScan_disk mid (fun b hb => hdisk b (List.mem_append_right _ (.tail _ hb))) a.tag
    with h | h <;> rw [h] at hlo hhi he
  · rw [traverseTag_disk ha, List.mem_singleton] at he
    subst he
    have hty := (sameButId_add_idShift a.tag hlo hhi).ty
    exact ⟨by rw [hty]; exact hlow, by rw [hty]; exact hhigh⟩
  · have hnoop := traverseTag_noop depth diff (t := ((0#32 : Tag), a.buffer))
      (show tagType3 0#32 = fromNoop by decide)
    rw [hnoop] at he
    cases he

theorem IsValue.mem_move (htype : tagType3 tag = fromMove)
    (he : e ∈ traverseTag 1 0 tag buffer) : IsValue e.tag := by
  rw [traverseTag.eq_def] at he
  simp only [htype, show ¬ fromMove = fromNoop by decide, ↓reduceIte] at he
  split at he
  · rename_i log _
    rw [traverseLoop_eq (by decide) passes_tail, emitted, List.mem_flatMap] at he
    obtain ⟨t, ht, he⟩ := he
    obtain ⟨ht, hrange⟩ := List.mem_filter.mp ht
    have hid := tagId_lt tag
    rw [decide_eq_true_iff] at hrange
    refine IsValue.mem_disk (fun a ha => ?_) ht (by omega) (by omega) he
    obtain ⟨e, -, rfl⟩ := List.mem_map.mp ha
    exact tagIsValid_or e.tag
  · cases he

theorem IsValue.mem_userattrs (htype : tagType3 tag = fromUserattrs)
    (hlen : ∀ attrs, buffer = .userattrs attrs → ∀ u ∈ attrs, u.buffer.length < 2 ^ 10)
    (he : e ∈ traverseTag 1 0 tag buffer) : IsValue e.tag := by
  rw [traverseTag.eq_def] at he
  simp only [htype, show ¬ fromUserattrs = fromNoop by decide,
    show ¬ fromUserattrs = fromMove by decide, ↓reduceIte] at he
  split at he
  · rename_i attrs
    obtain ⟨u, hu, rfl⟩ := List.mem_map.mp he
    have hid := tagId_lt tag
    have hty := (u.tag_fields (i := (tagId tag + 0 : Int).toNat) (by omega)
      (hlen attrs rfl u (List.mem_of_mem_take hu))).1
    have htype := u.type.toNat_lt
    exact ⟨by rw [hty]; simp only [typeUserattr, typeStruct]; omega,
      by rw [hty]; simp only [typeUserattr, typeSplice]; omega⟩
  · cases he

/-- The tags that an attribute writes. -/
def Attr.written (a : Attr) : List LogEntry := traverseTag 1 0 a.tag a.buffer

theorem appendEntries_eq (attrs : List Attr) :
    dirTraverse [] attrs 0#32 0#32 0 0 0 = attrs.flatMap Attr.written := dirTraverse_nil attrs

theorem stored_tag_of_valid {e : LogEntry} (h : tagIsValid e.tag = true) :
    e.stored.tag = e.tag := by
  have hlt := (tagIsValid_iff e.tag).mp h
  rw [← BitVec.toNat_inj, stored_tag_toNat, Nat.mod_eq_of_lt hlt]

/-- The cases of an attribute. -/
inductive Attr.Writes (a : Attr) : Prop where
  | silent (hname : ¬ tagType3 a.tag ≠ fromNoop ∨ tagType1 a.tag = typeFrom)
    (hsilent : ∀ e ∈ a.written, e.Silent) : a.Writes
  | direct (hnoop : tagType3 a.tag ≠ fromNoop) (hwritten : a.written = [⟨a.tag, a.buffer.bytes⟩]) :
    a.Writes

theorem Attr.Fits.writes {a : Attr} (H : a.Fits n) : a.Writes := by
  have htype3 := tagType3_of_valid H.valid
  have htype1 := tagType1_of_valid H.valid
  by_cases hnoop : tagType3 a.tag = fromNoop
  · refine .silent (.inl (not_not.mpr hnoop)) fun e he => ?_
    rw [Attr.written, traverseTag_noop 1 0 (t := (a.tag, a.buffer)) hnoop] at he
    cases he
  by_cases hmove : tagType3 a.tag = fromMove
  · refine .silent (.inr ?_) fun e he => (IsValue.mem_move hmove he).silent
    rw [htype1, ← htype3, hmove]
    rfl
  by_cases huser : tagType3 a.tag = fromUserattrs
  · refine .silent (.inr ?_) fun e he =>
      (IsValue.mem_userattrs huser H.userattrs he).silent
    rw [htype1, ← htype3, huser]
    rfl
  · exact .direct hnoop (traverseTag_direct hnoop (not_or.mpr ⟨hmove, huser⟩))

theorem Attr.Fits.plain {a : Attr} (H : a.Fits n) : ∀ e ∈ a.written, e.Plain := by
  intro e he
  cases H.writes with
  | silent _ hsilent => exact (hsilent e he).plain
  | direct _ hwritten =>
    rw [hwritten, List.mem_singleton] at he
    subst he
    have htype1 := tagType1_of_valid H.valid
    refine ⟨fun h => H.crc ?_, fun h => H.tail ?_⟩
    · rw [htype1, h]
      rfl
    · rw [htype1, h]
      rfl

/-- What an attribute does to the directory is what its tags do to the scan. -/
theorem FetchedDir.Mirrors.change {d d' : FetchedDir} (H : d.Mirrors t) (ha : a.Fits d.count)
    (h : d.change a = some d') :
    d'.Mirrors ((a.written.map LogEntry.stored).foldl FetchScan.modify t) := by
  have htype3 := tagType3_of_valid ha.valid
  have htype1 := tagType1_of_valid ha.valid
  have hlt := H.lt
  have hcount := H.count
  cases ha.writes with
  | silent hname hsilent =>
    have hty : tagTy a.tag / 2 ^ 8 ≤ 1 := by
      rcases hname with hname | hname
      · rw [not_not, htype3, fromNoop] at hname
        omega
      · rw [htype1, typeFrom] at hname
        omega
    rw [FetchedDir.change, htype3, htype1, if_neg (by rw [typeCreate]; omega),
      if_neg (by rw [typeDelete]; omega), if_neg (by rw [typeTail]; omega)] at h
    cases h
    rw [foldl_modify_silent t hsilent]
    exact H
  | direct hnoop hwritten =>
    have htag : (LogEntry.mk a.tag a.buffer.bytes).stored.tag = a.tag :=
      stored_tag_of_valid ha.valid
    rw [hwritten, List.map_singleton, List.foldl_cons, List.foldl_nil]
    rw [FetchedDir.change] at h
    split at h
    · rename_i hcreate
      have hty := htype3.symm.trans hcreate
      cases h
      rw [FetchScan.modify_splice t (by rw [htag]; exact ha.valid) (by rw [htag, hty]; rfl), htag,
        tagSplice_create hty]
      have hnew : ((t.count + 1 : Int) % 2 ^ 16).toNat = (d.count + 1) % 2 ^ 16 := by omega
      exact ⟨hnew, by change ((t.count + 1 : Int) % 2 ^ 16).toNat < _; omega, H.tail, H.split⟩
    · split at h
      · rename_i hdelete
        have hty := htype3.symm.trans hdelete
        obtain ⟨hpos, h⟩ := Option.ite_none_right_eq_some.mp h
        cases h
        rw [FetchScan.modify_splice t (by rw [htag]; exact ha.valid) (by rw [htag, hty]; rfl), htag,
          tagSplice_delete hty]
        have hnew : ((t.count + -1 : Int) % 2 ^ 16).toNat = d.count - 1 := by omega
        exact ⟨hnew, by change ((t.count + -1 : Int) % 2 ^ 16).toNat < _; omega, H.tail, H.split⟩
      · have hsplice : tagType1 a.tag ≠ typeSplice := fun hs => by
          rcases ha.splice hs with h1 | h1 <;> contradiction
        rw [FetchScan.modify, htag, if_neg hsplice]
        split at h
        · rename_i htail
          cases h
          have hdsize := ha.tail htail
          rw [htail, if_neg (by decide), if_pos rfl]
          refine ⟨hcount, hlt, ?_, rfl⟩
          exact pairFromLe64_take a.buffer.bytes (show 16 ≤ tagDsize a.tag - 4 by omega)
        · rename_i htail
          cases h
          rw [if_neg htail]
          split
          · rename_i hname
            have hid := ha.name hname hnoop
            rw [if_neg (by omega)]
            exact H
          · exact H

theorem FetchedDir.change_place {d d' : FetchedDir} (h : d.change a = some d') :
    d'.pair = d.pair ∧ d'.revision = d.revision := by
  rw [FetchedDir.change] at h
  split at h
  · cases h
    exact ⟨rfl, rfl⟩
  · split at h
    · obtain ⟨-, h⟩ := Option.ite_none_right_eq_some.mp h
      cases h
      exact ⟨rfl, rfl⟩
    · split at h <;> cases h <;> exact ⟨rfl, rfl⟩

/-- What a list of attributes does to the directory. -/
theorem FetchedDir.Mirrors.changes {d d' : FetchedDir} (H : d.Mirrors t) (hfit : AttrsFit d attrs)
    (h : attrs.foldlM FetchedDir.change d = some d') :
    d'.Mirrors (((attrs.flatMap Attr.written).map LogEntry.stored).foldl FetchScan.modify t) ∧
      (∀ e ∈ attrs.flatMap Attr.written, e.Plain) ∧ d'.pair = d.pair ∧
        d'.revision = d.revision := by
  induction attrs generalizing d t with
  | nil =>
    cases h
    exact ⟨H, fun e he => absurd he List.not_mem_nil, rfl, rfl⟩
  | cons a attrs ih =>
    rw [List.foldlM_cons, Option.bind_eq_bind, Option.bind_eq_some_iff] at h
    obtain ⟨d₁, hchange, h⟩ := h
    obtain ⟨ha, hfit⟩ := hfit
    obtain ⟨hpair, hrevision⟩ := FetchedDir.change_place hchange
    obtain ⟨H', hplain, hpair', hrevision'⟩ := ih (H.change ha hchange) (hfit d₁ hchange) h
    refine ⟨?_, fun e he => ?_, hpair'.trans hpair, hrevision'.trans hrevision⟩
    · rw [List.flatMap_cons, List.map_append, List.foldl_append]
      exact H'
    · rw [List.flatMap_cons] at he
      exact (List.mem_append.mp he).elim (ha.plain e) (hplain e)

theorem gstateEntries_silent (h : gstateEntries fs dir = some es) : ∀ e ∈ es, e.Silent := by
  rw [gstateEntries] at h
  split at h
  · cases h
    exact fun e he => absurd he List.not_mem_nil
  · obtain ⟨delta, -, rfl⟩ := Option.map_eq_some_iff.mp h
    intro e he
    rw [List.mem_singleton.mp he]
    exact .inr (.inr (show tagTy (mkTag typeMovestate 0x3ff 24) / 2 ^ 8 = 7 by decide))

/-! ## The fetch behind an append -/

section
variable {cfg : DiskConfig} {disk disk' : Nat → ByteImage.Image} {dir dir' : FetchedDir}

/-- The steps of an append. -/
structure Appends (cfg : DiskConfig) (padding : Nat → Option UInt8) (fs : GlobalStates)
    (block : ByteImage.Image) (dir : FetchedDir) (attrs : List Attr) (entries : List LogEntry)
    (dir' : FetchedDir) (c c' : Commit) : Prop where
  changes : attrs.foldlM FetchedDir.change dir = some dir'
  erased : dir.erased = true
  tags : appendEntries fs dir attrs = some entries
  run : entries.foldlM (Commit.attribute cfg cfg.commitEnd)
    ⟨block, dir.offset, dir.etag, 0xffffffff#32⟩ = some c
  crc : c.commitCrc cfg padding dir.offset = some c'

theorem appends_of_commit (h : appendCommit cfg padding fs block dir attrs = some r) :
    ∃ entries dir' c c', Appends cfg padding fs block dir attrs entries dir' c c' ∧
      r = ⟨c'.block, { dir' with offset := c'.offset, etag := c'.ptag },
        { gstate := fs.gstate, gdisk := fs.gstate }⟩ := by
  rw [appendCommit] at h
  obtain ⟨dir', hchanges, h⟩ := Option.bind_eq_some_iff.mp h
  obtain ⟨herased, h⟩ := Option.ite_none_left_eq_some.mp h
  obtain ⟨entries, hentries, h⟩ := Option.bind_eq_some_iff.mp h
  obtain ⟨c, hrun, h⟩ := Option.bind_eq_some_iff.mp h
  obtain ⟨c', hcrc, rfl⟩ := Option.map_eq_some_iff.mp h
  exact ⟨entries, dir', c, c',
    ⟨hchanges, Bool.eq_true_of_not_eq_false herased, hentries, hrun, hcrc⟩,
    rfl⟩

/-- The checksums of an append lie in the block. -/
theorem Appends.room (H : Appends cfg padding fs block dir attrs entries dir' c c') (hcfg : cfg.Ok)
    (hroom : entries ≠ [] ∨ dir.offset + 16 ≤ cfg.blockSize) : c.offset + 16 ≤ cfg.blockSize := by
  have hrun := H.run
  by_cases hne : entries = []
  · subst hne
    cases hrun
    exact hroom.resolve_left (fun h => h rfl)
  · have hle := entries_offset_le hne hrun
    have hend := hcfg.commitEnd_le
    omega

theorem Appends.extends (H : Appends cfg padding fs block dir attrs entries dir' c c')
    (hcfg : cfg.Ok) : Commit.Extends ⟨block, dir.offset, dir.etag, 0xffffffff#32⟩ c' :=
  (Commit.run_extends H.run).trans (Commit.commitCrc_extends hcfg H.crc)

/-- Where the scan of a directory that can be appended to has stopped. -/
structure ScannedTo (cfg : DiskConfig) (block : ByteImage.Image) (dir : FetchedDir) (s : TagScan) :
    Prop where
  reaches : (scanStart dir.revision).Reaches cfg block s
  atCommit : s.AtCommit
  dir_eq : dir = s.dir.fetched dir.pair dir.revision true
  revision : revisionOf block = dir.revision
  aligned : dir.offset % cfg.writeSize = 0

theorem exists_scan_of_erased (hfirst : fetchFirst cfg disk dir.pair = some dir)
    (herased : dir.erased = true) : ∃ s, ScannedTo cfg (disk dir.pair.1) dir s := by
  obtain ⟨-, -, heq⟩ := fetchFirst_eq hfirst
  have hrevision : dir.revision = revisionOf (disk dir.pair.1) := congrArg FetchedDir.revision heq
  rw [← hrevision] at heq
  have hscan : (scanBlock cfg (disk dir.pair.1) dir.revision).2 = true :=
    (congrArg FetchedDir.erased heq).symm.trans herased
  obtain ⟨s, hreach, hs, -, hdir, haligned⟩ :=
    scanBlock_erased cfg (disk dir.pair.1) dir.revision hscan
  rw [hdir, hscan] at heq
  have hoffset : dir.offset = s.dir.offset := congrArg FetchedDir.offset heq
  exact ⟨s, hreach, hs, heq, hrevision.symm, hoffset ▸ haligned⟩

namespace ScannedTo

variable {block : ByteImage.Image} {s : TagScan}

theorem next (H : ScannedTo cfg block dir s) : s.next = dir.offset :=
  H.atCommit.offset.symm.trans (congrArg FetchedDir.offset H.dir_eq).symm

theorem log (H : ScannedTo cfg block dir s) : s.log = dir.log :=
  H.atCommit.log.symm.trans (congrArg FetchedDir.log H.dir_eq).symm

theorem le_offset (H : ScannedTo cfg block dir s) : 4 ≤ dir.offset := by
  have hle := H.reaches.next_le
  rw [scanStart_next, H.next] at hle
  exact hle

theorem mirrors (H : ScannedTo cfg block dir s) : dir.Mirrors s.temp where
  count := H.atCommit.count.symm.trans (congrArg FetchedDir.count H.dir_eq).symm
  lt := H.reaches.count_lt (show 0 < 2 ^ 16 by decide)
  tail := H.atCommit.tail.symm.trans (congrArg FetchedDir.tail H.dir_eq).symm
  split := H.atCommit.split.symm.trans (congrArg FetchedDir.split H.dir_eq).symm

/-- The scan has followed the log up to a commit that starts behind it. -/
theorem follows (H : ScannedTo cfg block dir s) (hframed : ∀ e ∈ dir.log, e.Framed) :
    Follows cfg (scanStart dir.revision) ⟨block, dir.offset, dir.etag, 0xffffffff#32⟩ s where
  next := H.next
  ptag := H.atCommit.etag.symm.trans (congrArg FetchedDir.etag H.dir_eq).symm
  crc := H.atCommit.crc
  reaches _ hagree := H.reaches.congr (hagree.mono (Nat.le_of_eq H.next)) fun e he =>
    hframed e (H.log ▸ he)

end ScannedTo

theorem filter_stored {es : List LogEntry} (h : ∀ e ∈ es, e.Plain) :
    (es.map LogEntry.stored).filter (fun e => tagType1 e.tag ≠ typeCrc) =
      es.map LogEntry.stored := by
  refine List.filter_eq_self.mpr fun e he => ?_
  obtain ⟨e', he', rfl⟩ := List.mem_map.mp he
  have htype := stored_tagType1 e'
  have hcrc := (h e' he').1
  rw [htype, decide_eq_true_iff, typeCrc]
  omega

theorem filter_crcs {es : List LogEntry} (h : ∀ e ∈ es, tagType1 e.tag = typeCrc) :
    es.filter (fun e => tagType1 e.tag ≠ typeCrc) = [] := by
  refine List.filter_eq_nil_iff.mpr fun e he => ?_
  rw [h e he]
  decide

/-- The scan of a block behind an append. -/
theorem Appends.scan (H : Appends cfg padding fs (disk dir.pair.1) dir attrs entries dir' c c')
    (hcfg : cfg.Ok) (hfirst : fetchFirst cfg disk dir.pair = some dir)
    (hframed : ∀ e ∈ dir.log, e.Framed) (hfit : AttrsFit dir attrs)
    (hroom : entries ≠ [] ∨ dir.offset + 16 ≤ cfg.blockSize) :
    ∃ (s' : TagScan) (erased : Bool), scanBlock cfg c'.block dir.revision = (s'.dir, erased) ∧
      (s'.dir.fetched dir.pair dir.revision erased).Agrees dir
        { dir' with offset := c'.offset, etag := c'.ptag } entries := by
  obtain ⟨s, Hs⟩ := exists_scan_of_erased hfirst H.erased
  obtain ⟨gs, hgs, htags⟩ := Option.map_eq_some_iff.mp H.tags
  rw [appendEntries_eq] at htags
  have hsilent := gstateEntries_silent hgs
  obtain ⟨hmirrors', hplain, hpair, hrevision⟩ := Hs.mirrors.changes hfit H.changes
  have hplain' : ∀ e ∈ entries, e.Plain := fun e he => by
    rw [← htags] at he
    exact (List.mem_append.mp he).elim (hplain e) fun he => (hsilent e he).plain
  obtain ⟨s₁, H₁, -, hlog₁, htemp₁⟩ := (Hs.follows hframed).run hplain' H.run
  obtain ⟨s', H', Hcloses⟩ := H₁.commitCrc hcfg (H.room hcfg hroom) H.crc
  obtain ⟨erased, herror⟩ := Hcloses.stops
  obtain ⟨crcs, hlog', hcrcs⟩ := Hcloses.log
  have Hcommit := Hcloses.atCommit
  have hnext := scanStart_next dir.revision
  have htemp : s'.temp =
      ((attrs.flatMap Attr.written).map LogEntry.stored).foldl FetchScan.modify s.temp := by
    rw [Hcloses.temp, htemp₁, ← htags, List.map_append, List.foldl_append,
      foldl_modify_silent _ hsilent]
  rw [← htemp] at hmirrors'
  refine ⟨s', erased, ?_, hpair.symm, hrevision.symm, ?_, ?_, Hcommit.count.trans hmirrors'.count,
    Hcommit.split.trans hmirrors'.split, Hcommit.tail.trans hmirrors'.tail, ?_⟩
  · exact loop_eq_of_reaches (H'.reaches _ fun _ _ => rfl) (by omega) herror
  · exact Hcommit.offset.trans H'.next
  · exact Hcommit.etag.trans H'.ptag
  · have hlogs : s'.dir.log = dir.log ++ entries.map LogEntry.stored ++ crcs := by
      rw [Hcommit.log, hlog', hlog₁, Hs.log]
    change s'.dir.log.filter _ = _
    rw [hlogs, List.filter_append, List.filter_append, filter_stored hplain', filter_crcs hcrcs,
      List.append_nil]
    rfl

theorem scmpGt_asymm {a b : BitVec 32} (h : scmpGt a b = true) : scmpGt b a = false := by
  rw [scmpGt, decide_eq_true_iff] at h
  rw [scmpGt, decide_eq_false_iff_not]
  have hneg : b - a = -(a - b) := by
    rw [BitVec.neg_sub, BitVec.add_comm, ← BitVec.sub_eq_add_neg]
  have htoInt := BitVec.toInt_neg (x := a - b)
  have hlt := BitVec.toInt_lt (x := a - b)
  rw [hneg, htoInt, Int.bmod_eq_of_le (by omega) (by omega)]
  omega

theorem recentFirst_cases (disk : Nat → ByteImage.Image) (pair : BlockPair) :
    recentFirst disk pair = pair ∨ recentFirst disk pair = (pair.2, pair.1) := by
  rw [recentFirst]
  split
  · exact .inr rfl
  · exact .inl rfl

theorem recentFirst_idem (disk : Nat → ByteImage.Image) (pair : BlockPair) :
    recentFirst disk (recentFirst disk pair) = recentFirst disk pair := by
  by_cases h : scmpGt (revisionOf (disk pair.2)) (revisionOf (disk pair.1)) = true
  · have hswap : recentFirst disk pair = (pair.2, pair.1) := if_pos h
    have hasymm := scmpGt_asymm h
    rw [hswap, recentFirst, hasymm]
    rfl
  · have hkeep : recentFirst disk pair = pair := if_neg h
    rw [hkeep, hkeep]

theorem fetchFirst_congr (h : disk' pair.1 = disk pair.1) :
    fetchFirst cfg disk' pair = fetchFirst cfg disk pair := by
  rw [fetchFirst, fetchFirst, h]

theorem Settles.pair_cases (H : Settles cfg disk pair dir) :
    dir.pair = pair ∨ dir.pair = (pair.2, pair.1) := by
  rcases H.order with h | ⟨h, -⟩ <;> rcases recentFirst_cases disk pair with h' | h'
  · exact .inl (h.symm.trans h')
  · exact .inr (h.symm.trans h')
  · exact .inr (by rw [h'] at h; rw [h])
  · rw [h', Prod.mk.injEq] at h
    exact .inl (Prod.ext h.2.symm h.1.symm)

/-- A fetch of the pair that was fetched, or of the pair as that fetch left it, comes to the same
block again. -/
theorem Settles.of_first {d : FetchedDir} (H : Settles cfg disk pair dir)
    (hp : p = pair ∨ p = dir.pair) (hfirst : fetchFirst cfg disk' dir.pair = some d)
    (hrevision : revisionOf (disk' dir.pair.1) = revisionOf (disk dir.pair.1))
    (hother : ∀ b, b ≠ dir.pair.1 → disk' b = disk b) : Settles cfg disk' p d := by
  have hpair := (fetchFirst_eq hfirst).2.1
  have hrevisions : ∀ b, revisionOf (disk' b) = revisionOf (disk b) := fun b => by
    by_cases hb : b = dir.pair.1
    · rw [hb, hrevision]
    · rw [hother b hb]
  have hrecent : ∀ pair, recentFirst disk' pair = recentFirst disk pair := fun pair => by
    rw [recentFirst, recentFirst, hrevisions, hrevisions]
  have hbounds : p.1 < cfg.blockCount ∧ p.2 < cfg.blockCount := by
    rcases hp with rfl | rfl
    · exact H.bounds
    · rcases H.pair_cases with h | h <;> rw [h]
      · exact H.bounds
      · exact H.bounds.symm
  refine ⟨hbounds, by rw [hpair]; exact hfirst, ?_⟩
  rw [hpair, hrecent]
  rcases H.order with h | ⟨h, hnone⟩
  · rcases hp with rfl | rfl
    · exact .inl h
    · exact .inl (by rw [← h, recentFirst_idem])
  · have hne : dir.pair.2 ≠ dir.pair.1 := fun heq => by
      have hfirst := H.first
      rw [show (dir.pair.2, dir.pair.1) = dir.pair from Prod.ext heq heq.symm] at hnone
      rw [hnone] at hfirst
      cases hfirst
    have hnone' : fetchFirst cfg disk' (dir.pair.2, dir.pair.1) = none := by
      rw [fetchFirst_congr (hother _ hne), hnone]
    rcases hp with rfl | rfl
    · exact .inr ⟨h, hnone'⟩
    · rcases recentFirst_cases disk dir.pair with h | h
      · exact .inl h
      · exact .inr ⟨h, hnone'⟩

/-- **A fetch behind an append.** Unless it writes nothing but a checksum that does not fit in the
block any more, the fetch finds what the append has left in memory, with the tags of the commit
behind the old ones. -/
theorem fetchPair_append (cfg : DiskConfig) (padding : Nat → Option UInt8) (fs : GlobalStates)
    (disk : Nat → ByteImage.Image) (pair : BlockPair) (dir : FetchedDir) (attrs : List Attr)
    (entries : List LogEntry) (r : Appended) (p : BlockPair) (hcfg : cfg.Ok)
    (hfetch : fetchPair cfg disk pair = some dir) (hframed : ∀ e ∈ dir.log, e.Framed)
    (hfit : AttrsFit dir attrs) (hentries : appendEntries fs dir attrs = some entries)
    (hroom : entries ≠ [] ∨ dir.offset + 16 ≤ cfg.blockSize)
    (hcommit : appendCommit cfg padding fs (disk dir.pair.1) dir attrs = some r)
    (hp : p = pair ∨ p = dir.pair) :
    ∃ d, fetchPair cfg (Function.update disk dir.pair.1 r.block) p = some d ∧
      d.Agrees dir r.dir entries := by
  have Hsettles := fetchPair_eq_some.mp hfetch
  obtain ⟨entries', dir', c, c', H, rfl⟩ := appends_of_commit hcommit
  obtain rfl : entries' = entries := Option.some.inj (H.tags.symm.trans hentries)
  obtain ⟨s', erased, hscan, hagrees⟩ := H.scan hcfg Hsettles.first hframed hfit hroom
  obtain ⟨s, Hs⟩ := exists_scan_of_erased Hsettles.first H.erased
  -- the revision lies in front of the commit
  have hextends := H.extends hcfg
  have hle := Hs.le_offset
  have hread : revisionOf c'.block = revisionOf (disk dir.pair.1) := by
    have hagree : AgreeBelow dir.offset c'.block (disk dir.pair.1) :=
      fun i hi => hextends.block i (.inl hi)
    rw [revisionOf, hagree.read_eq (by omega), revisionOf]
  have hfirst : fetchFirst cfg (Function.update disk dir.pair.1 c'.block) dir.pair =
      some (s'.dir.fetched dir.pair dir.revision erased) := by
    have hpos : 0 < s'.dir.offset := by
      have heq : s'.dir.offset = c'.offset := hagrees.offset
      have hle : dir.offset ≤ c'.offset := hextends.le
      omega
    rw [fetchFirst, Function.update_self, hread, Hs.revision, hscan]
    exact if_pos hpos
  refine ⟨_, fetchPair_eq_some.mpr (Hsettles.of_first hp hfirst ?_ fun b hb => ?_), hagrees⟩
  · rw [Function.update_self, hread]
  · exact Function.update_of_ne hb ..

end

/-- A disk whose block 2 starts with the bytes. -/
def diskOf (bytes : List UInt8) : Nat → ByteImage.Image := fun b =>
  if b = 2 then ByteImage.write (fun _ => 0xff) 0 bytes else fun _ => 0xff

/-- A pair with a file, at revision 1. -/
def filePair : List UInt8 :=
  [1, 0, 0, 0, 191, 239, 255, 255, 64, 0, 0, 1, 97, 32, 0, 0, 3, 1, 2, 112, 31, 252, 19, 19, 251,
    175, 31]

/-- The directory of `filePair`. -/
def fileDir : FetchedDir where
  pair := (2, 3)
  revision := 1#32
  offset := 40
  etag := 0x500ffc11#32
  count := 1
  erased := true
  split := false
  tail := (blockNull, blockNull)
  log := [⟨mkTag typeCreate 0 0, []⟩, ⟨mkTag typeReg 0 1, [97]⟩,
    ⟨mkTag typeInlinestruct 0 2, [1, 2]⟩,
    ⟨0x500ffc11#32, [19, 251, 175, 31] ++ List.replicate 13 255⟩]

def mkdirAttrs : List Attr := [⟨mkTag typeCreate 1 0, .null⟩, ⟨mkTag typeDir 1 1, .data [98]⟩,
  ⟨mkTag typeSofttail 0x3ff 16, .data (pairToLe64 (5, 6))⟩]

theorem mkdirAttrs_fit : AttrsFit fileDir mkdirAttrs := by
  refine ⟨⟨by decide, by decide, by decide, by decide, by decide, fun _ h => by cases h⟩, ?_⟩
  rintro _ ⟨⟩
  refine ⟨⟨by decide, by decide, by decide, by decide, by decide, fun _ h => by cases h⟩, ?_⟩
  rintro _ ⟨⟩
  refine ⟨⟨by decide, by decide, by decide, by decide, by decide, fun _ h => by cases h⟩, ?_⟩
  exact fun _ _ => trivial

theorem fetchPair_append_mkdir :
    ∃ entries r, appendEntries ⟨⟨0x80000001#32, (0, 0)⟩, {}, {}⟩ fileDir mkdirAttrs = some entries ∧
      appendCommit ⟨256, 4, 8, 0⟩ (fun _ => some 0xff) ⟨⟨0x80000001#32, (0, 0)⟩, {}, {}⟩
        (diskOf filePair 2) fileDir mkdirAttrs = some r ∧
      ∃ d, fetchPair ⟨256, 4, 8, 0⟩ (Function.update (diskOf filePair) 2 r.block) (3, 2) = some d ∧
        d.Agrees fileDir r.dir entries := by
  obtain ⟨entries, hentries⟩ := Option.isSome_iff_exists.mp (show (appendEntries
    ⟨⟨0x80000001#32, (0, 0)⟩, {}, {}⟩ fileDir mkdirAttrs).isSome = true by decide +kernel)
  obtain ⟨r, hr⟩ := Option.isSome_iff_exists.mp (show (appendCommit ⟨256, 4, 8, 0⟩
    (fun _ => some 0xff) ⟨⟨0x80000001#32, (0, 0)⟩, {}, {}⟩ (diskOf filePair 2) fileDir
      mkdirAttrs).isSome = true by decide +kernel)
  have hne : entries ≠ [] := by
    rintro rfl
    exact absurd hentries (by decide +kernel)
  exact ⟨entries, r, hentries, hr, fetchPair_append ⟨256, 4, 8, 0⟩ (fun _ => some 0xff)
    ⟨⟨0x80000001#32, (0, 0)⟩, {}, {}⟩ (diskOf filePair) (3, 2) fileDir mkdirAttrs entries r (3, 2)
    ⟨by decide, by decide, by decide, .inl rfl⟩ (by decide +kernel) (by decide) mkdirAttrs_fit
      hentries
    (.inl hne) hr (.inl rfl)⟩

/-- What a fetch should find behind an append. -/
def AppendAgrees (cfg : DiskConfig) (padding : Nat → Option UInt8) (fs : GlobalStates)
    (disk : Nat → ByteImage.Image) (pair : BlockPair) (attrs : List Attr) : Prop :=
  ∀ dir entries r, fetchPair cfg disk pair = some dir → appendEntries fs dir attrs = some entries →
    appendCommit cfg padding fs (disk dir.pair.1) dir attrs = some r →
    ∃ d, fetchPair cfg (Function.update disk dir.pair.1 r.block) pair = some d ∧
      d.Agrees dir r.dir entries

/-- A value of the directory that a fetch finds behind an append, and of the one in memory. -/
def appendedValues (f : FetchedDir → α) (cfg : DiskConfig) (disk : Nat → ByteImage.Image)
    (attrs : List Attr) : Option (Option α × α) :=
  (fetchPair cfg disk (2, 3)).bind fun dir =>
    (appendCommit cfg (fun _ => some 0xff) {} (disk dir.pair.1) dir attrs).map fun r =>
      ((fetchPair cfg (Function.update disk dir.pair.1 r.block) (2, 3)).map f, f r.dir)

theorem AppendAgrees.values_eq {f : FetchedDir → α}
    (H : AppendAgrees cfg (fun _ => some 0xff) {} disk (2, 3) attrs)
    (hf : ∀ {d dir dir' entries}, d.Agrees dir dir' entries → f d = f dir')
    (h : appendedValues f cfg disk attrs = some (a, b)) : a = some b := by
  obtain ⟨dir, hfetch, h⟩ := Option.bind_eq_some_iff.mp h
  obtain ⟨r, hcommit, h⟩ := Option.map_eq_some_iff.mp h
  obtain ⟨entries, _, _, _, happends, _⟩ := appends_of_commit hcommit
  obtain ⟨d, hd, hagrees⟩ := H dir entries r hfetch happends.tags hcommit
  rw [hd, Prod.mk.injEq] at h
  rw [← h.1, ← h.2, Option.map_some, hf hagrees]

/-- The fetch finds something else behind a commit without a tag that leaves the block, behind one
that leaves the block since `metadata_max` is smaller than a checksum, behind a name without an
entry, a splice that is no create or delete, a tail pointer without a size and a tag of the type
of checksums, and behind a checksum that lies outside its tag. -/
theorem fetchPair_append_fails :
    ¬ AppendAgrees ⟨256, 4, 8, 0⟩ (fun _ => some 0xff) {} (diskOf ([1, 0, 0, 0, 191, 239, 255, 255,
      64, 0, 0, 1, 97, 32, 0, 0, 209] ++ List.replicate 208 0 ++
        [112, 31, 252, 195, 147, 100, 147, 210])) (2, 3) [] ∧
    ¬ AppendAgrees ⟨256, 4, 8, 8⟩ (fun _ => some 0xff) {} (diskOf filePair) (2, 3)
      [⟨mkTag typeCreate 1 0, .null⟩, ⟨mkTag typeReg 1 196, .data (List.replicate 196 98)⟩] ∧
    ¬ AppendAgrees ⟨256, 4, 8, 0⟩ (fun _ => some 0xff) {} (diskOf filePair) (2, 3)
      [⟨mkTag typeReg 5 1, .data [98]⟩] ∧
    ¬ AppendAgrees ⟨256, 4, 8, 0⟩ (fun _ => some 0xff) {} (diskOf filePair) (2, 3)
      [⟨mkTag 0x402 0 0, .null⟩] ∧
    ¬ AppendAgrees ⟨256, 4, 8, 0⟩ (fun _ => some 0xff) {} (diskOf filePair) (2, 3)
      [⟨mkTag typeSofttail 0x3ff 0, .data (pairToLe64 (5, 6))⟩] ∧
    ¬ AppendAgrees ⟨256, 4, 8, 0⟩ (fun _ => some 0xff) {} (diskOf filePair) (2, 3)
      [⟨mkTag typeCrc 0x3ff 4, .data [0, 0, 0, 0]⟩] ∧
    ¬ AppendAgrees ⟨256, 4, 2, 0⟩ (fun _ => some 0xff) {} (diskOf [1, 0, 0, 0, 223, 239, 255, 253,
      1, 2, 112, 31, 252, 2, 198, 171, 226, 64]) (2, 3) [⟨mkTag typeCreate 0 0, .null⟩] := by
  refine ⟨fun H => ?_, fun H => ?_, fun H => ?_, fun H => ?_, fun H => ?_, fun H => ?_, fun H => ?_⟩
  · have h := H.values_eq (f := FetchedDir.offset) (fun h => h.offset) (a := some 248) (b := 264)
      (by decide +kernel)
    exact absurd h (by decide)
  · have h := H.values_eq (f := FetchedDir.offset) (fun h => h.offset) (a := some 40) (b := 264)
      (by decide +kernel)
    exact absurd h (by decide)
  · have h := H.values_eq (f := FetchedDir.count) (fun h => h.count) (a := some 6) (b := 1)
      (by decide +kernel)
    exact absurd h (by decide)
  · have h := H.values_eq (f := FetchedDir.count) (fun h => h.count) (a := some 3) (b := 1)
      (by decide +kernel)
    exact absurd h (by decide)
  · have h := H.values_eq (f := FetchedDir.tail) (fun h => h.tail)
      (a := some (12613497458815664176, blockNull)) (b := (5, 6)) (by decide +kernel)
    exact absurd h (by decide)
  · have h := H.values_eq (f := FetchedDir.offset) (fun h => h.offset) (a := some 40) (b := 64)
      (by decide +kernel)
    exact absurd h (by decide)
  · have h := H.values_eq (f := FetchedDir.offset) (fun h => h.offset) (a := none) (b := 34)
      (by decide +kernel)
    exact absurd h (by decide)

end LittleFs
