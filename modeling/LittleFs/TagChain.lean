import LittleFs.AppendFetch

/-! The chain of the tags of a block, read forwards by `lfs_dir_fetchmatch` and backwards by
`lfs_dir_getslice`. A tag is stored as the exclusive or with the tag before it, so the backward walk
decodes with the tag that it knows already and finds its start from the size in it. -/

namespace LittleFs

open ByteImage (AgreeBelow)

/-! ## The forward scan with its trace -/

/-- The tags that the scan reads, with their offsets. -/
def TagScan.visits (cfg : DiskConfig) (block : ByteImage.Image) :
    (fuel : Nat) → TagScan → List (Nat × Tag)
  | 0, _ => []
  | fuel + 1, s =>
    match s.round cfg block with
    | .error _ => []
    | .ok s' => (s.next, fromBe32 (ByteImage.read block s.next 4) ^^^ s.ptag) ::
        TagScan.visits cfg block fuel s'

/-- The tags that the scan of a block reads. -/
def scanVisits (cfg : DiskConfig) (block : ByteImage.Image) (revision : BitVec 32) :
    List (Nat × Tag) :=
  TagScan.visits cfg block cfg.blockSize (scanStart revision)

/-- The tags up to the last good checksum. -/
def acceptedTags (cfg : DiskConfig) (block : ByteImage.Image) (revision : BitVec 32) :
    List (Nat × Tag) :=
  (scanVisits cfg block revision).filter (·.1 < (scanBlock cfg block revision).1.offset)

/-! ## The backward walk -/

/-- How a walk over the tags ends: at a tag that it looks for, with an error of the device, or
before the first tag. -/
inductive WalkEnd (ε σ : Type) where
  | found (r : ε)
  | failed
  | ended (s : σ)

/-- The loop of `lfs_dir_getslice`, with the tags that it comes by; `visit` is what it does with a
tag. Every round goes back by at least four bytes. -/
def tagWalk (cfg : DiskConfig) (block : ByteImage.Image) (visit : Nat → Tag → σ → Except ε σ) :
    (fuel : Nat) → (offset : Nat) → (ntag : Tag) → σ → List (Nat × Tag) × WalkEnd ε σ
  | 0, _, _, _ => ([], .failed)
  | fuel + 1, offset, ntag, s =>
    if offset ≥ 4 + tagDsize ntag then
      let offset := offset - tagDsize ntag
      let tag := ntag
      match bdRead cfg block offset 4 with
      | none => ([], .failed)
      | some word =>
        let ntag := (fromBe32 word ^^^ tag) &&& 0x7fffffff#32
        match visit offset tag s with
        | .error r => ([(offset, tag)], .found r)
        | .ok s =>
          let r := tagWalk cfg block visit fuel offset ntag s
          ((offset, tag) :: r.1, r.2)
    else ([], .ended s)

/-- What `lfs_dir_getslice` does with a tag: it returns, or goes on with a new `gdiff`. -/
def sliceVisit (cfg : DiskConfig) (block : ByteImage.Image) (gmask gtag : Tag) (goff gsize : Nat)
    (offset : Nat) (tag gdiff : Tag) : Except (Except Int (Tag × List UInt8)) Tag :=
  let splices := tagId gmask ≠ 0 ∧ tagType1 tag = typeSplice ∧ tagId tag ≤ tagId (gtag - gdiff)
  -- found where we were created
  if splices ∧ tag = mkTag typeCreate 0 0 ||| (mkTag 0 0x3ff 0 &&& (gtag - gdiff)) then
    .error (.error errNoent)
  else
    -- move around splices
    let gdiff := if splices then gdiff + idShift (tagSplice tag) else gdiff
    if gmask &&& tag = gmask &&& (gtag - gdiff) then
      if tagIsDelete tag then .error (.error errNoent)
      else
        let diff := min (tagSize tag) gsize
        match bdRead cfg block (offset + 4 + goff) diff with
        | none => .error (.error errCorrupt)
        | some bytes => .error (.ok (tag + gdiff, bytes ++ List.replicate (gsize - diff) 0))
    else .ok gdiff

/-- The walk of `lfs_dir_getslice`. -/
def sliceWalk (cfg : DiskConfig) (gdisk : GState) (block : ByteImage.Image) (pair : BlockPair)
    (dir : ScanDir) (gmask gtag : Tag) (goff gsize : Nat) :
    List (Nat × Tag) × WalkEnd (Except Int (Tag × List UInt8)) Tag :=
  -- synthetic moves
  let gdiff := if gstateHasmovehere gdisk pair ∧ tagId gmask ≠ 0 ∧ tagId gdisk.tag ≤ tagId gtag then
    0#32 - mkTag 0 1 0 else 0#32
  tagWalk cfg block (sliceVisit cfg block gmask gtag goff gsize) (dir.offset + 1) dir.offset
    dir.etag
    gdiff

/-- `lfs_dir_getslice`. -/
def dirGetslice (cfg : DiskConfig) (gdisk : GState) (block : ByteImage.Image) (pair : BlockPair)
    (dir : ScanDir) (gmask gtag : Tag) (goff gsize : Nat) : Except Int (Tag × List UInt8) :=
  match (sliceWalk cfg gdisk block pair dir gmask gtag goff gsize).2 with
  | .found r => r
  | .failed => .error errCorrupt
  | .ended _ => .error errNoent

/-! ## Tags without bit 31 -/

/-- A tag without its valid bit. -/
def tagStrip (tag : Tag) : Tag := tag &&& 0x7fffffff#32

theorem tagStrip_toNat (tag : Tag) : (tagStrip tag).toNat = tag.toNat % 2 ^ 31 := by
  rw [tagStrip, BitVec.toNat_and]
  exact Nat.and_two_pow_sub_one_eq_mod _ 31

theorem tagStrip_of_valid {tag : Tag} (h : tagIsValid tag = true) : tagStrip tag = tag := by
  rw [tagIsValid_iff] at h
  rw [← BitVec.toNat_inj, tagStrip_toNat, Nat.mod_eq_of_lt h]

theorem tagStrip_xor (a b : Tag) : tagStrip (a ^^^ b) = tagStrip a ^^^ tagStrip b := by
  rw [← BitVec.toNat_inj, tagStrip_toNat, BitVec.toNat_xor, BitVec.toNat_xor, tagStrip_toNat,
    tagStrip_toNat, Nat.xor_mod_two_pow]

theorem tagStrip_resetBit (reset : Bool) : tagStrip (resetBit reset) = 0#32 := by
  revert reset
  decide

theorem tagDsize_strip (tag : Tag) : tagDsize (tagStrip tag) = tagDsize tag := by
  have hsize : tagSize (tagStrip tag) = tagSize tag := by
    rw [tagSize_eq, tagSize_eq, tagStrip_toNat]
    omega
  rw [tagDsize_eq, tagDsize_eq, hsize]

/-! ## The chain -/

/-- The tags of a block up to an offset, the last one first; `ptag` decodes the tag that follows
there. -/
inductive Chain (cfg : DiskConfig) (block : ByteImage.Image) :
    List (Nat × Tag) → (offset : Nat) → (ptag : Tag) → Prop
  | nil : Chain cfg block [] 4 0xffffffff#32
  | cons (hchain : Chain cfg block l o p)
    (htag : fromBe32 (ByteImage.read block o 4) ^^^ p = t) (hvalid : tagIsValid t = true)
    (hfits : o + tagDsize t ≤ cfg.blockSize) (reset : Bool) :
    Chain cfg block ((o, t) :: l) (o + tagDsize t) (t ^^^ resetBit reset)

section
variable {cfg : DiskConfig} {block block' : ByteImage.Image} {l a b : List (Nat × Tag)}

theorem Chain.length_le (H : Chain cfg block l o p) : 4 + 4 * l.length ≤ o := by
  induction H with
  | nil => exact Nat.le_refl _
  | @cons _ _ _ t _ _ _ _ _ ih =>
    have := tagDsize_ge t
    rw [List.length_cons]
    omega

theorem Chain.mem (H : Chain cfg block l o p) :
    ∀ v ∈ l, 4 ≤ v.1 ∧ v.1 + tagDsize v.2 ≤ o ∧ v.1 + tagDsize v.2 ≤ cfg.blockSize ∧
      tagIsValid v.2 = true := by
  induction H with
  | nil => exact fun v hv => absurd hv List.not_mem_nil
  | @cons l o p t hchain htag hvalid hfits reset ih =>
    have hge := hchain.length_le
    refine List.forall_mem_cons.mpr ⟨⟨by dsimp only; omega, Nat.le_refl _, hfits, hvalid⟩,
      fun v hv => ?_⟩
    obtain ⟨hv4, hvo, hrest⟩ := ih v hv
    exact ⟨hv4, hvo.trans (Nat.le_add_right ..), hrest⟩

/-- The offsets go down. -/
theorem Chain.pairwise (H : Chain cfg block l o p) : l.Pairwise fun v w => w.1 < v.1 := by
  induction H with
  | nil => exact .nil
  | cons hchain _ _ _ _ ih =>
    refine List.pairwise_cons.mpr ⟨fun v hv => ?_, ih⟩
    have := (hchain.mem v hv).2.1
    have := tagDsize_ge v.2
    show v.1 < _
    omega

/-- The tags say where they end. -/
theorem Chain.offset_unique (H : Chain cfg block l o p) (H' : Chain cfg block l o' p') :
    o = o' := by
  cases H with
  | nil =>
    cases H'
    rfl
  | cons =>
    cases H'
    rfl

/-- The tags behind a part of the chain start behind it. -/
theorem Chain.split (H : Chain cfg block (b ++ a) o p) :
    ∃ o' p', Chain cfg block a o' p' ∧ ∀ v ∈ b, o' ≤ v.1 := by
  induction b generalizing o p with
  | nil => exact ⟨o, p, H, fun v hv => absurd hv List.not_mem_nil⟩
  | cons v b ih =>
    cases H with
    | @cons _ o p t hchain =>
      obtain ⟨o', p', ha, hb⟩ := ih hchain
      have hle : o' ≤ o := by
        rcases b with - | ⟨w, b⟩
        · exact Nat.le_of_eq (ha.offset_unique hchain)
        · have := hb w (.head _)
          have := (hchain.mem w (.head _)).2.1
          omega
      exact ⟨o', p', ha, List.forall_mem_cons.mpr ⟨hle, hb⟩⟩

/-! ## Forwards -/

/-- What a scan has read: `l` are its tags, the last one first. -/
structure Scanned (cfg : DiskConfig) (block : ByteImage.Image) (l : List (Nat × Tag))
    (s : TagScan) : Prop where
  chain : Chain cfg block l s.next s.ptag
  log : l.reverse.map Prod.snd = s.log.map (·.tag)
  /-- The tags that the last good checksum accepts. -/
  commit : s.dir.offset = 0 ∨ ∃ a b, l = b ++ a ∧ a ≠ [] ∧
    Chain cfg block a s.dir.offset s.dir.etag ∧ a.reverse.map Prod.snd = s.dir.log.map (·.tag)

theorem scanned_start (cfg : DiskConfig) (block : ByteImage.Image) (revision : BitVec 32) :
    Scanned cfg block [] (scanStart revision) := by
  refine ⟨?_, rfl, .inl rfl⟩
  rw [scanStart_next]
  exact .nil

/-- One more tag in the chain and in the log. -/
theorem map_snd_reverse_cons {log : List LogEntry} (h : l.reverse.map Prod.snd = log.map (·.tag))
    (o : Nat) (tag : Tag) (data : List UInt8) :
    ((o, tag) :: l).reverse.map Prod.snd = (log ++ [LogEntry.mk tag data]).map (·.tag) := by
  rw [List.reverse_cons, List.map_append, List.map_append, h, List.map_singleton,
    List.map_singleton]

/-- One round adds its tag to the chain. -/
theorem Scanned.step {s s' : TagScan} (H : Scanned cfg block l s) (h : s.Reads cfg block s') :
    Scanned cfg block ((s.next, fromBe32 (ByteImage.read block s.next 4) ^^^ s.ptag) :: l) s' := by
  -- a tag that is no checksum leaves the last commit alone
  have hcommit : ∀ v : Nat × Tag, s.dir.offset = 0 ∨ ∃ a b, v :: l = b ++ a ∧ a ≠ [] ∧
      Chain cfg block a s.dir.offset s.dir.etag ∧ a.reverse.map Prod.snd = s.dir.log.map (·.tag) :=
    fun v => H.commit.imp_right fun ⟨a, b, hl, ha⟩ => ⟨a, v :: b, congrArg (v :: ·) hl, ha⟩
  have hxor : ∀ tag : Tag, tag ^^^ resetBit false = tag := fun tag => BitVec.xor_zero
  cases h with
  | @crc tag data htag hvalid hfits =>
    have hchain := Chain.cons H.chain htag hvalid hfits (tagChunk tag &&& 1#8 == 1#8)
    have hnext : (s.accept tag data).next = s.next + tagDsize tag :=
      congrArg (s.next + ·) (tagDsize_resetBit tag _)
    have hlog := map_snd_reverse_cons H.log s.next tag data
    rw [htag]
    exact ⟨by rw [hnext]; exact hchain, hlog, .inr ⟨_, [], rfl, List.cons_ne_nil _ _, hchain, hlog⟩⟩
  | @tail tag found data htag hvalid hfits =>
    have hchain := Chain.cons H.chain htag hvalid hfits false
    rw [hxor] at hchain
    rw [htag]
    exact ⟨hchain, map_snd_reverse_cons H.log s.next tag data, hcommit _⟩
  | @other tag data htag hvalid hfits =>
    have hchain := Chain.cons H.chain htag hvalid hfits false
    rw [hxor] at hchain
    rw [htag]
    exact ⟨hchain, map_snd_reverse_cons H.log s.next tag data, hcommit _⟩

/-- The whole scan. -/
theorem Scanned.loop {s : TagScan} (H : Scanned cfg block l s)
    (hfuel : cfg.blockSize < fuel + s.next) :
    ∃ l' s', Scanned cfg block l' s' ∧ l'.reverse = l.reverse ++ TagScan.visits cfg block fuel s ∧
      s.Reaches cfg block s' ∧ ∃ erased, s'.round cfg block = .error erased ∧
        TagScan.loop cfg block fuel s = (s'.dir, erased) := by
  induction fuel generalizing s l with
  | zero =>
    have hnone : bdRead cfg block s.next 4 = none := if_neg (by omega)
    exact ⟨l, s, H, (List.append_nil _).symm, .refl, false, by rw [TagScan.round, hnone], rfl⟩
  | succ fuel ih =>
    rw [TagScan.loop, TagScan.visits]
    cases hround : s.round cfg block with
    | error erased => exact ⟨l, s, H, (List.append_nil _).symm, .refl, erased, hround, rfl⟩
    | ok s₁ =>
      have hreads := round_ok.mp hround
      obtain ⟨e, -, -, hnext, -⟩ := hreads.exists_entry
      have hge := tagDsize_ge e.tag
      obtain ⟨l', s', H', hvisits, hreach, herror⟩ := ih (H.step hreads) (by omega)
      refine ⟨l', s', H', ?_, .head hreads hreach, herror⟩
      rw [hvisits, List.reverse_cons, List.append_assoc]
      rfl

/-- Bytes behind the end of the block are not looked at. -/
theorem round_congr (h : AgreeBelow cfg.blockSize block block') (s : TagScan) :
    s.round cfg block' = s.round cfg block := by
  have hbd : ∀ offset size, bdRead cfg block' offset size = bdRead cfg block offset size := by
    intro offset size
    rw [bdRead, bdRead]
    split
    · rw [h.read_eq ‹_›]
    · rfl
  rw [TagScan.round, TagScan.round, hbd, hbd, hbd]
  cases hword : bdRead cfg block s.next 4 with
  | none => rfl
  | some word =>
    dsimp only
    split
    · rfl
    · split
      · rfl
      · have hge := tagDsize_ge (fromBe32 word ^^^ s.ptag)
        rw [h.read_eq (by omega)]

theorem scanBlock_congr (h : AgreeBelow cfg.blockSize block block') (revision : BitVec 32) :
    scanBlock cfg block' revision = scanBlock cfg block revision := by
  have hloop : ∀ fuel s, TagScan.loop cfg block' fuel s = TagScan.loop cfg block fuel s := by
    intro fuel
    induction fuel with
    | zero => exact fun s => rfl
    | succ fuel ih =>
      intro s
      rw [TagScan.loop, TagScan.loop, round_congr h]
      cases s.round cfg block with
      | error erased => rfl
      | ok s' => exact ih s'
  exact hloop ..

/-! ## Backwards -/

/-- **The walk back undoes the scan.** From the end of a chain the walk comes by its tags, as far as
nothing stops it before. -/
theorem Chain.tagWalk (H : Chain cfg block l offset ptag) (visit : Nat → Tag → σ → Except ε σ)
    (s : σ)
    (hntag : tagStrip ntag = tagStrip ptag) (hfuel : l.length < fuel) :
    ∃ visited stop, tagWalk cfg block visit fuel offset ntag s = (visited, stop) ∧
      (visited.map fun v => (v.1, tagStrip v.2)) <+: l ∧
      ((∃ r, stop = .found r ∧
        ∃ v ∈ l, ∃ tag s, tagStrip tag = v.2 ∧ visit v.1 tag s = .error r) ∨
        (∃ s', stop = .ended s') ∧ (visited.map fun v => (v.1, tagStrip v.2)) = l) := by
  induction H generalizing ntag s fuel with
  | nil =>
    cases fuel with
    | zero => exact absurd hfuel (Nat.not_lt_zero _)
    | succ fuel =>
      have hsize : tagDsize ntag = 4 := by
        rw [← tagDsize_strip, hntag]
        decide
      rw [LittleFs.tagWalk, if_neg (by omega)]
      exact ⟨[], _, rfl, List.nil_prefix, .inr ⟨⟨s, rfl⟩, rfl⟩⟩
  | @cons l o p t hchain htag hvalid hfits reset ih =>
    cases fuel with
    | zero => exact absurd hfuel (Nat.not_lt_zero _)
    | succ fuel =>
      have hge := hchain.length_le
      have hdge := tagDsize_ge t
      have hstrip : tagStrip ntag = t := by
        rw [hntag, tagStrip_xor, tagStrip_resetBit, BitVec.xor_zero, tagStrip_of_valid hvalid]
      have hsize : tagDsize ntag = tagDsize t := by rw [← tagDsize_strip, hstrip]
      -- the word is the tag and the one before it, so it gives the one before it
      have hnext : tagStrip ((fromBe32 (ByteImage.read block o 4) ^^^ ntag) &&& 0x7fffffff#32) =
          tagStrip p := by
        have hword : fromBe32 (ByteImage.read block o 4) = t ^^^ p := by
          rw [← htag, BitVec.xor_assoc, BitVec.xor_self, BitVec.xor_zero]
        have hidem : ∀ tag, tagStrip (tagStrip tag) = tagStrip tag := fun tag => by
          rw [← BitVec.toNat_inj, tagStrip_toNat, tagStrip_toNat, Nat.mod_mod]
        change tagStrip (tagStrip _) = _
        rw [hidem, hword, tagStrip_xor, tagStrip_xor, hstrip, tagStrip_of_valid hvalid,
          BitVec.xor_comm t, BitVec.xor_assoc, BitVec.xor_self, BitVec.xor_zero]
      rw [LittleFs.tagWalk, if_pos (by omega)]
      dsimp only
      rw [hsize, Nat.add_sub_cancel, bdRead_of_le (by omega)]
      dsimp only
      cases hvisit : visit o ntag s with
      | error r =>
        refine ⟨[(o, ntag)], .found r, rfl, ?_,
          .inl ⟨r, rfl, (o, t), .head _, ntag, s, hstrip, hvisit⟩⟩
        rw [List.map_singleton, hstrip]
        exact List.cons_prefix_cons.mpr ⟨rfl, List.nil_prefix⟩
      | ok s' =>
        obtain ⟨visited, stop, hwalk, hprefix, hstop⟩ :=
          ih s' hnext (Nat.lt_of_succ_lt_succ hfuel)
        dsimp only
        rw [hwalk]
        refine ⟨(o, ntag) :: visited, stop, rfl, ?_, hstop.imp (fun hstop => ?_) fun hstop => ?_⟩
        · rw [List.map_cons, hstrip]
          exact List.cons_prefix_cons.mpr ⟨rfl, hprefix⟩
        · obtain ⟨r, hr, v, hv, hfound⟩ := hstop
          exact ⟨r, hr, v, .tail _ hv, hfound⟩
        · rw [List.map_cons, hstrip, hstop.2]
          exact ⟨hstop.1, rfl⟩

/-! ## Both directions -/

/-- Where the tags of a scan lie. -/
structure ScanInBlock (cfg : DiskConfig) (block : ByteImage.Image) (revision : BitVec 32) :
    Prop where
  ends : ∃ s erased, (scanStart revision).Reaches cfg block s ∧
    s.round cfg block = .error erased ∧ scanBlock cfg block revision = (s.dir, erased)
  increasing : (scanVisits cfg block revision).Pairwise fun v w => v.1 < w.1
  inBlock : ∀ v ∈ scanVisits cfg block revision, 4 ≤ v.1 ∧ v.1 + tagDsize v.2 ≤ cfg.blockSize
  /-- Nothing outside the block is looked at. -/
  frame : ∀ block', AgreeBelow cfg.blockSize block block' →
    scanBlock cfg block' revision = scanBlock cfg block revision

/-- The walks back from the commit that a scan has found come by its tags. -/
structure ReadsBack (cfg : DiskConfig) (block : ByteImage.Image) (revision : BitVec 32)
    (dir : ScanDir) : Prop where
  log : (acceptedTags cfg block revision).map Prod.snd = dir.log.map (·.tag)
  first : (acceptedTags cfg block revision).head?.map Prod.fst = some 4
  /-- A lookup comes by the last tags, by all of them when it finds nothing. -/
  lookup : ∀ gdisk pair gmask gtag goff gsize, ∃ visited stop,
    sliceWalk cfg gdisk block pair dir gmask gtag goff gsize = (visited, stop) ∧
    (visited.map fun v => (v.1, tagStrip v.2)) <+: (acceptedTags cfg block revision).reverse ∧
    ((∃ r, stop = .found r) ∨ (∃ gdiff, stop = .ended gdiff) ∧
      (visited.map fun v => (v.1, tagStrip v.2)) = (acceptedTags cfg block revision).reverse)
  /-- The walk without a lookup. -/
  whole : ∃ visited,
    LittleFs.tagWalk cfg block (fun _ _ s => (.ok s : Except Empty Unit)) (dir.offset + 1)
      dir.offset
      dir.etag () = (visited, .ended ()) ∧
    (visited.map fun v => (v.1, tagStrip v.2)) = (acceptedTags cfg block revision).reverse

theorem exists_scanned (cfg : DiskConfig) (block : ByteImage.Image) (revision : BitVec 32) :
    ∃ l s, Scanned cfg block l s ∧ scanVisits cfg block revision = l.reverse ∧
      (scanStart revision).Reaches cfg block s ∧ ∃ erased, s.round cfg block = .error erased ∧
        scanBlock cfg block revision = (s.dir, erased) := by
  have hnext := scanStart_next revision
  obtain ⟨l, s, H, hvisits, hreach, herror⟩ :=
    (scanned_start cfg block revision).loop (show cfg.blockSize < cfg.blockSize + _ by omega)
  exact ⟨l, s, H, hvisits.symm, hreach, herror⟩

theorem scanInBlock (cfg : DiskConfig) (block : ByteImage.Image) (revision : BitVec 32) :
    ScanInBlock cfg block revision := by
  obtain ⟨l, s, H, hvisits, hreach, erased, herror, hscan⟩ := exists_scanned cfg block revision
  refine ⟨⟨s, erased, hreach, herror, hscan⟩, ?_, fun v hv => ?_, fun block' h =>
    scanBlock_congr h revision⟩
  · rw [hvisits]
    exact List.pairwise_reverse.mpr H.chain.pairwise
  · rw [hvisits] at hv
    obtain ⟨hge, -, hle, -⟩ := H.chain.mem v (List.mem_reverse.mp hv)
    exact ⟨hge, hle⟩

/-- The tags that are accepted are a part of the chain. -/
theorem acceptedTags_eq (haccept : 0 < (scanBlock cfg block revision).1.offset) :
    ∃ a, acceptedTags cfg block revision = a.reverse ∧ a ≠ [] ∧
      Chain cfg block a (scanBlock cfg block revision).1.offset
        (scanBlock cfg block revision).1.etag ∧
      a.reverse.map Prod.snd = (scanBlock cfg block revision).1.log.map (·.tag) := by
  obtain ⟨l, s, H, hvisits, -, erased, -, hscan⟩ := exists_scanned cfg block revision
  rw [acceptedTags, hvisits]
  rw [hscan] at haccept ⊢
  obtain ⟨a, b, rfl, hne, hchain, hlog⟩ := H.commit.resolve_left (Nat.ne_of_gt haccept)
  refine ⟨a, ?_, hne, hchain, hlog⟩
  obtain ⟨o, p, ha, hb⟩ := H.chain.split
  obtain rfl := ha.offset_unique hchain
  rw [List.reverse_append, List.filter_append]
  have hin : a.reverse.filter (·.1 < s.dir.offset) = a.reverse := by
    refine List.filter_eq_self.mpr fun v hv => decide_eq_true ?_
    have := (hchain.mem v (List.mem_reverse.mp hv)).2.1
    have := tagDsize_ge v.2
    omega
  have hout : b.reverse.filter (·.1 < s.dir.offset) = [] := by
    refine List.filter_eq_nil_iff.mpr fun v hv => ?_
    have := hb v (List.mem_reverse.mp hv)
    rw [decide_eq_true_iff]
    exact Nat.not_lt.mpr this
  rw [hin, hout, List.append_nil]

/-- The first tag of a block is behind the revision count. -/
theorem Chain.first (H : Chain cfg block l o p) (hne : l ≠ []) :
    l.reverse.head?.map Prod.fst = some 4 := by
  induction H with
  | nil => exact absurd rfl hne
  | @cons l o p t hchain htag hvalid hfits reset ih =>
    rw [List.reverse_cons]
    cases hchain with
    | nil => rfl
    | cons =>
      rw [List.head?_append_of_ne_nil _ (by simp)]
      exact ih (List.cons_ne_nil _ _)

/-- **The tags read the same in both directions.** The scan of any block ends and stays in it, and
the walk back from a commit that it accepts comes by the tags of the scan, the last one first. -/
theorem scanBlock_readsBack (haccept : 0 < (scanBlock cfg block revision).1.offset) :
    ScanInBlock cfg block revision ∧
      ReadsBack cfg block revision (scanBlock cfg block revision).1 := by
  obtain ⟨a, haccepted, hne, hchain, hlog⟩ := acceptedTags_eq haccept
  have hlength := hchain.length_le
  have hfuel : a.length < (scanBlock cfg block revision).1.offset + 1 := by omega
  refine ⟨scanInBlock cfg block revision, ?_, ?_, fun gdisk pair gmask gtag goff gsize => ?_, ?_⟩
  · rw [haccepted, hlog]
  · rw [haccepted]
    exact hchain.first hne
  · rw [haccepted, List.reverse_reverse]
    obtain ⟨visited, stop, hwalk, hprefix, hstop⟩ :=
      hchain.tagWalk (sliceVisit cfg block gmask gtag goff gsize) _ rfl hfuel
    exact ⟨visited, stop, hwalk, hprefix, hstop.imp_left fun ⟨r, hr, _⟩ => ⟨r, hr⟩⟩
  · rw [haccepted, List.reverse_reverse]
    obtain ⟨visited, stop, hwalk, -, hstop⟩ :=
      hchain.tagWalk (fun _ _ s => (.ok s : Except Empty Unit)) () rfl hfuel
    rcases hstop with ⟨r, -⟩ | ⟨⟨_, rfl⟩, hall⟩
    · exact r.elim
    · exact ⟨visited, hwalk, hall⟩

theorem ite_ne_of {c : Prop} [Decidable c] {x y z : α} (hx : x ≠ z) (hy : y ≠ z) :
    (if c then x else y) ≠ z := by
  split
  · exact hx
  · exact hy

/-- The data of a tag can be read when the tag lies in the block. -/
theorem sliceVisit_ne_corrupt (hfits : offset + tagDsize tag ≤ cfg.blockSize)
    (gmask gtag gdiff : Tag)
    (gsize : Nat) : sliceVisit cfg block gmask gtag 0 gsize offset tag gdiff ≠
      .error (.error errCorrupt) := by
  have hne : ∀ {σ : Type}, (Except.error (.error errNoent) :
      Except (Except Int (Tag × List UInt8)) σ) ≠ .error (.error errCorrupt) := fun h =>
    absurd (Except.error.inj (Except.error.inj h)) (by decide)
  rw [sliceVisit]
  dsimp only
  refine ite_ne_of hne (ite_ne_of ?_ fun h => by cases h)
  by_cases hdelete : tagIsDelete tag = true
  · rw [if_pos hdelete]
    exact hne
  · have hsize : tagDsize tag = 4 + tagSize tag := by
      rw [tagDsize_eq, if_neg fun h => hdelete ((tagIsDelete_iff tag).mpr h)]
    rw [if_neg hdelete, bdRead_of_le (by omega)]
    exact fun h => by cases h

/-- A lookup in a commit that was accepted finds no corrupted tag. -/
theorem dirGetslice_ne_corrupt (haccept : 0 < (scanBlock cfg block revision).1.offset)
    (gdisk : GState) (pair : BlockPair) (gmask gtag : Tag) (gsize : Nat) :
    dirGetslice cfg gdisk block pair (scanBlock cfg block revision).1 gmask gtag 0 gsize ≠
      .error errCorrupt := by
  obtain ⟨a, -, -, hchain, -⟩ := acceptedTags_eq haccept
  have hlength := hchain.length_le
  obtain ⟨visited, stop, hwalk, -, hstop⟩ :=
    hchain.tagWalk (sliceVisit cfg block gmask gtag 0 gsize) _ rfl
      (show a.length < (scanBlock cfg block revision).1.offset + 1 by omega)
  rw [dirGetslice, sliceWalk, hwalk]
  rcases hstop with ⟨r, rfl, v, hv, tag, gdiff, htag, hvisit⟩ | ⟨⟨_, rfl⟩, -⟩
  · rintro rfl
    have hfits := (hchain.mem v hv).2.2.1
    rw [← htag, tagDsize_strip] at hfits
    exact sliceVisit_ne_corrupt hfits gmask gtag gdiff gsize hvisit
  · exact fun h => absurd (Except.error.inj h) (by decide)

/-- The block of a pair with a file in it. -/
theorem scanBlock_readsBack_file :
    ScanInBlock ⟨256, 4, 8, 0⟩ (diskOf filePair 2) 1#32 ∧
      ReadsBack ⟨256, 4, 8, 0⟩ (diskOf filePair 2) 1#32
        (scanBlock ⟨256, 4, 8, 0⟩ (diskOf filePair 2) 1#32).1 :=
  scanBlock_readsBack (by decide +kernel)

end

end LittleFs
