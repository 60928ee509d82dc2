import LittleFs.AppendFetch

/-! A commit that loses power after some of its bytes: the block holds these in front of the bytes
it had before, and as long as no checksum passes that covers bytes of both kinds, a fetch comes to
the directory before the commit or to the one behind it. -/

namespace LittleFs

open ByteImage (AgreeBelow)

/-! ## Checksums over a cut -/

section
variable {cfg : DiskConfig} {block : ByteImage.Image} {s s' t t' : TagScan} {c c' : Commit}

/-- The scan accepts the checksum that comes next. -/
def TagScan.Accepts (cfg : DiskConfig) (block : ByteImage.Image) (s : TagScan) : Prop :=
  tagType1 (fromBe32 (ByteImage.read block s.next 4) ^^^ s.ptag) = typeCrc ∧
    ∃ s', s.Reads cfg block s'

/-- No checksum passes that covers bytes on both sides of `p`. -/
def TornFails (cfg : DiskConfig) (block : ByteImage.Image) (p : Nat) : Prop :=
  ∀ s, (scanStart (revisionOf block)).Reaches cfg block s → s.Accepts cfg block →
    s.dir.offset < p → s.next + 8 ≤ p

theorem TagScan.Reads.dir_eq (H : s.Reads cfg block s') (h : ¬ s.Accepts cfg block) :
    s'.dir = s.dir := by
  cases H with
  | crc htag hvalid hfits hty hsum hcrc hdata =>
    exact absurd ⟨htag ▸ hty, _, .crc htag hvalid hfits hty hsum hcrc hdata⟩ h
  | tail => rfl
  | other => rfl

theorem TagScan.Reads.eq (H : s.Reads cfg block s') (H' : s.Reads cfg block t) : s' = t :=
  Except.ok.inj ((round_ok.mpr H).symm.trans (round_ok.mpr H'))

/-- What the scan ends with. -/
def TagScan.Ends (cfg : DiskConfig) (block : ByteImage.Image) (t : TagScan) (d : ScanDir) : Prop :=
  ∃ s, t.Reaches cfg block s ∧ (∃ erased, s.round cfg block = .error erased) ∧ s.dir = d

theorem TagScan.Ends.of_reaches (h : t.Reaches cfg block t') (H : t'.Ends cfg block d) :
    t.Ends cfg block d := by
  obtain ⟨s, hreach, hstop, hdir⟩ := H
  exact ⟨s, h.trans hreach, hstop, hdir⟩

theorem TagScan.Ends.scan (H : (scanStart revision).Ends cfg block d) :
    (scanBlock cfg block revision).1 = d := by
  obtain ⟨s, hreach, ⟨erased, hstop⟩, rfl⟩ := H
  have hnext := scanStart_next revision
  rw [scanBlock, loop_eq_of_reaches hreach (by omega) hstop]

/-- A scan that comes to no checksum in front of the cut ends with what it had. -/
theorem ends_of_torn (htorn : TornFails cfg block p)
    (hreach : (scanStart (revisionOf block)).Reaches cfg block t) (hp : t.dir.offset < p)
    (hno : ∀ s, t.Reaches cfg block s → s.Accepts cfg block → p < s.next + 8) :
    t.Ends cfg block t.dir := by
  have hdir : ∀ s, t.Reaches cfg block s → s.dir = t.dir := by
    intro s hs
    induction hs with
    | refl => rfl
    | @tail s s' hs hreads ih =>
      refine (hreads.dir_eq fun haccepts => ?_).trans ih
      have hle := htorn s (hreach.trans hs) haccepts (by rw [ih]; exact hp)
      have hlt := hno s hs haccepts
      omega
  obtain ⟨s, hs, erased, hstop, -⟩ := loop_reaches cfg block (cfg.blockSize + 1) t (by omega)
  exact ⟨s, hs, ⟨erased, hstop⟩, hdir s hs⟩

/-! ## A cut in the tags of a commit -/

/-- Behind a cut in front of the first checksum of a commit, there is no other one. -/
theorem lt_of_accepts {entries : List LogEntry} (hnext : t.next = c.offset)
    (hptag : t.ptag = c.ptag) (hplain : ∀ e ∈ entries, e.Plain)
    (hrun : entries.foldlM (Commit.attribute cfg stop) c = some c')
    (hagree : ∀ i, i < p → i < c'.offset → c'.block i = block i) (hp : p < c'.offset + 8)
    (hs : t.Reaches cfg block s) (haccepts : s.Accepts cfg block) : p < s.next + 8 := by
  induction entries generalizing c t with
  | nil =>
    cases hrun
    have hle := hs.next_le
    omega
  | cons e entries ih =>
    rw [List.foldlM_cons, Option.bind_eq_bind, Option.bind_eq_some_iff] at hrun
    obtain ⟨c₁, hadd, hrun⟩ := hrun
    obtain ⟨⟨hcrc, htail⟩, hplain⟩ := List.forall_mem_cons.mp hplain
    have Ha := Commit.adds_of_attribute hadd
    have Hextends := Commit.run_extends hrun
    have htype := stored_tagType1 e
    have hdsize := stored_tagDsize e
    have hge := tagDsize_ge e.tag
    have hoffset := Ha.offset
    have hle := Hextends.le
    have hbelow : ∀ i, i < p → i < c₁.offset → c₁.block i = block i := fun i hi hi₁ =>
      (Hextends.block i (.inl hi₁)).symm.trans (hagree i hi (by omega))
    -- the tag as far as it lies in front of the cut
    have hword : c.offset + 4 ≤ p →
        fromBe32 (ByteImage.read block t.next 4) ^^^ t.ptag = e.stored.tag := fun hle => by
      have hagree₁ : AgreeBelow (c.offset + 4) c₁.block block := fun i hi =>
        hbelow i (by omega) (by omega)
      have hself : AgreeBelow c₁.offset c₁.block c₁.block := fun _ _ => rfl
      have hread := (Ha.reads hself).2.1
      rw [hnext, ← hagree₁.read_eq (Nat.le_refl _), hread, fromBe32_toBe32, hptag,
        BitVec.xor_assoc, BitVec.xor_self, BitVec.xor_zero]
    rcases Relation.ReflTransGen.cases_head hs with rfl | ⟨t₁, hreads,
      (hs : t₁.Reaches cfg block s)⟩
    · by_cases hle : c.offset + 4 ≤ p
      · have hty := haccepts.1
        rw [hword hle, htype, typeCrc] at hty
        omega
      · omega
    · have hmono := hs.next_le
      have hnext₁ := hreads.next_eq
      have hge₁ := tagDsize_ge (fromBe32 (ByteImage.read block t.next 4) ^^^ t.ptag)
      by_cases hle : c₁.offset ≤ p
      · have hagree₁ : AgreeBelow c₁.offset c₁.block block := fun i hi => hbelow i (by omega) hi
        have hreads' := Ha.scan_reads (by rw [htype, typeCrc]; omega)
          (fun hty => htail (by rw [htype, typeTail] at hty; omega)) hnext hptag hagree₁
        obtain rfl := hreads.eq hreads'
        refine ih ?_ Ha.ptag.symm hplain hrun hs
        rw [hnext₁, hword (by omega), hdsize]
        omega
      · by_cases hle : c.offset + 4 ≤ p
        · rw [hword hle, hdsize] at hnext₁
          omega
        · omega

/-- In front of its first checksum, a cut leaves what the scan had found before the commit. -/
theorem ends_before {entries : List LogEntry} (H : Follows cfg (scanStart (revisionOf block)) c t)
    (hplain : ∀ e ∈ entries, e.Plain)
    (hrun : entries.foldlM (Commit.attribute cfg stop) c = some c')
    (hagree : ∀ i, i < p → i < c'.offset → c'.block i = block i) (hp : p < c'.offset + 8)
    (hle : c.offset ≤ p) (hdir : t.dir.offset < p) (htorn : TornFails cfg block p) :
    (scanStart (revisionOf block)).Ends cfg block t.dir := by
  have Hextends := Commit.run_extends hrun
  have hoffset := Hextends.le
  have hreach := H.reaches block fun i hi =>
    (Hextends.block i (.inl hi)).symm.trans (hagree i (by omega) (by omega))
  exact .of_reaches hreach (ends_of_torn htorn hreach hdir fun s hs haccepts =>
    lt_of_accepts H.next H.ptag hplain hrun hagree hp hs haccepts)

/-! ## A cut in the checksum tags -/

/-- The directory of a commit whose tags the scan has read in `t`, up to its checksums. -/
structure ScanDir.Closes (d : ScanDir) (t : TagScan) : Prop where
  pos : 0 < d.offset
  count : d.count = t.temp.count
  tail : d.tail = t.temp.tail
  split : d.split = t.temp.split
  log : ∃ crcs : List LogEntry, d.log = t.log ++ crcs ∧ ∀ e ∈ crcs, tagType1 e.tag = typeCrc

/-- The first checksum tag of a commit stays as it is. -/
theorem Commit.crcLoop_succ (Hc : c.CrcTag cfg stop noff)
    (h : c.crcLoop cfg padding stop (fuel + 1) = some c') :
    (c.crcRound cfg padding stop).crcLoop cfg padding stop fuel = some c' ∧ noff ≤ c'.offset ∧
      ∀ i, i < noff → c'.block i = (c.crcRound cfg padding stop).block i := by
  have hnoff := Commit.crcRound_offset Hc padding
  have hge := Hc.ge
  have hle := Hc.le
  rw [Commit.crcLoop, if_pos (by omega)] at h
  obtain ⟨-, h⟩ := Option.ite_none_left_eq_some.mp h
  refine ⟨h, ?_⟩
  by_cases hlt : noff < stop
  · have hlast := Hc.last hlt
    have H := Commit.crcLoop_extends (by omega) h
    exact ⟨hnoff ▸ H.le, fun i hi => H.block i (.inl (by omega))⟩
  · obtain rfl := Commit.eq_of_crcLoop (by omega) h
    exact ⟨Nat.le_of_eq hnoff.symm, fun _ _ => rfl⟩

/-- Behind the first checksum of a commit, a cut leaves the directory of the commit. -/
theorem ends_behind (hreach : (scanStart (revisionOf block)).Reaches cfg block t)
    (hnext : t.next = c.offset) (hptag : t.ptag = c.ptag) (hcrc : t.crc = c.crc)
    (hstop : stop ≤ cfg.blockSize) (hge : c.offset + 16 ≤ stop)
    (hloop : c.crcLoop cfg padding stop fuel = some c')
    (hbelow : ∀ i, i < p → i < c'.offset → c'.block i = block i)
    (habove : ∀ i, p ≤ i ∨ c'.offset ≤ i → c.offset ≤ i → block i = c.block i)
    (hp : c.offset + 8 ≤ p) (htorn : p < c'.offset → TornFails cfg block p) :
    ∃ d, t.Ends cfg block d ∧ d.Closes t := by
  induction fuel generalizing c t with
  | zero => cases hloop
  | succ fuel ih =>
    have Hc := c.crcTag_spec cfg hge
    have hnoff := Commit.crcRound_offset Hc padding
    have hge' := Hc.ge
    have hle := Hc.le
    obtain ⟨hloop, hend, hfirst⟩ := Commit.crcLoop_succ Hc hloop
    generalize hc₁ : c.crcRound cfg padding stop = c₁ at hloop hnoff hfirst
    have hkeep : ∀ i, c₁.offset ≤ i → c₁.block i = c.block i := fun i hi =>
      hc₁ ▸ Commit.crcRound_block Hc padding (.inr (by omega))
    have hagree : AgreeBelow (c.offset + 8) (c.crcRound cfg padding stop).block block :=
      fun i hi => by
        rw [hc₁, ← hfirst i (by omega)]
        exact hbelow i (by omega) (by omega)
    have hreads := Hc.scan_reads hstop hnext hptag hcrc padding hagree
    generalize hdata : ByteImage.read block (c.offset + 4) (tagDsize (c.crcTag cfg stop) - 4) = data
      at hreads
    have hnext₁ : (t.accept (c.crcTag cfg stop) data).next = c₁.offset := by
      change t.next + tagDsize (c.crcTag cfg stop ^^^ _) = _
      rw [tagDsize_resetBit, hnext, Hc.size, hnoff]
    have hptag₁ : (t.accept (c.crcTag cfg stop) data).ptag = c₁.ptag := hc₁ ▸ rfl
    have hcrc₁ : (t.accept (c.crcTag cfg stop) data).crc = c₁.crc := hc₁ ▸ rfl
    have hdir₁ : (t.accept (c.crcTag cfg stop) data).dir.offset = c₁.offset :=
      (atCommit_accept ..).offset.trans hnext₁
    have hreach₁ := hreach.tail hreads
    have hcloses : (t.accept (c.crcTag cfg stop) data).dir.Closes t :=
      ⟨by omega, rfl, rfl, rfl, [⟨c.crcTag cfg stop, data⟩], rfl, fun e he => by
        rw [List.mem_singleton.mp he]
        exact Hc.type⟩
    by_cases hlast : p ≤ c₁.offset ∨ ¬ c₁.offset < stop
    · -- the word behind the checksum tag is still the old one
      refine ⟨_, .of_reaches (.single hreads) ⟨_, .refl, ?_, rfl⟩, hcloses⟩
      refine round_crcRound Hc padding (hnext₁.trans hnoff) (hc₁ ▸ hptag₁) fun i hi _ => ?_
      refine habove i ?_ (by omega)
      rcases hlast with hlast | hlast
      · exact .inl (by omega)
      · obtain rfl := Commit.eq_of_crcLoop hlast hloop
        exact .inr (by omega)
    · rw [not_or, Nat.not_le, not_not] at hlast
      have hroom := Hc.last (by omega)
      by_cases hp₁ : c₁.offset + 8 ≤ p
      · obtain ⟨d, hends, hd⟩ := ih hreach₁ hnext₁ hptag₁ hcrc₁ (by omega) hloop
          (fun i hi hle => (habove i hi (by omega)).trans (hkeep i hle).symm) hp₁
        obtain ⟨crcs, hlog, hcrcs⟩ := hd.log
        refine ⟨d, .of_reaches (.single hreads) hends, hd.pos, hd.count, hd.tail, hd.split,
          ⟨c.crcTag cfg stop, data⟩ :: crcs, hlog.trans (List.append_assoc ..), fun e he => ?_⟩
        rcases List.mem_cons.mp he with rfl | he
        · exact Hc.type
        · exact hcrcs e he
      · -- a cut in the next footer
        have hlt : p < c'.offset := by
          have hend := Commit.le_of_crcLoop hloop
          omega
        refine ⟨_, .of_reaches (.single hreads) (ends_of_torn (htorn hlt) hreach₁ (by omega)
          fun s hs _ => ?_), hcloses⟩
        have hmono := TagScan.Reaches.next_le hs
        omega

/-- A checksum tag that leaves the block ends the scan. -/
theorem round_of_full (Hc : c.CrcTag cfg stop noff) (hfull : cfg.blockSize < noff)
    (hnext : t.next = c.offset) (hptag : t.ptag = c.ptag)
    (hword : ByteImage.read block c.offset 4 = c.footer cfg stop) :
    ∃ erased, t.round cfg block = .error erased := by
  have hsize := Hc.size
  rw [TagScan.round, hnext]
  cases hbd : bdRead cfg block c.offset 4 with
  | none => exact ⟨false, rfl⟩
  | some word =>
    have htag : fromBe32 word ^^^ t.ptag = c.crcTag cfg stop := by
      rw [← (bdRead_eq_some hbd).2, hword, Commit.footer, fromBe32_toBe32, hptag, BitVec.xor_assoc,
        BitVec.xor_self, BitVec.xor_zero]
    dsimp only
    rw [htag, Hc.valid, if_neg (by decide), if_pos (by omega)]
    exact ⟨_, rfl⟩

theorem ends_of_full (hwrite : 0 < cfg.writeSize) (h : c.commitCrc cfg padding begin = some c')
    (hfull : cfg.blockSize < c.offset + 16) (Hfollows : Follows cfg (scanStart revision) c t)
    (hagree : AgreeBelow (c.offset + 4) c'.block block) :
    (scanStart revision).Ends cfg block t.dir := by
  have Hextends := Commit.crcLoop_extends (le_alignup _ hwrite) (Commit.crcLoop_of_commitCrc h)
  have Hc := c.crcTag_spec cfg (le_alignup (c.offset + 16) hwrite)
  have hge := Hc.ge
  obtain ⟨-, hend, hfirst⟩ := Commit.crcLoop_succ Hc (Commit.crcLoop_of_commitCrc h)
  have hreach := Hfollows.reaches block fun i hi =>
    (Hextends.block i (.inl hi)).symm.trans (hagree i (by omega))
  have hread := (Commit.crcRound_reads Hc padding (fun _ _ => rfl)).2.1
  have hagree' : AgreeBelow (c.offset + 4)
      (c.crcRound cfg padding (alignup (c.offset + 16) cfg.writeSize)).block block := fun i hi =>
    (hfirst i (by omega)).symm.trans (hagree i hi)
  rw [hagree'.read_eq (Nat.le_refl _)] at hread
  exact ⟨t, hreach, round_of_full Hc (by omega) Hfollows.next Hfollows.ptag hread, rfl⟩

/-! ## A cut anywhere in a commit -/

/-- A commit: its tags from the start on, and its checksums. -/
structure Commit.Into (cfg : DiskConfig) (padding : Nat → Option UInt8) (begin : Nat)
    (entries : List LogEntry) (c₀ c c' : Commit) : Prop where
  plain : ∀ e ∈ entries, e.Plain
  run : entries.foldlM (Commit.attribute cfg cfg.commitEnd) c₀ = some c
  crc : c.commitCrc cfg padding begin = some c'

variable {c₀ : Commit} {m : ByteImage.Image}

theorem Commit.Into.extends (H : Commit.Into cfg padding begin entries c₀ c c')
    (hwrite : 0 < cfg.writeSize) : c₀.Extends c ∧ c.Extends c' ∧ c.offset + 16 ≤ c'.offset :=
  ⟨Commit.run_extends H.run,
    Commit.crcLoop_extends (le_alignup _ hwrite) (Commit.crcLoop_of_commitCrc H.crc),
    Nat.le_trans (le_alignup _ hwrite)
      (Commit.le_of_crcLoop (Commit.crcLoop_of_commitCrc H.crc))⟩

/-- A cut leaves what was there before the commit, or the directory of the commit. -/
theorem Commit.Into.torn (H : Commit.Into cfg padding begin entries c₀ c c')
    (hwrite : 0 < cfg.writeSize) (hdvd : cfg.writeSize ∣ cfg.blockSize)
    (hm : ∀ i, c₀.offset ≤ i → c₀.block i = m i)
    (hrevision : revisionOf (ByteImage.cut p c'.block m) = revision)
    (hrevision' : revisionOf c'.block = revision)
    (Hfollows : Follows cfg (scanStart revision) c₀ t) (hle : c₀.offset ≤ p)
    (hdir : t.dir.offset < p)
    (htorn : p < c'.offset → TornFails cfg (ByteImage.cut p c'.block m) p) :
    (scanStart revision).Ends cfg (ByteImage.cut p c'.block m) t.dir ∨
      ∃ s d d', (scanStart revision).Ends cfg (ByteImage.cut p c'.block m) d ∧ d.Closes s ∧
        (scanStart revision).Ends cfg c'.block d' ∧ d'.Closes s ∧
        s.log = t.log ++ entries.map LogEntry.stored := by
  obtain ⟨Hrun, Hcrc, hend⟩ := H.extends hwrite
  have hoffset := Hrun.le
  by_cases hp : p < c.offset + 8
  · subst hrevision
    refine .inl (ends_before Hfollows H.plain H.run (fun i hi hi' => ?_) hp hle hdir
      (htorn (by omega)))
    rw [ByteImage.cut_of_lt _ _ hi, Hcrc.block i (.inl hi')]
  obtain ⟨s, Hs, hdir, hlog, -⟩ := Hfollows.run H.plain H.run
  by_cases hroom : cfg.blockSize < c.offset + 16
  · -- the checksum does not fit in the block
    refine .inl (hdir ▸ ends_of_full hwrite H.crc hroom Hs fun i hi => ?_)
    rw [ByteImage.cut_of_lt _ _ (by omega)]
  · right
    have hstop := alignup_le hdvd hwrite (Nat.not_lt.mp hroom)
    have hge := le_alignup (c.offset + 16) hwrite
    have hloop := Commit.crcLoop_of_commitCrc H.crc
    have hkeep : ∀ i, c.offset ≤ i → c.block i = m i := fun i hi =>
      (Hrun.block i (.inr hi)).trans (hm i (by omega))
    obtain ⟨d, hends, hd⟩ : ∃ d, s.Ends cfg (ByteImage.cut p c'.block m) d ∧ d.Closes s := by
      subst hrevision
      refine ends_behind (Hs.reaches _ fun i hi => ?_) Hs.next Hs.ptag Hs.crc hstop hge hloop
        (fun i hi _ => (ByteImage.cut_of_lt _ _ hi).symm) (fun i hi hle => ?_) (by omega) htorn
      · rw [ByteImage.cut_of_lt _ _ (by omega), Hcrc.block i (.inl hi)]
      · by_cases hip : p ≤ i
        · rw [ByteImage.cut_of_ge _ _ hip, hkeep i hle]
        · rw [ByteImage.cut_of_lt _ _ (by omega), Hcrc.block i (.inr (by omega))]
    obtain ⟨d', hends', hd'⟩ : ∃ d', s.Ends cfg c'.block d' ∧ d'.Closes s := by
      subst hrevision'
      refine ends_behind (p := c'.offset) (Hs.reaches _ fun i hi => (Hcrc.block i (.inl hi)).symm)
        Hs.next Hs.ptag Hs.crc hstop hge hloop (fun _ _ _ => rfl) (fun i hi _ => ?_) (by omega)
        (fun h => absurd h (Nat.lt_irrefl _))
      exact Hcrc.block i (.inr (by omega))
    refine ⟨s, d, d', .of_reaches (Hs.reaches _ fun i hi => ?_) hends, hd,
      .of_reaches (Hs.reaches _ fun i hi => (Hcrc.block i (.inl hi)).symm) hends', hd', hlog⟩
    rw [ByteImage.cut_of_lt _ _ (by omega), Hcrc.block i (.inl hi)]

end

/-! ## The fetch behind a cut -/

/-- The directories say the same about their entries. -/
structure FetchedDir.SameState (d d' : FetchedDir) : Prop where
  pair : d.pair = d'.pair
  revision : d.revision = d'.revision
  count : d.count = d'.count
  split : d.split = d'.split
  tail : d.tail = d'.tail
  tags : d.tags = d'.tags

theorem ScanDir.Closes.tags {d : ScanDir} (H : d.Closes s) (pair : BlockPair)
    (revision : BitVec 32) (erased : Bool) :
    (d.fetched pair revision erased).tags =
      s.log.filter fun e => tagType1 e.tag ≠ typeCrc := by
  obtain ⟨crcs, hlog, hcrcs⟩ := H.log
  change d.log.filter _ = _
  rw [hlog, List.filter_append, filter_crcs hcrcs, List.append_nil]

theorem ScanDir.Closes.sameState {d d' : ScanDir} (H : d.Closes s) (H' : d'.Closes s)
    (pair : BlockPair) (revision : BitVec 32) (erased erased' : Bool) :
    (d.fetched pair revision erased).SameState (d'.fetched pair revision erased') where
  pair := rfl
  revision := rfl
  count := H.count.trans H'.count.symm
  split := H.split.trans H'.split.symm
  tail := H.tail.trans H'.tail.symm
  tags := (H.tags ..).trans (H'.tags ..).symm

section
variable {cfg : DiskConfig} {disk disk' : Nat → ByteImage.Image} {dir dir' : FetchedDir}

theorem fetchFirst_of_ends {d : ScanDir} {block : ByteImage.Image} (hblock : disk pair.1 = block)
    (hrevision : revisionOf block = revision) (h : (scanStart revision).Ends cfg block d)
    (hpos : 0 < d.offset) :
    ∃ erased, fetchFirst cfg disk pair = some (d.fetched pair revision erased) := by
  rw [fetchFirst, hblock, hrevision, h.scan]
  exact ⟨_, if_pos hpos⟩

theorem fetchFirst_eq_none {d : ScanDir}
    (h : (scanStart (revisionOf (disk pair.1))).Ends cfg (disk pair.1) d) (hzero : d.offset = 0) :
    fetchFirst cfg disk pair = none := by
  rw [fetchFirst, h.scan, hzero]
  rfl

/-- The directory before the commit, or the one that a fetch finds behind all of it, with its
tags. -/
def BeforeOrBehind (cfg : DiskConfig) (disk : Nat → ByteImage.Image) (pair : BlockPair)
    (dir : FetchedDir) (tags : List LogEntry) (d : FetchedDir) : Prop :=
  d.SameState dir ∨
    ∃ d', fetchPair cfg disk pair = some d' ∧ d.SameState d' ∧ d'.tags = tags

/-- An append that is cut. -/
theorem Appends.torn (H : Appends cfg padding fs (disk dir.pair.1) dir attrs entries dir' c c')
    (hwrite : 0 < cfg.writeSize) (hdvd : cfg.writeSize ∣ cfg.blockSize)
    (Hsettles : Settles cfg disk pair dir) (hframed : ∀ e ∈ dir.log, e.Framed)
    (hplain : ∀ e ∈ entries, e.Plain) (hle : dir.offset ≤ p)
    (htorn : p < c'.offset →
      TornFails cfg (ByteImage.cut p c'.block (disk dir.pair.1)) p) :
    ∃ d, fetchPair cfg
        (Function.update disk dir.pair.1 (ByteImage.cut p c'.block (disk dir.pair.1))) pair =
          some d ∧
      BeforeOrBehind cfg (Function.update disk dir.pair.1 c'.block) pair dir
        (dir.tags ++ entries.map LogEntry.stored) d := by
  obtain ⟨s, Hs⟩ := exists_scan_of_erased Hsettles.first H.erased
  have hoffset := Hs.le_offset
  have hextends := (Commit.run_extends H.run).trans
    (Commit.crcLoop_extends (le_alignup _ hwrite) (Commit.crcLoop_of_commitCrc H.crc))
  have hbelow : AgreeBelow dir.offset (disk dir.pair.1) c'.block :=
    fun i hi => (hextends.block i (.inl hi)).symm
  -- the revision lies in front of the commit
  have hrevision' : revisionOf c'.block = dir.revision := by
    rw [revisionOf, ← hbelow.read_eq (by omega), ← Hs.revision, revisionOf]
  have hrevision : revisionOf (ByteImage.cut p c'.block (disk dir.pair.1)) = dir.revision := by
    rw [revisionOf, ← (ByteImage.agreeBelow_cut p c'.block (disk dir.pair.1)).read_eq (by omega),
      ← hrevision', revisionOf]
  have hfetch : ∀ {block : ByteImage.Image} {d : ScanDir}, revisionOf block = dir.revision →
      (scanStart dir.revision).Ends cfg block d → 0 < d.offset →
      ∃ erased, fetchPair cfg (Function.update disk dir.pair.1 block) pair =
        some (d.fetched dir.pair dir.revision erased) := by
    intro block d hr hends hpos
    have hself : Function.update disk dir.pair.1 block dir.pair.1 = block :=
      Function.update_self ..
    obtain ⟨erased, hfirst⟩ := fetchFirst_of_ends hself hr hends hpos
    exact ⟨erased, fetchPair_eq_some.mpr <| Hsettles.of_first (.inl rfl) hfirst
      (by rw [hself, hr, Hs.revision]) fun b hb => Function.update_of_ne hb ..⟩
  have hpos := (fetchFirst_eq Hsettles.first).1
  have hsoffset : s.dir.offset = dir.offset := (congrArg FetchedDir.offset Hs.dir_eq).symm
  have hbefore : (scanStart dir.revision).Ends cfg (ByteImage.cut p c'.block (disk dir.pair.1))
      s.dir → ∃ d, fetchPair cfg (Function.update disk dir.pair.1
        (ByteImage.cut p c'.block (disk dir.pair.1))) pair = some d ∧ d.SameState dir :=
          fun hends => by
    obtain ⟨erased, hfetch⟩ := hfetch hrevision hends (by omega)
    refine ⟨_, hfetch, ?_⟩
    rw [Hs.dir_eq]
    exact ⟨rfl, rfl, rfl, rfl, rfl, rfl⟩
  have Hfollows := Hs.follows hframed
  rcases Nat.eq_or_lt_of_le hle with rfl | hlt
  · -- nothing is written
    have hsame : ByteImage.cut dir.offset c'.block (disk dir.pair.1) = disk dir.pair.1 := by
      funext i
      by_cases hi : i < dir.offset
      · rw [ByteImage.cut_of_lt _ _ hi, hbelow i hi]
      · exact ByteImage.cut_of_ge _ _ (Nat.not_lt.mp hi)
    rw [hsame, Function.update_eq_self]
    exact ⟨dir, fetchPair_eq_some.mpr Hsettles, .inl ⟨rfl, rfl, rfl, rfl, rfl, rfl⟩⟩
  rcases Commit.Into.torn ⟨hplain, H.run, H.crc⟩ hwrite hdvd (fun _ _ => rfl) hrevision hrevision'
    Hfollows hle (by omega) htorn with hends | ⟨t, d, d', hends, hd, hends', hd', hlog⟩
  · obtain ⟨d, hd, hsame⟩ := hbefore hends
    exact ⟨d, hd, .inl hsame⟩
  · obtain ⟨erased, hfetched⟩ := hfetch hrevision hends hd.pos
    obtain ⟨erased', hfetched'⟩ := hfetch hrevision' hends' hd'.pos
    refine ⟨_, hfetched, .inr ⟨_, hfetched', hd.sameState hd' .., ?_⟩⟩
    rw [hd'.tags, hlog, List.filter_append, filter_stored hplain, Hs.log]
    rfl

/-! ## A compaction that is cut -/

/-- The other block cannot be fetched. -/
theorem Settles.of_none (H : Settles cfg disk pair dir)
    (hother : disk' dir.pair.1 = disk dir.pair.1)
    (hnone : fetchFirst cfg disk' (dir.pair.2, dir.pair.1) = none) :
    Settles cfg disk' pair dir := by
  refine ⟨H.bounds, (fetchFirst_congr hother).trans H.first, ?_⟩
  rcases recentFirst_cases disk' pair with h | h <;> rcases H.pair_cases with h' | h'
  · exact .inl (h.trans h'.symm)
  · exact .inr ⟨by rw [h, h'], hnone⟩
  · exact .inr ⟨by rw [h, h'], hnone⟩
  · exact .inl (h.trans h'.symm)

/-- The other block has the next revision. -/
theorem Settles.of_newer {d : FetchedDir} (H : Settles cfg disk pair dir)
    (hother : disk' dir.pair.1 = disk dir.pair.1)
    (hnewer : revisionOf (disk' dir.pair.2) = dir.revision + 1#32)
    (hfirst : fetchFirst cfg disk' (dir.pair.2, dir.pair.1) = some d) :
    Settles cfg disk' pair d := by
  have hpair := (fetchFirst_eq hfirst).2.1
  have hrevision : revisionOf (disk' dir.pair.1) = dir.revision := by
    rw [hother]
    exact (congrArg FetchedDir.revision (fetchFirst_eq H.first).2.2).symm
  have hgt : scmpGt (dir.revision + 1#32) dir.revision = true := by
    have hone : dir.revision + 1#32 - dir.revision = 1#32 := by
      rw [BitVec.add_comm, BitVec.add_sub_cancel]
    rw [scmpGt, hone]
    decide
  refine ⟨H.bounds, by rw [hpair]; exact hfirst, .inl ?_⟩
  rw [hpair]
  rcases H.pair_cases with h | h
  · rw [← h, recentFirst, hnewer, hrevision, if_pos hgt]
  · rw [h] at hnewer hrevision ⊢
    rw [recentFirst, hnewer, hrevision, scmpGt_asymm hgt]
    rfl

/-- The scan of an erased block comes to no checksum. -/
theorem ends_of_erased {m : ByteImage.Image} (h : ∀ i, m i = 0xff) (revision : BitVec 32) :
    (scanStart revision).Ends cfg m {} := by
  have hword : ∀ off, fromBe32 (ByteImage.read m off 4) = 0xffffffff#32 := fun off => by
    rw [ByteImage.read, List.map_congr_left fun i _ => h (off + i)]
    decide
  have htags : ∀ tag : Tag, tag = 0xffffffff#32 ∨ tag = 0#32 → 0xffffffff#32 ^^^ tag = 0#32 ∨
      tagIsValid (0xffffffff#32 ^^^ tag) = false := by
    rintro tag (rfl | rfl)
    · exact .inl (by decide)
    · exact .inr (by decide)
  have hdir : ∀ s, (scanStart revision).Reaches cfg m s →
      s.dir = {} ∧ (s.ptag = 0xffffffff#32 ∨ s.ptag = 0#32) := by
    intro s hs
    induction hs with
    | refl => exact ⟨rfl, .inl rfl⟩
    | @tail s s' _ hreads ih =>
      have hzero := htags s.ptag ih.2
      rw [← hword s.next] at hzero
      cases hreads with
      | crc htag hvalid hfits hty =>
        rw [htag, hvalid] at hzero
        rw [hzero.resolve_right (by decide)] at hty
        cases hty
      | tail htag hvalid =>
        rw [htag, hvalid] at hzero
        exact ⟨ih.1, .inr (hzero.resolve_right (by decide))⟩
      | other htag hvalid =>
        rw [htag, hvalid] at hzero
        exact ⟨ih.1, .inr (hzero.resolve_right (by decide))⟩
  have hnext := scanStart_next revision
  obtain ⟨s, hs, erased, hstop, -⟩ := loop_reaches cfg m (cfg.blockSize + 1) (scanStart revision)
    (by omega)
  exact ⟨s, hs, ⟨erased, hstop⟩, (hdir s hs).1⟩

/-- The steps of a compaction. -/
structure CompactsTo (cfg : DiskConfig) (padding : Nat → Option UInt8) (fs : GlobalStates)
    (base : ByteImage.Image) (dir : FetchedDir) (attrs : List Attr) (begin stop : Nat)
    (entries : List LogEntry) (c c' : Commit) : Prop where
  tags : compactEntries fs dir attrs begin stop = some entries
  run : entries.foldlM (Commit.attribute cfg cfg.commitEnd)
    (compactStart base (dir.revision + 1#32)) = some c
  crc : c.commitCrc cfg padding 0 = some c'

theorem compactsTo_of_commit (h : compactCommit cfg padding fs base dir attrs begin stop = some r) :
    ∃ entries c c', CompactsTo cfg padding fs base dir attrs begin stop entries c c' ∧
      r.block = c'.block ∧ r.dir.offset = c'.offset := by
  rw [compactCommit] at h
  obtain ⟨entries, hentries, h⟩ := Option.bind_eq_some_iff.mp h
  obtain ⟨c, hrun, h⟩ := Option.bind_eq_some_iff.mp h
  obtain ⟨c', hcrc, rfl⟩ := Option.map_eq_some_iff.mp h
  exact ⟨entries, c, c', ⟨hentries, hrun, hcrc⟩, rfl, rfl⟩

theorem compactStart_offset (base : ByteImage.Image) (revision : BitVec 32) :
    (compactStart base revision).offset = 4 := rfl

theorem compactStart_block (base : ByteImage.Image) (revision : BitVec 32) (h : 4 ≤ i) :
    (compactStart base revision).block i = base i := by
  have hlen : 0 + (toLe32 revision).length ≤ i := by
    rw [length_toLe32]
    omega
  exact ByteImage.write_of_ge base (toLe32 revision) hlen

theorem follows_compactStart (cfg : DiskConfig) (base : ByteImage.Image) (revision : BitVec 32) :
    Follows cfg (scanStart revision) (compactStart base revision) (scanStart revision) where
  next := scanStart_next revision
  ptag := rfl
  crc := rfl
  reaches _ _ := .refl

/-- A compaction that is cut. -/
theorem CompactsTo.torn (H : CompactsTo cfg padding fs base dir' attrs begin stop entries c c')
    (hwrite : 0 < cfg.writeSize) (hdvd : cfg.writeSize ∣ cfg.blockSize)
    (Hsettles : Settles cfg disk pair dir) (hblocks : dir.pair.1 ≠ dir.pair.2)
    (hrevision : dir'.revision = dir.revision)
    (hbase : base = disk dir.pair.2 ∨ ∀ i, base i = 0xff) (hplain : ∀ e ∈ entries, e.Plain)
    (htorn : p < c'.offset → TornFails cfg (ByteImage.cut p c'.block base) p) :
    ∃ d, fetchPair cfg
        (Function.update disk dir.pair.2 (ByteImage.cut p c'.block base)) pair = some d ∧
      BeforeOrBehind cfg (Function.update disk dir.pair.2 c'.block) pair dir
        (entries.map LogEntry.stored) d := by
  have hother : ∀ block : ByteImage.Image, Function.update disk dir.pair.2 block dir.pair.1 =
      disk dir.pair.1 := fun block => Function.update_of_ne hblocks ..
  -- the new block is not fetched
  have hbefore : (scanStart (revisionOf (ByteImage.cut p c'.block base))).Ends cfg
      (ByteImage.cut p c'.block base) {} → ∃ d, fetchPair cfg
        (Function.update disk dir.pair.2 (ByteImage.cut p c'.block base)) pair = some d ∧
      BeforeOrBehind cfg (Function.update disk dir.pair.2 c'.block) pair dir
        (entries.map LogEntry.stored) d := fun hends => by
    have hnone : fetchFirst cfg (Function.update disk dir.pair.2 (ByteImage.cut p c'.block base))
        (dir.pair.2, dir.pair.1) = none :=
      fetchFirst_eq_none (by rw [Function.update_self]; exact hends) rfl
    exact ⟨dir, fetchPair_eq_some.mpr (Hsettles.of_none (hother _) hnone),
      .inl ⟨rfl, rfl, rfl, rfl, rfl, rfl⟩⟩
  have Hinto : Commit.Into cfg padding 0 entries (compactStart base (dir'.revision + 1#32)) c c' :=
    ⟨hplain, H.run, H.crc⟩
  obtain ⟨Hrun, Hcrc, hend⟩ := Hinto.extends hwrite
  have hoffset : 4 ≤ c.offset := Hrun.le
  have hextends := Hrun.trans Hcrc
  rw [hrevision] at hextends Hinto
  rcases Nat.eq_zero_or_pos p with rfl | hpos
  · -- nothing is written
    have hsame : ByteImage.cut 0 c'.block base = base := by
      funext i
      exact ByteImage.cut_of_ge _ _ (Nat.zero_le i)
    rcases hbase with hbase | herased
    · rw [hsame, hbase, Function.update_eq_self]
      exact ⟨dir, fetchPair_eq_some.mpr Hsettles, .inl ⟨rfl, rfl, rfl, rfl, rfl, rfl⟩⟩
    · refine hbefore ?_
      rw [hsame]
      exact ends_of_erased herased _
  by_cases hp : p < 4
  · -- a cut in the revision
    refine hbefore (ends_of_torn (htorn (by omega)) .refl hpos fun s hs _ => ?_)
    have hmono := TagScan.Reaches.next_le hs
    rw [scanStart_next] at hmono
    omega
  have hwritten : revisionOf c'.block = dir.revision + 1#32 := by
    have hagree : AgreeBelow 4 c'.block (compactStart base (dir.revision + 1#32)).block :=
      fun i hi => hextends.block i (.inl hi)
    have hread : ByteImage.read (compactStart base (dir.revision + 1#32)).block 0 4 =
        toLe32 (dir.revision + 1#32) := ByteImage.read_write base 0 (toLe32 (dir.revision + 1#32))
    rw [revisionOf, hagree.read_eq (by omega), hread, fromLe32_toLe32]
  have hcut : revisionOf (ByteImage.cut p c'.block base) = dir.revision + 1#32 := by
    rw [revisionOf, ← (ByteImage.agreeBelow_cut p c'.block base).read_eq (by omega), ← hwritten,
      revisionOf]
  have hkeep : ∀ i, 4 ≤ i → (compactStart base (dir.revision + 1#32)).block i = base i :=
    fun _ hi => compactStart_block base _ hi
  rcases Hinto.torn hwrite hdvd hkeep hcut hwritten
    (follows_compactStart ..) (Nat.not_lt.mp hp) hpos htorn with
    hends | ⟨t, d, d', hends, hd, hends', hd', hlog⟩
  · refine hbefore ?_
    rw [hcut]
    exact hends
  · have hnewer : ∀ {block : ByteImage.Image} {d : ScanDir},
        revisionOf block = dir.revision + 1#32 →
        (scanStart (dir.revision + 1#32)).Ends cfg block d → d.Closes t →
        ∃ erased, fetchPair cfg (Function.update disk dir.pair.2 block) pair =
          some (d.fetched (dir.pair.2, dir.pair.1) (dir.revision + 1#32) erased) := by
      intro block d hrev hends hd
      have hself : Function.update disk dir.pair.2 block dir.pair.2 = block :=
        Function.update_self ..
      have hrev' : revisionOf (Function.update disk dir.pair.2 block dir.pair.2) =
          dir.revision + 1#32 := by rw [hself, hrev]
      obtain ⟨erased, hfirst⟩ := fetchFirst_of_ends
        (show Function.update disk dir.pair.2 block (dir.pair.2, dir.pair.1).1 = block from hself)
        hrev hends hd.pos
      exact ⟨erased, fetchPair_eq_some.mpr (Hsettles.of_newer (hother _) hrev' hfirst)⟩
    obtain ⟨erased, hfetch⟩ := hnewer hcut hends hd
    obtain ⟨erased', hfetch'⟩ := hnewer hwritten hends' hd'
    refine ⟨_, hfetch, .inr ⟨_, hfetch', hd.sameState hd' .., ?_⟩⟩
    rw [hd'.tags, hlog, List.filter_append, filter_stored hplain]
    rfl

/-! ## A commit that loses power -/

/-- A commit of the directory: the block it programs, the bytes there before, where it starts, the
tags that it writes and those that the directory has then. -/
inductive Programs (cfg : DiskConfig) (padding : Nat → Option UInt8) (fs : GlobalStates)
    (disk : Nat → ByteImage.Image) (dir : FetchedDir) :
    (b : Nat) → (base : ByteImage.Image) → (start : Nat) → (entries tags : List LogEntry) →
      Appended → Prop where
  | append (attrs : List Attr) (hentries : appendEntries fs dir attrs = some entries)
    (hcommit : appendCommit cfg padding fs (disk dir.pair.1) dir attrs = some r) :
    Programs cfg padding fs disk dir dir.pair.1 (disk dir.pair.1) dir.offset entries
      (dir.tags ++ entries.map LogEntry.stored) r
  | compact (dir' : FetchedDir) (attrs : List Attr) (begin stop : Nat)
    (hrevision : dir'.revision = dir.revision)
    -- the erase clears the block, or leaves it alone
    (hbase : base = disk dir.pair.2 ∨ ∀ i, base i = 0xff)
    (hentries : compactEntries fs dir' attrs begin stop = some entries)
    (hcommit : compactCommit cfg padding fs base dir' attrs begin stop = some r) :
    Programs cfg padding fs disk dir dir.pair.2 base 0 entries (entries.map LogEntry.stored) r

/-- **A commit is atomic under power loss.** Behind any number of its bytes, as long as no checksum
passes that covers old and new ones, a fetch finds the directory as it was or as it is behind the
whole commit. -/
theorem fetchPair_torn (cfg : DiskConfig) (padding : Nat → Option UInt8) (fs : GlobalStates)
    (disk : Nat → ByteImage.Image) (pair : BlockPair) (dir : FetchedDir) (b : Nat)
    (base : ByteImage.Image) (start : Nat) (entries tags : List LogEntry) (r : Appended) (n : Nat)
    (hwrite : 0 < cfg.writeSize) (hdvd : cfg.writeSize ∣ cfg.blockSize)
    (hfetch : fetchPair cfg disk pair = some dir) (hframed : ∀ e ∈ dir.log, e.Framed)
    (hblocks : dir.pair.1 ≠ dir.pair.2) (hplain : ∀ e ∈ entries, e.Plain)
    (H : Programs cfg padding fs disk dir b base start entries tags r)
    (htorn : start + n < r.dir.offset →
      TornFails cfg (ByteImage.cut (start + n) r.block base) (start + n)) :
    ∃ d, fetchPair cfg
        (Function.update disk b (ByteImage.cut (start + n) r.block base)) pair = some d ∧
      BeforeOrBehind cfg (Function.update disk b r.block) pair dir tags d := by
  have Hsettles := fetchPair_eq_some.mp hfetch
  cases H with
  | append attrs hentries hcommit =>
    obtain ⟨entries', dir', c, c', Happends, rfl⟩ := appends_of_commit hcommit
    obtain rfl : entries' = entries := Option.some.inj (Happends.tags.symm.trans hentries)
    exact Happends.torn hwrite hdvd Hsettles hframed hplain (Nat.le_add_right ..) htorn
  | compact dir' attrs begin stop hrevision hbase hentries hcommit =>
    obtain ⟨entries', c, c', Hcompacts, hblock, hoffset⟩ := compactsTo_of_commit hcommit
    obtain rfl : entries' = entries := Option.some.inj (Hcompacts.tags.symm.trans hentries)
    rw [hblock, hoffset] at htorn
    rw [hblock]
    exact Hcompacts.torn hwrite hdvd Hsettles hblocks hrevision hbase hplain htorn

end

/-! ## Cuts that can be checked -/

/-- No checksum that the scan accepts from here on covers bytes on both sides of `p`. -/
def tornCheck (cfg : DiskConfig) (block : ByteImage.Image) (p : Nat) : (fuel : Nat) → TagScan → Bool
  | 0, _ => true
  | fuel + 1, s =>
    match s.round cfg block with
    | .error _ => true
    | .ok s' =>
      let crc := tagType1 (fromBe32 (ByteImage.read block s.next 4) ^^^ s.ptag) = typeCrc
      if crc ∧ s.dir.offset < p ∧ p < s.next + 8 then false else tornCheck cfg block p fuel s'

theorem tornCheck_iff {cfg : DiskConfig} {block : ByteImage.Image} (p : Nat) {s : TagScan}
    (hfuel : cfg.blockSize < fuel + s.next) : tornCheck cfg block p fuel s = true ↔
      ∀ s', s.Reaches cfg block s' → s'.Accepts cfg block → s'.dir.offset < p →
        s'.next + 8 ≤ p := by
  induction fuel generalizing s with
  | zero =>
    refine iff_of_true rfl fun s' hs haccepts _ => ?_
    obtain ⟨-, s'', hreads⟩ := haccepts
    obtain ⟨e, -, -, hnext, hle⟩ := hreads.exists_entry
    have hmono := hs.next_le
    have hge := tagDsize_ge e.tag
    omega
  | succ fuel ih =>
    rw [tornCheck]
    cases hround : s.round cfg block with
    | error erased =>
      have hno : ∀ s', ¬ s.Reads cfg block s' := fun s' hreads => by
        rw [round_ok.mpr hreads] at hround
        cases hround
      refine iff_of_true rfl fun s' hs haccepts _ => ?_
      rcases Relation.ReflTransGen.cases_head hs with rfl | ⟨s₁, hreads, -⟩
      · exact absurd haccepts.2.choose_spec (hno _)
      · exact absurd hreads (hno s₁)
    | ok s₁ =>
      have hreads := round_ok.mp hround
      obtain ⟨e, -, -, hnext, -⟩ := hreads.exists_entry
      have hge := tagDsize_ge e.tag
      dsimp only
      rw [Bool.ite_eq_true_distrib, ih (by omega)]
      split
      · rename_i hcrc
        refine iff_of_false (by decide) fun H => ?_
        have hle := H s .refl ⟨hcrc.1, s₁, hreads⟩ hcrc.2.1
        omega
      · rename_i hcrc
        refine ⟨fun H s' hs haccepts hlt => ?_, fun H s' hs => H s' (.head hreads hs)⟩
        rcases Relation.ReflTransGen.cases_head hs with rfl | ⟨s₂, hreads₂, hs⟩
        · exact Nat.not_lt.mp fun hp => hcrc ⟨haccepts.1, hlt, hp⟩
        · obtain rfl := hreads.eq hreads₂
          exact H s' hs haccepts hlt

instance (cfg : DiskConfig) (block : ByteImage.Image) (p : Nat) :
    Decidable (TornFails cfg block p) :=
  decidable_of_iff (tornCheck cfg block p cfg.blockSize (scanStart (revisionOf block)) = true)
    (tornCheck_iff p (by rw [scanStart_next]; omega))

instance (e : LogEntry) : Decidable e.Plain := inferInstanceAs (Decidable (_ ∧ _))

theorem fetchPair_torn_mkdir :
    ∃ entries r, appendEntries {} fileDir mkdirAttrs = some entries ∧
      appendCommit ⟨256, 4, 8, 0⟩ (fun _ => some 0) {} (diskOf filePair 2) fileDir mkdirAttrs =
        some r ∧
      ∃ d, fetchPair ⟨256, 4, 8, 0⟩ (Function.update (diskOf filePair) 2
          (ByteImage.cut (40 + 38) r.block (diskOf filePair 2))) (2, 3) = some d ∧
        BeforeOrBehind ⟨256, 4, 8, 0⟩ (Function.update (diskOf filePair) 2 r.block) (2, 3) fileDir
          (fileDir.tags ++ entries.map LogEntry.stored) d := by
  obtain ⟨entries, hentries⟩ := Option.isSome_iff_exists.mp (show (appendEntries {} fileDir
    mkdirAttrs).isSome = true by decide +kernel)
  obtain ⟨r, hr⟩ := Option.isSome_iff_exists.mp (show (appendCommit ⟨256, 4, 8, 0⟩
    (fun _ => some 0) {} (diskOf filePair 2) fileDir mkdirAttrs).isSome = true by decide +kernel)
  have hplain : ∀ entries ∈ appendEntries {} fileDir mkdirAttrs, ∀ e ∈ entries, e.Plain := by
    decide +kernel
  have htorn : ∀ r ∈ appendCommit ⟨256, 4, 8, 0⟩ (fun _ => some 0) {} (diskOf filePair 2) fileDir
      mkdirAttrs, TornFails ⟨256, 4, 8, 0⟩
        (ByteImage.cut (40 + 38) r.block (diskOf filePair 2)) (40 + 38) := by
    decide +kernel
  exact ⟨entries, r, hentries, hr, fetchPair_torn ⟨256, 4, 8, 0⟩ (fun _ => some 0) {}
    (diskOf filePair)
    (2, 3) fileDir 2 (diskOf filePair 2) 40 entries _ r 38 (by decide) (by decide)
      (by decide +kernel)
    (by decide) (by decide) (hplain entries hentries) (.append mkdirAttrs hentries hr)
    fun _ => htorn r hr⟩

/-- What a fetch should find behind some of the bytes of a commit. -/
def TornSafe (cfg : DiskConfig) (disk : Nat → ByteImage.Image) (pair : BlockPair) : Prop :=
  ∀ padding fs dir b base start entries tags r n, fetchPair cfg disk pair = some dir →
    Programs cfg padding fs disk dir b base start entries tags r →
    (start + n < r.dir.offset →
      TornFails cfg (ByteImage.cut (start + n) r.block base) (start + n)) →
    ∃ d, fetchPair cfg
        (Function.update disk b (ByteImage.cut (start + n) r.block base)) pair = some d ∧
      BeforeOrBehind cfg (Function.update disk b r.block) pair dir tags d

/-- A value of the directory that a fetch finds behind the first `n` bytes of an append, of the one
before it and of the one behind it, if no checksum passes on both sides. -/
def tornValues (f : FetchedDir → α) (cfg : DiskConfig) (disk : Nat → ByteImage.Image)
    (pair : BlockPair) (attrs : List Attr) (n : Nat) : Option (Option α × α × Option α) :=
  (fetchPair cfg disk pair).bind fun dir =>
    (appendCommit cfg (fun _ => some 0) {} (disk dir.pair.1) dir attrs).bind fun r =>
      let block := ByteImage.cut (dir.offset + n) r.block (disk dir.pair.1)
      if TornFails cfg block (dir.offset + n) then
        some ((fetchPair cfg (Function.update disk dir.pair.1 block) pair).map f, f dir,
          (fetchPair cfg (Function.update disk dir.pair.1 r.block) pair).map f)
      else none

theorem TornSafe.values_eq {f : FetchedDir → α} (H : TornSafe cfg disk pair)
    (hf : ∀ {d d' : FetchedDir}, d.SameState d' → f d = f d') (attrs : List Attr) (n : Nat)
    (h : tornValues f cfg disk pair attrs n = some (x, y, z)) :
    ∃ v, x = some v ∧ (v = y ∨ z = some v) := by
  obtain ⟨dir, hfetch, h⟩ := Option.bind_eq_some_iff.mp h
  obtain ⟨r, hcommit, h⟩ := Option.bind_eq_some_iff.mp h
  obtain ⟨htorn, h⟩ := Option.ite_none_right_eq_some.mp h
  obtain ⟨entries, _, _, _, happends, _⟩ := appends_of_commit hcommit
  obtain ⟨d, hd, hstate⟩ := H _ _ dir _ _ _ entries _ r n hfetch
    (.append attrs happends.tags hcommit) fun _ => htorn
  rw [hd, Option.some.injEq, Prod.mk.injEq, Prod.mk.injEq] at h
  obtain ⟨rfl, rfl, rfl⟩ := h
  refine ⟨f d, rfl, hstate.imp hf fun hbehind => ?_⟩
  obtain ⟨d', hd', hsame, -⟩ := hbehind
  rw [hd', Option.map_some, hf hsame]

/-- The fetch fails, or finds something in between, when a checksum of the log lies outside its tag,
when both blocks of the pair are the same, behind an attribute of the type of checksums that is one,
and behind a tail pointer without a size. -/
theorem fetchPair_torn_fails :
    ¬ TornSafe ⟨256, 4, 2, 0⟩ (diskOf [1, 0, 0, 0, 223, 239, 255, 253, 1, 2, 112, 31, 252, 2, 198,
      171, 226, 64]) (2, 3) ∧
    ¬ TornSafe ⟨256, 4, 8, 0⟩ (diskOf filePair) (2, 2) ∧
    ¬ TornSafe ⟨256, 4, 8, 0⟩ (diskOf filePair) (2, 3) ∧
    ¬ TornSafe ⟨256, 5, 8, 0⟩ (diskOf filePair) (2, 3) := by
  refine ⟨fun H => ?_, fun H => ?_, fun H => ?_, fun H => ?_⟩
  · obtain ⟨v, hv, -⟩ := H.values_eq (f := FetchedDir.count) (fun h => h.count)
      [⟨mkTag typeCreate 0 0, .null⟩] 1 (x := none) (y := 0) (z := none)
      (by decide +kernel)
    cases hv
  · -- the first byte of the new revision
    obtain ⟨entries, hentries⟩ := Option.isSome_iff_exists.mp (show (compactEntries {}
      { fileDir with pair := (2, 2) } [] 0 1).isSome = true by decide +kernel)
    obtain ⟨r, hr⟩ := Option.isSome_iff_exists.mp (show (compactCommit ⟨256, 4, 8, 0⟩
      (fun _ => some 0) {} (diskOf filePair 2) { fileDir with pair := (2, 2) } [] 0 1).isSome =
        true by
        decide +kernel)
    have htorn : ∀ r ∈ compactCommit ⟨256, 4, 8, 0⟩ (fun _ => some 0) {} (diskOf filePair 2)
        { fileDir with pair := (2, 2) } [] 0 1,
        TornFails ⟨256, 4, 8, 0⟩ (ByteImage.cut (0 + 1) r.block (diskOf filePair 2)) (0 + 1) ∧
          fetchPair ⟨256, 4, 8, 0⟩ (Function.update (diskOf filePair) 2
            (ByteImage.cut (0 + 1) r.block (diskOf filePair 2))) (2, 2) = none := by
      decide +kernel
    obtain ⟨d, hd, -⟩ := H (fun _ => some 0) {} { fileDir with pair := (2, 2) } 2
      (diskOf filePair 2)
      0 entries _ r 1 (by decide +kernel)
      (.compact { fileDir with pair := (2, 2) } [] 0 1 rfl (.inl rfl) hentries hr)
      fun _ => (htorn r hr).1
    rw [(htorn r hr).2] at hd
    cases hd
  · obtain ⟨v, hv, h⟩ := H.values_eq (f := fun d => (d.count, d.tags.length))
      (fun h => by rw [h.count, h.tags])
      [⟨mkTag typeCreate 1 0, .null⟩, ⟨mkTag typeCrc 0x3ff 4, .data [162, 196, 218, 79]⟩,
        ⟨mkTag typeReg 1 1, .data [98]⟩, ⟨mkTag typeCrc 0x3ff 4, .data [85, 60, 233, 90]⟩]
      12 (x := some (2, 4)) (y := (1, 3)) (z := some (2, 5)) (by decide +kernel)
    cases hv
    exact absurd h (by decide)
  · obtain ⟨v, hv, h⟩ := H.values_eq (f := FetchedDir.tail) (fun h => h.tail)
      [⟨mkTag typeSofttail 0x3ff 0, .data (pairToLe64 (5, 6))⟩] 12
      (x := some (12613497458815664176, blockNull)) (y := (blockNull, blockNull))
      (z := some (12613497458815664176, 0)) (by decide +kernel)
    cases hv
    exact absurd h (by decide)

end LittleFs
