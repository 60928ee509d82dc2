import LittleFs.CommitWrite
import LittleFs.Relocate

/-! What a commit writes behind the log is what a fetch reads there: the scan follows the tags of
the commit one by one, accepts each of its checksums and stops behind the last one. -/

namespace LittleFs

open ByteImage (AgreeBelow)

/-! ## Tags as they are stored -/

theorem stored_tag_toNat (e : LogEntry) : e.stored.tag.toNat = e.tag.toNat % 2 ^ 31 := by
  rw [LogEntry.stored, BitVec.toNat_and]
  exact Nat.and_two_pow_sub_one_eq_mod _ 31

theorem stored_tag_valid (e : LogEntry) : tagIsValid e.stored.tag = true := by
  rw [tagIsValid_iff, stored_tag_toNat]
  omega

theorem stored_tagSize (e : LogEntry) : tagSize e.stored.tag = tagSize e.tag := by
  rw [tagSize_eq, tagSize_eq, stored_tag_toNat]
  omega

theorem stored_tagDsize (e : LogEntry) : tagDsize e.stored.tag = tagDsize e.tag := by
  rw [tagDsize_eq, tagDsize_eq, stored_tagSize]

theorem stored_tagTy (e : LogEntry) : tagTy e.stored.tag = tagTy e.tag := by
  rw [tagTy, tagTy, stored_tag_toNat]
  omega

theorem stored_tagType1 (e : LogEntry) : tagType1 e.stored.tag = tagTy e.tag / 2 ^ 8 * 2 ^ 8 := by
  rw [tagType1_of_valid (stored_tag_valid e), stored_tagTy]

theorem lfsCrc_append (crc : BitVec 32) (a b : List UInt8) :
    lfsCrc crc (a ++ b) = lfsCrc (lfsCrc crc a) b := List.foldl_append ..

/-! ## The scan behind a commit -/

section
variable {cfg : DiskConfig} {s₀ s : TagScan} {c c' : Commit}

/-- The scan from `s₀` reaches `s` behind what the commit has written so far. -/
structure Follows (cfg : DiskConfig) (s₀ : TagScan) (c : Commit) (s : TagScan) : Prop where
  next : s.next = c.offset
  ptag : s.ptag = c.ptag
  crc : s.crc = c.crc
  reaches : ∀ block, AgreeBelow c.offset c.block block → s₀.Reaches cfg block s

/-- What `lfs_dir_commit_attribute` writes. -/
structure Commit.Adds (cfg : DiskConfig) (stop : Nat) (c : Commit) (e : LogEntry) (c' : Commit) :
    Prop where
  fits : c'.offset ≤ stop ∧ c'.offset ≤ cfg.blockSize
  length : e.stored.data.length = tagDsize e.tag - 4
  offset : c'.offset = c.offset + tagDsize e.tag
  ptag : c'.ptag = e.stored.tag
  crc : c'.crc = lfsCrc (lfsCrc c.crc (toBe32 (e.stored.tag ^^^ c.ptag))) e.stored.data
  block : c'.block = ByteImage.write (ByteImage.write c.block c.offset
    (toBe32 (e.stored.tag ^^^ c.ptag))) (c.offset + 4) e.stored.data

theorem Commit.adds_of_attribute (h : c.attribute cfg stop e = some c') :
    c.Adds cfg stop e c' := by
  rw [Commit.attribute] at h
  obtain ⟨hfits, h⟩ := Option.ite_none_left_eq_some.mp h
  obtain ⟨hlength, h⟩ := Option.ite_none_left_eq_some.mp h
  obtain ⟨hstop, hblock⟩ := not_or.mp hfits
  have hge := tagDsize_ge e.tag
  have hlen : e.stored.data.length = tagDsize e.tag - 4 := by
    rw [LogEntry.stored, List.length_take]
    omega
  cases h
  have hoffset : c.offset + (toBe32 (e.stored.tag ^^^ c.ptag)).length + e.stored.data.length =
      c.offset + tagDsize e.tag := by
    rw [length_toBe32, hlen]
    omega
  refine ⟨⟨?_, ?_⟩, hlen, hoffset, rfl, rfl, ?_⟩
  · exact Nat.le_trans (Nat.le_of_eq hoffset) (Nat.not_lt.mp hstop)
  · exact Nat.le_trans (Nat.le_of_eq hoffset) (Nat.not_lt.mp hblock)
  · change ByteImage.write _ (c.offset + (toBe32 (e.stored.tag ^^^ c.ptag)).length) _ = _
    rw [length_toBe32]
    rfl

/-- The bytes below stay, and the new tag and its data can be read. -/
theorem Commit.Adds.reads (H : c.Adds cfg stop e c') {block : ByteImage.Image}
    (hagree : AgreeBelow c'.offset c'.block block) :
    AgreeBelow c.offset c.block block ∧
      ByteImage.read block c.offset 4 = toBe32 (e.stored.tag ^^^ c.ptag) ∧
      ByteImage.read block (c.offset + 4) (tagDsize e.tag - 4) = e.stored.data := by
  have hge := tagDsize_ge e.tag
  have hoffset := H.offset
  have hword := length_toBe32 (e.stored.tag ^^^ c.ptag)
  rw [H.block] at hagree
  have htag := ByteImage.agreeBelow_write c.block c.offset (toBe32 (e.stored.tag ^^^ c.ptag))
  have hdata := ByteImage.agreeBelow_write (ByteImage.write c.block c.offset
    (toBe32 (e.stored.tag ^^^ c.ptag))) (c.offset + 4) e.stored.data
  have hbelow := hdata.symm.trans (hagree.mono (q := c.offset + 4) (by omega))
  refine ⟨?_, ?_, ?_⟩
  · exact htag.symm.trans (hbelow.mono (by omega))
  · rw [← hbelow.read_eq (Nat.le_refl _), ← hword]
    exact ByteImage.read_write ..
  · rw [← hagree.read_eq (by omega), ← H.length]
    exact ByteImage.read_write ..

theorem pairFromLe64_take (data : List UInt8) (h : 16 ≤ n) :
    pairFromLe64 (data.take n) = pairFromLe64 data := by
  rw [pairFromLe64, pairFromLe64, List.take_take, List.drop_take, List.take_take,
    Nat.min_eq_left (by omega), Nat.min_eq_left (by omega)]

/-- The block changed between the two offsets only. -/
structure Commit.Extends (c c' : Commit) : Prop where
  le : c.offset ≤ c'.offset
  block : ∀ i, i < c.offset ∨ c'.offset ≤ i → c'.block i = c.block i

theorem Commit.Extends.refl (c : Commit) : c.Extends c := ⟨Nat.le_refl _, fun _ _ => rfl⟩

theorem Commit.Extends.trans (H : c.Extends c') (H' : c'.Extends c'') : c.Extends c'' := by
  have hle := H.le
  have hle' := H'.le
  exact ⟨by omega, fun i hi => (H'.block i (by omega)).trans (H.block i (by omega))⟩

theorem Commit.Adds.extends (H : c.Adds cfg stop e c') : c.Extends c' := by
  have hge := tagDsize_ge e.tag
  have hoffset := H.offset
  have hlength := H.length
  have hword := length_toBe32 (e.stored.tag ^^^ c.ptag)
  refine ⟨by omega, fun i hi => ?_⟩
  rw [H.block]
  rcases hi with hi | hi
  · rw [ByteImage.write_of_lt _ _ (by omega), ByteImage.write_of_lt _ _ hi]
  · rw [ByteImage.write_of_ge _ _ (by omega), ByteImage.write_of_ge _ _ (by omega)]

/-- Only the first 16 bytes of a tail tag are looked at. -/
theorem FetchScan.modify_take (t : FetchScan) (tag : Tag) (data : List UInt8)
    (htail : tagType1 tag = typeTail) :
    t.modify ⟨tag, data.take 16⟩ = t.modify ⟨tag, data⟩ := by
  simp only [FetchScan.modify, htail, pairFromLe64_take data (Nat.le_refl 16)]

/-- The scan reads a tag of the commit. -/
theorem Commit.Adds.scan_reads (Ha : c.Adds cfg stop e c') (hcrc : tagType1 e.stored.tag ≠ typeCrc)
    (htail : tagType1 e.stored.tag = typeTail → 20 ≤ tagDsize e.tag) (hnext : s.next = c.offset)
    (hptag : s.ptag = c.ptag) {block : ByteImage.Image}
    (hagree : AgreeBelow c'.offset c'.block block) :
    s.Reads cfg block (s.enter e.stored.tag e.stored.data e.stored.data
      (lfsCrc s.crc (toBe32 (e.stored.tag ^^^ c.ptag)))) := by
  have hsize := stored_tagDsize e
  obtain ⟨-, hword, hdata⟩ := Ha.reads hagree
  rw [← hnext] at hword hdata
  rw [← hsize] at hdata
  have htag : fromBe32 (ByteImage.read block s.next 4) ^^^ s.ptag = e.stored.tag := by
    rw [hword, fromBe32_toBe32, hptag, BitVec.xor_assoc, BitVec.xor_self, BitVec.xor_zero]
  have hfits : s.next + tagDsize e.stored.tag ≤ cfg.blockSize := by
    rw [hnext, hsize, ← Ha.offset]
    exact Ha.fits.2
  rw [← hword]
  by_cases hty : tagType1 e.stored.tag = typeTail
  · have hge := htail hty
    have hfound : ByteImage.read block (s.next + 4) 16 = e.stored.data.take 16 := by
      obtain ⟨n, hn⟩ := Nat.exists_eq_add_of_le (show 16 ≤ tagDsize e.stored.tag - 4 by omega)
      rw [hn, ByteImage.read_append] at hdata
      rw [← hdata, List.take_left' (ByteImage.length_read ..)]
    have hreads := TagScan.Reads.tail htag (stored_tag_valid e) hfits hty (by omega) hfound hdata
    rw [TagScan.enter, FetchScan.modify_take _ _ _ hty] at hreads
    exact hreads
  · exact .other htag (stored_tag_valid e) hfits hcrc hty hdata

theorem Follows.attribute (H : Follows cfg s₀ c s) (Ha : c.Adds cfg stop e c')
    (hcrc : tagType1 e.stored.tag ≠ typeCrc)
    (htail : tagType1 e.stored.tag = typeTail → 20 ≤ tagDsize e.tag) :
    Follows cfg s₀ c' (s.enter e.stored.tag e.stored.data e.stored.data
      (lfsCrc s.crc (toBe32 (e.stored.tag ^^^ c.ptag)))) := by
  refine ⟨?_, Ha.ptag.symm, ?_, fun block hagree => ?_⟩
  · change s.next + tagDsize e.stored.tag = _
    rw [stored_tagDsize, H.next, Ha.offset]
  · rw [Ha.crc, H.crc.symm]
    rfl
  · exact .tail (H.reaches block (Ha.reads hagree).1)
      (Ha.scan_reads hcrc htail H.next H.ptag hagree)

/-! ## The checksum tags -/

theorem crcNoff_spec (h : offset + 12 ≤ stop) :
    offset + 12 ≤ crcNoff stop offset ∧ crcNoff stop offset ≤ stop ∧
      crcNoff stop offset - offset ≤ 0x3fe ∧
      (crcNoff stop offset < stop → crcNoff stop offset + 16 ≤ stop) := by
  rw [crcNoff]
  split <;> omega

theorem le_alignup (a : Nat) (h : 0 < n) : a ≤ alignup a n := by
  have hdiv := Nat.div_add_mod (a + n - 1) n
  have hmod := Nat.mod_lt (a + n - 1) h
  rw [alignup, Nat.mul_comm]
  omega

theorem alignup_le (hdvd : n ∣ m) (hn : 0 < n) (h : a ≤ m) : alignup a n ≤ m := by
  obtain ⟨k, rfl⟩ := hdvd
  have hdiv : (a + n - 1) / n < k + 1 := by
    rw [Nat.div_lt_iff_lt_mul hn, Nat.mul_comm, Nat.mul_succ]
    omega
  rw [alignup, Nat.mul_comm n k]
  exact Nat.mul_le_mul_right n (Nat.le_of_lt_succ hdiv)

/-- The fields of a checksum tag. -/
structure Commit.CrcTag (cfg : DiskConfig) (stop : Nat) (c : Commit) (noff : Nat) : Prop where
  ge : c.offset + 16 ≤ noff
  le : noff ≤ stop
  last : noff < stop → noff + 16 ≤ stop
  valid : tagIsValid (c.crcTag cfg stop) = true
  type : tagType1 (c.crcTag cfg stop) = typeCrc
  size : c.offset + tagDsize (c.crcTag cfg stop) = noff
  chunk : (tagChunk (c.crcTag cfg stop) &&& 1#8 == 1#8) = c.reset cfg noff

theorem Commit.crcTag_spec (cfg : DiskConfig) (h : c.offset + 16 ≤ stop) :
    c.CrcTag cfg stop (crcNoff stop (c.offset + 4)) := by
  obtain ⟨hge, hle, hsize, hlast⟩ := crcNoff_spec (show c.offset + 4 + 12 ≤ stop by omega)
  have hreset := Bool.toNat_lt (c.reset cfg (crcNoff stop (c.offset + 4)))
  have hty : typeCrc + (c.reset cfg (crcNoff stop (c.offset + 4))).toNat < 2 ^ 11 := by
    simp only [typeCrc]
    omega
  have hid : 0x3ff < 2 ^ 10 := by decide
  have hpadding : crcNoff stop (c.offset + 4) - (c.offset + 4) < 2 ^ 10 := by omega
  have hfields := mkTag_fields hty hid hpadding
  have htoNat := mkTag_toNat (Nat.lt_trans hty (by decide)) hid hpadding
  have hvalid : tagIsValid (c.crcTag cfg stop) = true := by
    rw [tagIsValid_iff, Commit.crcTag, htoNat]
    simp only [typeCrc]
    omega
  refine ⟨by omega, hle, hlast, hvalid, ?_, ?_, ?_⟩
  · rw [tagType1_of_valid hvalid, Commit.crcTag, hfields.1]
    simp only [typeCrc]
    omega
  · rw [tagDsize_eq, Commit.crcTag, hfields.2.2, if_neg (by omega)]
    omega
  · have hchunk : (tagChunk (c.crcTag cfg stop)).toNat =
        (c.reset cfg (crcNoff stop (c.offset + 4))).toNat := by
      rw [tagChunk_toNat, Commit.crcTag, htoNat]
      simp only [typeCrc]
      omega
    cases hr : c.reset cfg (crcNoff stop (c.offset + 4)) with
    | false =>
      rw [hr] at hchunk
      rw [show tagChunk (c.crcTag cfg stop) = 0#8 from BitVec.eq_of_toNat_eq hchunk]
      rfl
    | true =>
      rw [hr] at hchunk
      rw [show tagChunk (c.crcTag cfg stop) = 1#8 from BitVec.eq_of_toNat_eq hchunk]
      rfl

theorem Commit.crcRound_offset (H : c.CrcTag cfg stop noff) (padding : Nat → Option UInt8) :
    (c.crcRound cfg padding stop).offset = noff := by
  have hge := H.ge
  have hsize := H.size
  have hdsize := tagDsize_eq (c.crcTag cfg stop)
  change c.offset + 4 + tagSize (c.crcTag cfg stop) = noff
  split at hdsize <;> omega

/-- The block outside the checksum tag is left alone. -/
theorem Commit.crcRound_block (H : c.CrcTag cfg stop noff) (padding : Nat → Option UInt8)
    (h : i < c.offset ∨ noff ≤ i) : (c.crcRound cfg padding stop).block i = c.block i := by
  have hge := H.ge
  have hoffset := crcRound_offset H padding
  have hlen : (c.footer cfg stop ++ toLe32 (c.sum cfg stop)).length = 8 := by
    rw [List.length_append, Commit.footer, length_toBe32, length_toLe32]
  change c.offset + 4 + tagSize (c.crcTag cfg stop) = noff at hoffset
  change ByteImage.fill _ (c.offset + 8) (c.offset + 4 + tagSize (c.crcTag cfg stop)) _ i = _
  rw [hoffset]
  rcases h with h | h
  · rw [ByteImage.fill_of_lt _ _ _ (by omega), ByteImage.write_of_lt _ _ h]
  · rw [ByteImage.fill_of_ge _ _ _ h, ByteImage.write_of_ge _ _ (by omega)]

theorem Commit.crcRound_extends (H : c.CrcTag cfg stop noff) (padding : Nat → Option UInt8) :
    c.Extends (c.crcRound cfg padding stop) := by
  have hge := H.ge
  have hoffset := crcRound_offset H padding
  exact ⟨by omega, fun i hi => crcRound_block H padding (hoffset ▸ hi)⟩

/-- The footer and the checksum can be read. -/
theorem Commit.crcRound_reads (H : c.CrcTag cfg stop noff) (padding : Nat → Option UInt8)
    {block : ByteImage.Image}
    (hagree : AgreeBelow (c.offset + 8) (c.crcRound cfg padding stop).block block) :
    AgreeBelow c.offset c.block block ∧
      ByteImage.read block c.offset 4 = c.footer cfg stop ∧
      ByteImage.read block (c.offset + 4) 4 = toLe32 (c.sum cfg stop) := by
  have hfooter : (c.footer cfg stop).length = 4 := length_toBe32 _
  have hsum : (toLe32 (c.sum cfg stop)).length = 4 := length_toLe32 _
  have hwrite : AgreeBelow (c.offset + 8)
      (ByteImage.write c.block c.offset (c.footer cfg stop ++ toLe32 (c.sum cfg stop)))
      (c.crcRound cfg padding stop).block :=
    fun i hi => (ByteImage.fill_of_lt _ _ _ hi).symm
  have hread := hwrite.trans hagree
  have hparts := ByteImage.read_write_append c.block c.offset (c.footer cfg stop)
    (toLe32 (c.sum cfg stop))
  rw [hfooter, hsum] at hparts
  refine ⟨fun i hi => ?_, ?_, ?_⟩
  · rw [← hagree i (by omega), crcRound_block H padding (.inl hi)]
  · rw [← hread.read_eq (by omega), hparts.1]
  · rw [← hread.read_eq (by omega), hparts.2]

/-- The scan accepts a checksum. -/
theorem Commit.CrcTag.scan_reads (Hc : c.CrcTag cfg stop noff) (hstop : stop ≤ cfg.blockSize)
    (hnext : s.next = c.offset) (hptag : s.ptag = c.ptag) (hcrc : s.crc = c.crc)
    (padding : Nat → Option UInt8) {block : ByteImage.Image}
    (hagree : AgreeBelow (c.offset + 8) (c.crcRound cfg padding stop).block block) :
    s.Reads cfg block (s.accept (c.crcTag cfg stop)
      (ByteImage.read block (c.offset + 4) (tagDsize (c.crcTag cfg stop) - 4))) := by
  have hge := Hc.ge
  have hle := Hc.le
  have hsize := Hc.size
  obtain ⟨-, hfooter, hsum⟩ := Commit.crcRound_reads Hc padding hagree
  rw [← hnext] at hfooter hsum ⊢
  refine .crc ?_ Hc.valid (by omega) Hc.type (by omega) ?_ rfl
  · rw [hfooter, Commit.footer, fromBe32_toBe32, hptag, BitVec.xor_assoc, BitVec.xor_self,
      BitVec.xor_zero]
  · rw [hfooter, hsum, fromLe32_toLe32, hcrc]
    rfl

theorem Follows.crcRound (H : Follows cfg s₀ c s) (Hc : c.CrcTag cfg stop noff)
    (hstop : stop ≤ cfg.blockSize) (padding : Nat → Option UInt8) :
    Follows cfg s₀ (c.crcRound cfg padding stop) (s.accept (c.crcTag cfg stop)
      (ByteImage.read (c.crcRound cfg padding stop).block (c.offset + 4)
        (tagDsize (c.crcTag cfg stop) - 4))) := by
  have hge := Hc.ge
  have hsize := Hc.size
  have hoffset := Commit.crcRound_offset Hc padding
  refine ⟨?_, rfl, rfl, fun block hagree => ?_⟩
  · change s.next + tagDsize (c.crcTag cfg stop ^^^ _) = _
    rw [tagDsize_resetBit, H.next, hsize, hoffset]
  · rw [hoffset] at hagree
    have hbelow := hagree.mono (q := c.offset + 8) (by omega)
    rw [hagree.read_eq (by omega)]
    exact .tail (H.reaches block (Commit.crcRound_reads Hc padding hbelow).1)
      (Hc.scan_reads hstop H.next H.ptag H.crc padding hbelow)

/-! ## The end of a commit -/

theorem tagIsValid_xor_resetBit (word : Tag) {tag : Tag} (h : tagIsValid tag = true) :
    tagIsValid (word ^^^ (tag ^^^ resetBit (tagIsValid word))) = false := by
  have hmsb : ∀ t : Tag, tagIsValid t = !t.msb := fun t => by
    rw [Bool.eq_iff_iff, tagIsValid_iff, BitVec.msb_eq_decide]
    simp
  have hreset : ∀ r, (resetBit r).msb = r := by decide
  have htag := hmsb tag
  rw [h, Bool.true_eq, Bool.not_eq_true'] at htag
  rw [hmsb, BitVec.msb_xor, BitVec.msb_xor, hreset, htag, hmsb]
  cases word.msb <;> rfl

/-- The scan stops behind a checksum tag as long as the word there stays. -/
theorem round_crcRound (Hc : c.CrcTag cfg stop noff) (padding : Nat → Option UInt8)
    {block : ByteImage.Image} (hnext : s.next = noff)
    (hptag : s.ptag = (c.crcRound cfg padding stop).ptag)
    (hword : ∀ i, noff ≤ i → i < noff + 4 → block i = c.block i) :
    ∃ erased, s.round cfg block = .error erased := by
  have hread : bdRead cfg block noff 4 = bdRead cfg c.block noff 4 := by
    have hbytes : ByteImage.read block noff 4 = ByteImage.read c.block noff 4 :=
      List.map_congr_left fun i hi => hword _ (by omega) (by
        have := List.mem_range.mp hi
        omega)
    rw [bdRead, bdRead, hbytes]
  have hreset : (c.crcRound cfg padding stop).ptag =
      c.crcTag cfg stop ^^^ resetBit (c.reset cfg noff) := by
    rw [← Hc.chunk]
    rfl
  rw [TagScan.round, hnext, hread, hptag, hreset]
  cases hbd : bdRead cfg c.block noff 4 with
  | none => exact ⟨false, rfl⟩
  | some word =>
    have hr : c.reset cfg noff = tagIsValid (fromBe32 word) := by
      rw [Commit.reset, hbd]
    have hinvalid := tagIsValid_xor_resetBit (fromBe32 word) Hc.valid
    rw [hr]
    dsimp only
    rw [if_pos hinvalid]
    exact ⟨_, rfl⟩

theorem Commit.eq_of_crcLoop (hend : ¬ c.offset < stop)
    (h : c.crcLoop cfg padding stop fuel = some c') : c' = c := by
  cases fuel with
  | zero => cases h
  | succ fuel =>
    rw [Commit.crcLoop, if_neg hend] at h
    exact (Option.some.inj h).symm

/-- The scan is behind a checksum, where it stops, and has read nothing but checksums on the way. -/
structure TagScan.Closes (cfg : DiskConfig) (block : ByteImage.Image) (s s' : TagScan) : Prop where
  atCommit : s'.AtCommit
  stops : ∃ erased, s'.round cfg block = .error erased
  temp : s'.temp = s.temp
  log : ∃ crcs : List LogEntry, s'.log = s.log ++ crcs ∧ ∀ e ∈ crcs, tagType1 e.tag = typeCrc

theorem Follows.crcLoop (H : Follows cfg s₀ c s) (hstop : stop ≤ cfg.blockSize)
    (hge : c.offset + 16 ≤ stop) (h : c.crcLoop cfg padding stop fuel = some c') :
    ∃ s', Follows cfg s₀ c' s' ∧ s.Closes cfg c'.block s' := by
  induction fuel generalizing c s with
  | zero => cases h
  | succ fuel ih =>
    have Hc := c.crcTag_spec cfg hge
    have hnoff := Commit.crcRound_offset Hc padding
    have Hround := H.crcRound Hc hstop padding
    have hle := Hc.le
    rw [Commit.crcLoop, if_pos (by omega)] at h
    obtain ⟨-, h⟩ := Option.ite_none_left_eq_some.mp h
    by_cases hlt : crcNoff stop (c.offset + 4) < stop
    · have hlast := Hc.last hlt
      obtain ⟨s', Hs', Hcloses⟩ := ih Hround (by omega) h
      obtain ⟨crcs, hlog, hcrcs⟩ := Hcloses.log
      refine ⟨s', Hs', Hcloses.atCommit, Hcloses.stops, Hcloses.temp,
        ⟨c.crcTag cfg stop, _⟩ :: crcs, hlog.trans (List.append_assoc ..), fun e he => ?_⟩
      rcases List.mem_cons.mp he with rfl | he
      · exact Hc.type
      · exact hcrcs e he
    · obtain rfl := Commit.eq_of_crcLoop (by omega) h
      refine ⟨_, Hround, atCommit_accept .., ?_, rfl, [⟨c.crcTag cfg stop, _⟩], rfl, fun e he => ?_⟩
      · exact round_crcRound Hc padding (Hround.next.trans hnoff) Hround.ptag
          fun i hi _ => Commit.crcRound_block Hc padding (.inr hi)
      · rw [List.mem_singleton.mp he]
        exact Hc.type

theorem Commit.le_of_crcLoop (h : c.crcLoop cfg padding stop fuel = some c') :
    stop ≤ c'.offset := by
  induction fuel generalizing c with
  | zero => cases h
  | succ fuel ih =>
    rw [Commit.crcLoop] at h
    split at h
    · obtain ⟨-, h⟩ := Option.ite_none_left_eq_some.mp h
      exact ih h
    · cases h
      exact Nat.not_lt.mp ‹_›

theorem Commit.crcLoop_extends (hge : c.offset + 16 ≤ stop)
    (h : c.crcLoop cfg padding stop fuel = some c') : c.Extends c' := by
  induction fuel generalizing c with
  | zero => cases h
  | succ fuel ih =>
    have Hc := c.crcTag_spec cfg hge
    have hnoff := Commit.crcRound_offset Hc padding
    rw [Commit.crcLoop, if_pos (by omega)] at h
    obtain ⟨-, h⟩ := Option.ite_none_left_eq_some.mp h
    refine (Commit.crcRound_extends Hc padding).trans ?_
    by_cases hlt : crcNoff stop (c.offset + 4) < stop
    · have hlast := Hc.last hlt
      exact ih (by omega) h
    · obtain rfl := Commit.eq_of_crcLoop (by omega) h
      exact .refl _

/-- The settings that `lfs_init` and `lfs_raw_format` accept, with room for a checksum below
`metadata_max`. A block that holds the pointers of a file has more than 128 bytes. -/
structure DiskConfig.Ok (cfg : DiskConfig) : Prop where
  writeSize : 0 < cfg.writeSize
  dvd : cfg.writeSize ∣ cfg.blockSize
  blockSize : 128 ≤ cfg.blockSize ∧ cfg.blockSize < 2 ^ 64
  metadataMax : cfg.metadataMax = 0 ∨ 16 ≤ cfg.metadataMax ∧ cfg.metadataMax ≤ cfg.blockSize

theorem DiskConfig.Ok.commitEnd_le (H : cfg.Ok) : cfg.commitEnd + 16 ≤ cfg.blockSize := by
  obtain ⟨hge, hlt⟩ := H.blockSize
  have hmod : ∀ max, 16 ≤ max → max ≤ cfg.blockSize → (max + 2 ^ 64 - 16) % 2 ^ 64 = max - 16 := by
    intro max hlo hhi
    rw [Nat.sub_add_comm hlo, Nat.add_mod_right,
      Nat.mod_eq_of_lt (Nat.lt_of_le_of_lt (Nat.sub_le ..) (Nat.lt_of_le_of_lt hhi hlt))]
  rw [DiskConfig.commitEnd]
  rcases H.metadataMax with hzero | ⟨hlo, hhi⟩
  · rw [if_neg (not_not.mpr hzero), hmod _ (by omega) (Nat.le_refl _)]
    omega
  · rw [if_pos (by omega), hmod _ hlo hhi]
    omega

theorem Commit.crcLoop_of_commitCrc (h : c.commitCrc cfg padding begin = some c') :
    c.crcLoop cfg padding (alignup (c.offset + 16) cfg.writeSize)
      (alignup (c.offset + 16) cfg.writeSize + 1) = some c' := by
  rw [Commit.commitCrc, Option.bind_eq_some_iff] at h
  obtain ⟨c₁, hloop, h⟩ := h
  obtain ⟨-, h⟩ := Option.ite_none_right_eq_some.mp h
  cases h
  exact hloop

theorem Commit.commitCrc_extends (hcfg : cfg.Ok) (h : c.commitCrc cfg padding begin = some c') :
    c.Extends c' :=
  Commit.crcLoop_extends (le_alignup _ hcfg.writeSize) (Commit.crcLoop_of_commitCrc h)

theorem Follows.commitCrc (H : Follows cfg s₀ c s) (hcfg : cfg.Ok)
    (hroom : c.offset + 16 ≤ cfg.blockSize) (h : c.commitCrc cfg padding begin = some c') :
    ∃ s', Follows cfg s₀ c' s' ∧ s.Closes cfg c'.block s' :=
  H.crcLoop (alignup_le hcfg.dvd hcfg.writeSize hroom) (le_alignup _ hcfg.writeSize)
    (Commit.crcLoop_of_commitCrc h)

/-! ## The tags of a commit -/

/-- The tag is not taken for a checksum, and a tail pointer lies within its tag. -/
def LogEntry.Plain (e : LogEntry) : Prop :=
  tagTy e.tag / 2 ^ 8 ≠ 5 ∧ (tagTy e.tag / 2 ^ 8 = 6 → 20 ≤ tagDsize e.tag)

theorem Follows.run {entries : List LogEntry} (H : Follows cfg s₀ c s)
    (hplain : ∀ e ∈ entries, e.Plain)
    (h : entries.foldlM (Commit.attribute cfg stop) c = some c') :
    ∃ s', Follows cfg s₀ c' s' ∧ s'.dir = s.dir ∧ s'.log = s.log ++ entries.map LogEntry.stored ∧
      s'.temp = (entries.map LogEntry.stored).foldl FetchScan.modify s.temp := by
  induction entries generalizing c s with
  | nil =>
    cases h
    exact ⟨s, H, rfl, (List.append_nil _).symm, rfl⟩
  | cons e entries ih =>
    rw [List.foldlM_cons, Option.bind_eq_bind, Option.bind_eq_some_iff] at h
    obtain ⟨c₁, hadd, h⟩ := h
    obtain ⟨⟨hcrc, htail⟩, hplain⟩ := List.forall_mem_cons.mp hplain
    have htype := stored_tagType1 e
    have Hstep := H.attribute (Commit.adds_of_attribute hadd)
      (by rw [htype, typeCrc]; omega) (fun hty => htail (by rw [htype, typeTail] at hty; omega))
    obtain ⟨s', Hs', hdir, hlog, htemp⟩ := ih Hstep hplain h
    refine ⟨s', Hs', hdir, ?_, htemp⟩
    rw [hlog, List.map_cons]
    exact List.append_assoc ..

theorem Commit.run_extends {entries : List LogEntry}
    (h : entries.foldlM (Commit.attribute cfg stop) c = some c') : c.Extends c' := by
  induction entries generalizing c with
  | nil =>
    cases h
    exact .refl _
  | cons e entries ih =>
    rw [List.foldlM_cons, Option.bind_eq_bind, Option.bind_eq_some_iff] at h
    obtain ⟨c₁, hadd, h⟩ := h
    exact (Commit.adds_of_attribute hadd).extends.trans (ih h)

theorem entries_offset_le {entries : List LogEntry} (hne : entries ≠ [])
    (h : entries.foldlM (Commit.attribute cfg stop) c = some c') : c'.offset ≤ stop := by
  rw [← List.dropLast_append_getLast hne, List.foldlM_append, Option.bind_eq_bind,
    Option.bind_eq_some_iff] at h
  obtain ⟨c₁, -, h⟩ := h
  rw [List.foldlM_cons, Option.bind_eq_bind, Option.bind_eq_some_iff] at h
  obtain ⟨c₂, hadd, h⟩ := h
  cases h
  exact (Commit.adds_of_attribute hadd).fits.1

end

end LittleFs
