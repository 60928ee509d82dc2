import LittleFs.CompactFit
import LittleFs.TornCommit

/-! What `lfs_dir_fetchmatch` reports of the space behind a commit. The commit flips bit 31 of the
next tag when the word behind it looks like a tag, and the fetch flips bit 31 of the last tag to
undo this, but the type that it then compares with that of a checksum still has the bit. -/

namespace LittleFs

open ByteImage (AgreeBelow)

/-- Where a commit of the tags ends whose first tag is at `start`. -/
def commitStop (cfg : DiskConfig) (start : Nat) (entries : List LogEntry) : Nat :=
  alignup (start + recordsSize entries + 16) cfg.writeSize

/-- The commits that end with `lfs_dir_commit_crc`: one behind the log of the pair, and one into its
other block, which the erase has left with the bytes `free`. -/
inductive CommitsInto (cfg : DiskConfig) (padding : Nat → Option UInt8) (fs : GlobalStates)
    (disk : Nat → ByteImage.Image) (pair : BlockPair) :
    (b : Nat) → (free : ByteImage.Image) → (start : Nat) → (entries : List LogEntry) →
      Appended → Prop where
  | append (dir : FetchedDir) (attrs : List Attr) (hfetch : fetchPair cfg disk pair = some dir)
    (hframed : ∀ e ∈ dir.log, e.Framed) (hentries : appendEntries fs dir attrs = some entries)
    (hcommit : appendCommit cfg padding fs (disk dir.pair.1) dir attrs = some r) :
    CommitsInto cfg padding fs disk pair dir.pair.1 (disk dir.pair.1) dir.offset entries r
  | compact (dir : FetchedDir) (attrs : List Attr) (begin stop : Nat)
    (hpair : dir.pair = pair ∨ dir.pair = (pair.2, pair.1)) (hblocks : pair.1 ≠ pair.2)
    (hbounds : pair.1 < cfg.blockCount ∧ pair.2 < cfg.blockCount)
    -- the new revision is the more recent one
    (hnewer : scmpGt (dir.revision + 1#32) (revisionOf (disk dir.pair.1)) = true)
    (hentries : compactEntries fs dir attrs begin stop = some entries)
    (hcommit : compactCommit cfg padding fs free dir attrs begin stop = some r) :
    CommitsInto cfg padding fs disk pair dir.pair.2 free 4 entries r

section
variable {cfg : DiskConfig} {block : ByteImage.Image} {c₀ c c' : Commit} {s : TagScan}

/-! ## The last tag of a commit -/

/-- The valid bit of a word is the top bit of its first byte. -/
theorem tagIsValid_fromBe32_read (block : ByteImage.Image) (off : Nat) :
    tagIsValid (fromBe32 (ByteImage.read block off 4)) = false ↔ 0x80 ≤ (block off).toNat := by
  have hread : ByteImage.read block off 4 =
      [block off, block (off + 1), block (off + 2), block (off + 3)] := rfl
  have h₀ := (block off).toNat_lt
  have h₁ := (block (off + 1)).toNat_lt
  have h₂ := (block (off + 2)).toNat_lt
  have h₃ := (block (off + 3)).toNat_lt
  have hword : (fromBe32 (ByteImage.read block off 4)).toNat =
      (block (off + 3)).toNat + 256 * ((block (off + 2)).toNat +
        256 * ((block (off + 1)).toNat + 256 * (block off).toNat)) := by
    rw [hread, fromBe32, BitVec.toNat_ofNat]
    simp only [List.reverse_cons, List.reverse_nil, List.nil_append, List.cons_append, fromLe]
    omega
  rw [← Bool.not_eq_true, tagIsValid_iff, hword]
  omega

/-- The last tag of the loop is a checksum that flips bit 31 by the word behind the commit. -/
theorem Commit.crcLoop_last (hge : c.offset + 16 ≤ stop)
    (h : c.crcLoop cfg padding stop fuel = some c') :
    c'.offset = stop ∧ ∃ tag, tagIsValid tag = true ∧ tagType1 tag = typeCrc ∧
      c'.ptag = tag ^^^ resetBit (c.reset cfg stop) := by
  induction fuel generalizing c with
  | zero => cases h
  | succ fuel ih =>
    have Hc := c.crcTag_spec cfg hge
    have hnoff := Commit.crcRound_offset Hc padding
    have hle := Hc.le
    rw [Commit.crcLoop, if_pos (by omega)] at h
    obtain ⟨-, h⟩ := Option.ite_none_left_eq_some.mp h
    by_cases hlt : crcNoff stop (c.offset + 4) < stop
    · have hlast := Hc.last hlt
      have hreset : (c.crcRound cfg padding stop).reset cfg stop = c.reset cfg stop := by
        have hread : ByteImage.read (c.crcRound cfg padding stop).block stop 4 =
            ByteImage.read c.block stop 4 :=
          List.map_congr_left fun i _ => Commit.crcRound_block Hc padding (.inr (by omega))
        rw [Commit.reset, Commit.reset, bdRead, bdRead, hread]
      rw [← hreset]
      exact ih (by omega) h
    · obtain rfl := Commit.eq_of_crcLoop (by omega) h
      have hend : crcNoff stop (c.offset + 4) = stop := by omega
      refine ⟨hnoff.trans hend, c.crcTag cfg stop, Hc.valid, Hc.type, ?_⟩
      have hchunk := Hc.chunk
      rw [hend] at hchunk
      rw [← hchunk]
      rfl

/-- What the round behind a commit reports. -/
theorem round_behind (cfg : DiskConfig) (block : ByteImage.Image) (hnext : s.next = stop)
    (hs : s.AtCommit) (hdvd : cfg.writeSize ∣ stop)
    (hroom : stop + 4 ≤ cfg.blockSize) (hvalid : tagIsValid tag = true)
    (hty : tagType1 tag = typeCrc)
    (hptag : s.ptag = tag ^^^ resetBit (tagIsValid (fromBe32 (ByteImage.read block stop 4)))) :
    s.round cfg block = .error (decide (0x80 ≤ (block stop).toNat)) := by
  have hoffset : s.dir.offset % cfg.writeSize = 0 := by
    rw [hs.offset, hnext]
    exact Nat.mod_eq_zero_of_dvd hdvd
  have hinvalid := tagIsValid_xor_resetBit (fromBe32 (ByteImage.read block stop 4)) hvalid
  have htop := tagIsValid_fromBe32_read block stop
  rw [TagScan.round, hnext, bdRead_of_le hroom, hptag]
  dsimp only
  rw [if_pos hinvalid, hoffset, beq_self_eq_true, Bool.and_true]
  congr 1
  cases hword : tagIsValid (fromBe32 (ByteImage.read block stop 4)) with
  | false =>
    have hnone : tag ^^^ resetBit false = tag := BitVec.xor_zero
    rw [hnone, hty, beq_self_eq_true, decide_eq_true (htop.mp hword)]
  | true =>
    -- the type has bit 31 of the tag
    have hinvalid' := tagIsValid_xor_resetBit 0#32 hvalid
    rw [BitVec.zero_xor, show tagIsValid 0#32 = true from rfl] at hinvalid'
    have hflipped := tagType1_of_invalid hinvalid'
    have hne : (tagType1 (tag ^^^ resetBit true) == typeCrc) = false := by
      rw [beq_eq_false_iff_ne, typeCrc]
      omega
    rw [hne, decide_eq_false fun h => by rw [htop.mpr h] at hword; cases hword]

/-! ## The scan behind a commit -/

/-- **What the scan reports.** The space behind a commit counts as erased when the byte there has
its top bit set. -/
theorem Commit.Into.scan_erased (H : Commit.Into cfg padding begin entries c₀ c c')
    (hwrite : 0 < cfg.writeSize) (Hfollows : Follows cfg (scanStart revision) c₀ s)
    (hroom : commitStop cfg c₀.offset entries + 4 ≤ cfg.blockSize) :
    ∃ d : ScanDir, d.offset = commitStop cfg c₀.offset entries ∧
      scanBlock cfg c'.block revision =
        (d, decide (0x80 ≤ (c₀.block (commitStop cfg c₀.offset entries)).toNat)) := by
  have hoffset := foldlM_attribute_offset H.run
  have hstop : commitStop cfg c₀.offset entries = alignup (c.offset + 16) cfg.writeSize := by
    rw [commitStop, hoffset]
  have hloop := Commit.crcLoop_of_commitCrc H.crc
  have hge := le_alignup (c.offset + 16) hwrite
  have hdvd : cfg.writeSize ∣ alignup (c.offset + 16) cfg.writeSize := Nat.dvd_mul_left ..
  rw [hstop] at hroom ⊢
  generalize alignup (c.offset + 16) cfg.writeSize = stop at hloop hge hdvd hroom ⊢
  obtain ⟨s₁, Hrun, -⟩ := Hfollows.run H.plain H.run
  obtain ⟨s', Hend, Hcloses⟩ := Hrun.crcLoop (by omega) hge hloop
  obtain ⟨hend, tag, hvalid, hty, hptag⟩ := Commit.crcLoop_last hge hloop
  -- the bytes behind the commit are those before it
  have hafter : ∀ i, stop ≤ i → c'.block i = c₀.block i := fun i hi => by
    have Hloop := Commit.crcLoop_extends hge hloop
    have hle := Hloop.le
    rw [Hloop.block i (.inr (hend ▸ hi)), (Commit.run_extends H.run).block i (.inr (by omega))]
  have hcblock : ∀ i, stop ≤ i → c.block i = c'.block i := fun i hi =>
    ((Commit.crcLoop_extends hge hloop).block i (.inr (hend ▸ hi))).symm
  have hreset : c.reset cfg stop =
      tagIsValid (fromBe32 (ByteImage.read c'.block stop 4)) := by
    have hread : ByteImage.read c.block stop 4 = ByteImage.read c'.block stop 4 :=
      List.map_congr_left fun i _ => hcblock _ (Nat.le_add_right ..)
    rw [Commit.reset, bdRead_of_le hroom, hread]
  have hnext : s'.next = stop := Hend.next.trans hend
  have herror := round_behind cfg c'.block hnext Hcloses.atCommit hdvd hroom
    hvalid hty (by rw [← hreset]; exact Hend.ptag.trans hptag)
  rw [hafter stop (Nat.le_refl _)] at herror
  have hstart := scanStart_next revision
  refine ⟨s'.dir, Hcloses.atCommit.offset.trans hnext, ?_⟩
  exact loop_eq_of_reaches (Hend.reaches _ fun _ _ => rfl) (by omega) herror

/-! ## The fetch behind a commit -/

/-- The block of a commit can be fetched. -/
theorem Commit.Into.fetchFirst (disk : Nat → ByteImage.Image) (p : BlockPair)
    (H : Commit.Into cfg padding begin entries c₀ c c') (hwrite : 0 < cfg.writeSize)
    (Hfollows : Follows cfg (scanStart revision) c₀ s)
    (hroom : commitStop cfg c₀.offset entries + 4 ≤ cfg.blockSize)
    (hblock : disk p.1 = c'.block) (hrevision : revisionOf c'.block = revision) :
    ∃ d, LittleFs.fetchFirst cfg disk p = some d ∧ d.offset = commitStop cfg c₀.offset entries ∧
      (d.erased = true ↔ 0x80 ≤ (c₀.block (commitStop cfg c₀.offset entries)).toNat) := by
  obtain ⟨d, hoffset, hscan⟩ := H.scan_erased hwrite Hfollows hroom
  have hpos : 0 < d.offset := by
    have hge := le_alignup (c₀.offset + recordsSize entries + 16) hwrite
    rw [commitStop] at hoffset
    omega
  refine ⟨d.fetched p revision _, ?_, hoffset, decide_eq_true_iff⟩
  rw [LittleFs.fetchFirst, hblock, hrevision, hscan]
  exact if_pos hpos

/-- **When erased space is recognised.** Behind a commit that leaves room for another tag, the fetch
reports erased space if and only if the byte at the end of the commit had its top bit set. -/
theorem fetchPair_erased_iff {disk : Nat → ByteImage.Image} (hwrite : 0 < cfg.writeSize)
    (H : CommitsInto cfg padding fs disk pair b free start entries r)
    (hplain : ∀ e ∈ entries, e.Plain) (hroom : commitStop cfg start entries + 4 ≤ cfg.blockSize) :
    ∃ d, fetchPair cfg (Function.update disk b r.block) pair = some d ∧
      d.offset = commitStop cfg start entries ∧
      (d.erased = true ↔ 0x80 ≤ (free (commitStop cfg start entries)).toNat) := by
  cases H with
  | append dir attrs hfetch hframed hentries hcommit =>
    have Hsettles := fetchPair_eq_some.mp hfetch
    obtain ⟨entries', dir', c, c', Happends, rfl⟩ := appends_of_commit hcommit
    obtain rfl : entries' = entries := Option.some.inj (Happends.tags.symm.trans hentries)
    obtain ⟨s, Hs⟩ := exists_scan_of_erased Hsettles.first Happends.erased
    have Hinto : Commit.Into cfg padding dir.offset entries'
        ⟨disk dir.pair.1, dir.offset, dir.etag, 0xffffffff#32⟩ c c' :=
      ⟨hplain, Happends.run, Happends.crc⟩
    obtain ⟨Hrun, Hcrc, -⟩ := Hinto.extends hwrite
    have hle := Hs.le_offset
    -- the revision lies in front of the commit
    have hbelow : AgreeBelow dir.offset c'.block (disk dir.pair.1) :=
      fun i hi => (Hrun.trans Hcrc).block i (.inl hi)
    have hread : revisionOf c'.block = revisionOf (disk dir.pair.1) := by
      rw [revisionOf, hbelow.read_eq (by omega), revisionOf]
    obtain ⟨d, hd, hoffset, herased⟩ := Hinto.fetchFirst
      (Function.update disk dir.pair.1 c'.block) dir.pair hwrite (Hs.follows hframed) hroom
      (Function.update_self ..) (hread.trans Hs.revision)
    refine ⟨d, fetchPair_eq_some.mpr (Hsettles.of_first (.inl rfl) hd ?_ fun b hb => ?_), hoffset,
      herased⟩
    · rw [Function.update_self, hread]
    · exact Function.update_of_ne hb ..
  | compact dir attrs begin stop hpair hblocks hbounds hnewer hentries hcommit =>
    obtain ⟨entries', c, c', Hcompacts, hblock, -⟩ := compactsTo_of_commit hcommit
    obtain rfl : entries' = entries := Option.some.inj (Hcompacts.tags.symm.trans hentries)
    rw [hblock]
    have Hinto : Commit.Into cfg padding 0 entries'
        (compactStart free (dir.revision + 1#32)) c c' := ⟨hplain, Hcompacts.run, Hcompacts.crc⟩
    obtain ⟨Hrun, Hcrc, -⟩ := Hinto.extends hwrite
    have hrevision : revisionOf c'.block = dir.revision + 1#32 := by
      have hagree : AgreeBelow 4 c'.block (compactStart free (dir.revision + 1#32)).block :=
        fun i hi => (Hrun.trans Hcrc).block i (.inl hi)
      have hread : ByteImage.read (compactStart free (dir.revision + 1#32)).block 0 4 =
          toLe32 (dir.revision + 1#32) := ByteImage.read_write free 0 (toLe32 (dir.revision + 1#32))
      rw [revisionOf, hagree.read_eq (by omega), hread, fromLe32_toLe32]
    have hne : dir.pair.1 ≠ dir.pair.2 := by
      rcases hpair with h | h <;> rw [h]
      · exact hblocks
      · exact hblocks.symm
    have hself : Function.update disk dir.pair.2 c'.block dir.pair.2 = c'.block :=
      Function.update_self ..
    obtain ⟨d, hd, hoffset, herased⟩ := Hinto.fetchFirst
      (Function.update disk dir.pair.2 c'.block) (dir.pair.2, dir.pair.1) hwrite
      (follows_compactStart ..) hroom hself hrevision
    have hstop : 4 ≤ commitStop cfg 4 entries' := by
      have := le_alignup (4 + recordsSize entries' + 16) hwrite
      rw [commitStop]
      omega
    rw [compactStart_offset, compactStart_block _ _ hstop] at herased
    refine ⟨d, fetchPair_eq_some.mpr ⟨hbounds, ?_, .inl ?_⟩, hoffset, herased⟩
    · rw [(fetchFirst_eq hd).2.1]
      exact hd
    · rw [(fetchFirst_eq hd).2.1]
      have hrevisions : scmpGt
          (revisionOf (Function.update disk dir.pair.2 c'.block dir.pair.2))
          (revisionOf (Function.update disk dir.pair.2 c'.block dir.pair.1)) = true := by
        rw [hself, hrevision, Function.update_of_ne hne]
        exact hnewer
      rcases hpair with h | h
      · rw [← h, recentFirst, if_pos hrevisions]
      · rw [h] at hrevisions ⊢
        rw [recentFirst, scmpGt_asymm hrevisions]
        rfl

end

/-- A new directory in a pair whose block was erased to `0xff`. -/
theorem fetchPair_erased_mkdir :
    ∃ entries r, appendEntries {} fileDir mkdirAttrs = some entries ∧
      appendCommit ⟨256, 4, 8, 0⟩ (fun _ => some 0) {} (diskOf filePair 2) fileDir mkdirAttrs =
        some r ∧
      ∃ d, fetchPair ⟨256, 4, 8, 0⟩ (Function.update (diskOf filePair) 2 r.block) (2, 3) = some d ∧
        d.offset = commitStop ⟨256, 4, 8, 0⟩ 40 entries ∧
        (d.erased = true ↔
          0x80 ≤ (diskOf filePair 2 (commitStop ⟨256, 4, 8, 0⟩ 40 entries)).toNat) := by
  obtain ⟨entries, hentries⟩ := Option.isSome_iff_exists.mp (show (appendEntries {} fileDir
    mkdirAttrs).isSome = true by decide +kernel)
  obtain ⟨r, hr⟩ := Option.isSome_iff_exists.mp (show (appendCommit ⟨256, 4, 8, 0⟩
    (fun _ => some 0) {} (diskOf filePair 2) fileDir mkdirAttrs).isSome = true by decide +kernel)
  have hentries' : ∀ entries ∈ appendEntries {} fileDir mkdirAttrs, (∀ e ∈ entries, e.Plain) ∧
      commitStop ⟨256, 4, 8, 0⟩ 40 entries + 4 ≤ 256 := by
    decide +kernel
  obtain ⟨hplain, hroom⟩ := hentries' entries hentries
  exact ⟨entries, r, hentries, hr, fetchPair_erased_iff (by decide)
    (.append fileDir mkdirAttrs (by decide +kernel) (by decide) hentries hr) hplain hroom⟩

/-- The compaction of a pair into a block of zeros, as an erase that does nothing leaves it: the
fetch does not take the zeros for erased space. -/
theorem fetchPair_notErased : ¬ ∀ (cfg : DiskConfig) (padding : Nat → Option UInt8)
    (fs : GlobalStates) (disk : Nat → ByteImage.Image) (pair : BlockPair) (b : Nat)
    (free : ByteImage.Image) (start : Nat) (entries : List LogEntry) (r : Appended),
    0 < cfg.writeSize → CommitsInto cfg padding fs disk pair b free start entries r →
    (∀ e ∈ entries, e.Plain) → commitStop cfg start entries + 4 ≤ cfg.blockSize →
    ∃ d, fetchPair cfg (Function.update disk b r.block) pair = some d ∧ d.erased = true := by
  intro h
  obtain ⟨entries, hentries⟩ := Option.isSome_iff_exists.mp (show (compactEntries {} fileDir [] 0
    1).isSome = true by decide +kernel)
  obtain ⟨r, hr⟩ := Option.isSome_iff_exists.mp (show (compactCommit ⟨256, 4, 8, 0⟩
    (fun _ => some 0) {} (fun _ => 0) fileDir [] 0 1).isSome = true by decide +kernel)
  have hentries' : ∀ entries ∈ compactEntries {} fileDir [] 0 1, (∀ e ∈ entries, e.Plain) ∧
      commitStop ⟨256, 4, 8, 0⟩ 4 entries + 4 ≤ 256 := by
    decide +kernel
  have hfetch : ∀ r ∈ compactCommit ⟨256, 4, 8, 0⟩ (fun _ => some 0) {} (fun _ => 0) fileDir [] 0 1,
      (fetchPair ⟨256, 4, 8, 0⟩ (Function.update (diskOf filePair) 3 r.block) (2, 3)).map
        FetchedDir.erased = some false := by
    decide +kernel
  obtain ⟨hplain, hroom⟩ := hentries' entries hentries
  obtain ⟨d, hd, herased⟩ := h ⟨256, 4, 8, 0⟩ (fun _ => some 0) {} (diskOf filePair) (2, 3) 3
    (fun _ => 0) 4 entries r (by decide)
    (.compact fileDir [] 0 1 (.inl rfl) (by decide) (by decide) (by decide +kernel) hentries hr)
    hplain hroom
  have hfalse := hfetch r hr
  rw [hd, Option.map_some, herased] at hfalse
  cases hfalse

end LittleFs
