import LittleFs.Checksum

/-! The two loops of `lfs_dir_commit_crc` with the places that they come by: the first one writes
checksum tags over the padding up to the end of the commit, the second one reads the checksums back.
The first loop knows how far it has written, the second one only where the last checksum was. -/

namespace LittleFs

open ByteImage (AgreeBelow)

/-! ## The two loops with their traces -/

/-- The first loop, with the tags that it writes and their offsets. -/
def Commit.crcTrace (cfg : DiskConfig) (padding : Nat → Option UInt8) (stop : Nat) :
    (fuel : Nat) → Commit → Option (List (Nat × Tag) × Commit)
  | 0, _ => none
  | fuel + 1, c =>
    if c.offset < stop then
      if c.offset + 8 > cfg.blockSize then none
      else (Commit.crcTrace cfg padding stop fuel (c.crcRound cfg padding stop)).map fun r =>
        ((c.offset, c.crcTag cfg stop) :: r.1, r.2)
    else some ([], c)

/-- The second loop, with the offsets of the checksums that it looks at; `none` is a loop that goes
on behind `fuel` rounds. -/
def verifyTrace (cfg : DiskConfig) (block : ByteImage.Image) (stop off1 : Nat) (crc1 : BitVec 32) :
    (fuel : Nat) → (offset noff : Nat) → Option (List Nat × Bool)
  | 0, _, _ => none
  | fuel + 1, offset, noff =>
    if offset < stop then
      match bdRead cfg block offset (noff + 4 - offset) with
      | none => some ([noff], false)
      | some bytes =>
        -- check against written crc
        let here := offset ≤ off1 ∧ off1 < noff + 4 →
          lfsCrc 0xffffffff#32 (bytes.take (off1 - offset)) = crc1
        if ¬ here ∨ lfsCrc 0xffffffff#32 bytes ≠ 0#32 then some ([noff], false)
        else
          -- skip padding
          let offset := crcNoff stop noff
          (verifyTrace cfg block stop off1 crc1 fuel offset (offset + 4)).map fun r =>
            (noff :: r.1, r.2)
    else some ([], true)

/-- The tags lie one behind the other from `lo` to `hi`. -/
def Tiles (lo : Nat) : (tags : List (Nat × Tag)) → (hi : Nat) → Prop
  | [], hi => lo = hi
  | t :: tags, hi => t.1 = lo ∧ Tiles (lo + 4 + tagSize t.2) tags hi

/-- The offsets of the checksums behind the tags. -/
def crcFields (tags : List (Nat × Tag)) : List Nat := tags.map (·.1 + 4)

/-- The block holds the tags, each with the checksum of what lies before it: for the first tag from
`begin` on, for the others from the end of the tag in front. -/
def Sealed (block : ByteImage.Image) :
    (begin : Nat) → (ptag : Tag) → (tags : List (Nat × Tag)) → Prop
  | _, _, [] => True
  | begin, ptag, (offset, tag) :: tags =>
    fromBe32 (ByteImage.read block offset 4) ^^^ ptag = tag ∧
    fromLe32 (ByteImage.read block (offset + 4) 4) =
      lfsCrc 0xffffffff#32 (ByteImage.read block begin (offset + 4 - begin)) ∧
    Sealed block (offset + 4 + tagSize tag) (tag ^^^ resetBit (tagChunk tag &&& 1#8 == 1#8)) tags

/-- The checksum of the commit is that of its bytes from `begin` on. -/
structure Commit.Summed (begin : Nat) (c : Commit) : Prop where
  le : begin ≤ c.offset
  crc : c.crc = lfsCrc 0xffffffff#32 (ByteImage.read c.block begin (c.offset - begin))

section
variable {cfg : DiskConfig} {padding : Nat → Option UInt8} {c c' : Commit}
  {block : ByteImage.Image} {tags : List (Nat × Tag)}

theorem Commit.crcTrace_map (cfg : DiskConfig) (padding : Nat → Option UInt8) (stop fuel : Nat)
    (c : Commit) :
    (c.crcTrace cfg padding stop fuel).map Prod.snd = c.crcLoop cfg padding stop fuel := by
  induction fuel generalizing c with
  | zero => rfl
  | succ fuel ih =>
    rw [Commit.crcTrace, Commit.crcLoop]
    split
    · split
      · rfl
      · rw [← ih, Option.map_map]
        rfl
    · rfl

theorem verifyTrace_map (cfg : DiskConfig) (block : ByteImage.Image) (stop off1 : Nat)
    (crc1 : BitVec 32) (fuel offset noff : Nat) :
    ((verifyTrace cfg block stop off1 crc1 fuel offset noff).map Prod.snd).getD false =
      verifyLoop cfg block stop off1 crc1 fuel offset noff := by
  induction fuel generalizing offset noff with
  | zero => rfl
  | succ fuel ih =>
    rw [verifyTrace, verifyLoop]
    split
    · cases bdRead cfg block offset (noff + 4 - offset) with
      | none => rfl
      | some bytes =>
        dsimp only
        split
        · rfl
        · rw [← ih, Option.map_map]
          rfl
    · rfl

/-! ## The first loop -/

/-- The size of a checksum tag. -/
theorem Commit.tagSize_crcTag (cfg : DiskConfig) (h : c.offset + 16 ≤ stop) :
    tagSize (c.crcTag cfg stop) = crcNoff stop (c.offset + 4) - (c.offset + 4) := by
  obtain ⟨-, -, hsize, -⟩ := crcNoff_spec (show c.offset + 4 + 12 ≤ stop by omega)
  have hreset := Bool.toNat_lt (c.reset cfg (crcNoff stop (c.offset + 4)))
  have hty : typeCrc + (c.reset cfg (crcNoff stop (c.offset + 4))).toNat < 2 ^ 11 := by
    simp only [typeCrc]
    omega
  exact (mkTag_fields hty (by decide) (by omega)).2.2

/-- **The padding is covered.** The first loop ends, and its tags lie one behind the other up to the
end of the commit. -/
theorem Commit.crcTrace_tiles (padding : Nat → Option UInt8) (hge : c.offset + 16 ≤ stop)
    (hstop : stop ≤ cfg.blockSize) (hfuel : stop < fuel + c.offset) :
    ∃ tags c', c.crcTrace cfg padding stop fuel = some (tags, c') ∧ Tiles c.offset tags stop ∧
      ∀ t ∈ tags, 4 ≤ tagSize t.2 ∧ tagSize t.2 ≤ 0x3fe := by
  induction fuel generalizing c with
  | zero => omega
  | succ fuel ih =>
    obtain ⟨hnoff, hle, hmax, hlast⟩ := crcNoff_spec (show c.offset + 4 + 12 ≤ stop by omega)
    have hsize := c.tagSize_crcTag cfg hge
    have hoffset := Commit.crcRound_offset (c.crcTag_spec cfg hge) padding
    have hnext : c.offset + 4 + tagSize (c.crcTag cfg stop) = crcNoff stop (c.offset + 4) := by
      omega
    have hbounds : 4 ≤ tagSize (c.crcTag cfg stop) ∧ tagSize (c.crcTag cfg stop) ≤ 0x3fe := by
      omega
    rw [Commit.crcTrace, if_pos (by omega), if_neg (by omega)]
    by_cases hlt : crcNoff stop (c.offset + 4) < stop
    · have := hlast hlt
      obtain ⟨tags, c', htrace, htiles, hsizes⟩ :=
        ih (c := c.crcRound cfg padding stop) (by omega) (by omega)
      rw [hoffset] at htiles
      rw [htrace]
      exact ⟨_, c', rfl, ⟨rfl, hnext ▸ htiles⟩, List.forall_mem_cons.mpr ⟨hbounds, hsizes⟩⟩
    · -- the last tag ends the commit
      have hend : crcNoff stop (c.offset + 4) = stop := by omega
      cases fuel with
      | zero => omega
      | succ fuel =>
        rw [Commit.crcTrace, if_neg (by omega)]
        exact ⟨_, _, rfl, ⟨rfl, hnext.trans hend⟩,
          List.forall_mem_cons.mpr ⟨hbounds, fun t ht => absurd ht List.not_mem_nil⟩⟩

theorem Commit.crcTrace_length (h : c.crcTrace cfg padding stop fuel = some (tags, c')) :
    tags.length < fuel := by
  induction fuel generalizing c c' tags with
  | zero => cases h
  | succ fuel ih =>
    rw [Commit.crcTrace] at h
    split at h
    · split at h
      · cases h
      · obtain ⟨r, hr, hcons⟩ := Option.map_eq_some_iff.mp h
        obtain ⟨rfl, -⟩ := Prod.mk.inj hcons
        exact Nat.succ_lt_succ (ih hr)
    · obtain ⟨rfl, -⟩ := Prod.mk.inj (Option.some.inj h)
      exact Nat.succ_pos fuel

/-! ## The checksum of a commit -/

/-- A commit starts with the checksum of no bytes. -/
theorem Commit.Summed.start (block : ByteImage.Image) (begin : Nat) (ptag : Tag) :
    (Commit.mk block begin ptag 0xffffffff#32).Summed begin := by
  refine ⟨Nat.le_refl _, ?_⟩
  rw [Nat.sub_self]
  rfl

theorem Commit.Summed.write (H : c.Summed begin) (bytes : List UInt8) :
    (c.write bytes).Summed begin := by
  have hle := H.le
  refine ⟨hle.trans (Nat.le_add_right ..), ?_⟩
  change lfsCrc c.crc bytes =
    lfsCrc _ (ByteImage.read (ByteImage.write c.block c.offset bytes) begin
    (c.offset + bytes.length - begin))
  have hlen : c.offset + bytes.length - begin = (c.offset - begin) + bytes.length := by omega
  have hend : begin + (c.offset - begin) = c.offset := by omega
  rw [hlen, ByteImage.read_append, hend, ByteImage.read_write,
    (ByteImage.agreeBelow_write c.block c.offset bytes).read_eq (Nat.le_of_eq hend), lfsCrc_append,
    ← H.crc]

/-- An attribute is taken into the checksum as it is written. -/
theorem Commit.Summed.attribute (H : c.Summed begin) (h : c.attribute cfg stop e = some c') :
    c'.Summed begin := by
  rw [Commit.attribute] at h
  obtain ⟨-, h⟩ := Option.ite_none_left_eq_some.mp h
  obtain ⟨-, h⟩ := Option.ite_none_left_eq_some.mp h
  cases h
  have hwritten := (H.write (toBe32 ((e.tag &&& 0x7fffffff#32) ^^^ c.ptag))).write
    (e.data.take (tagDsize e.tag - 4))
  exact ⟨hwritten.le, hwritten.crc⟩

theorem Commit.Summed.run {entries : List LogEntry} (H : c.Summed begin)
    (h : entries.foldlM (Commit.attribute cfg stop) c = some c') : c'.Summed begin := by
  induction entries generalizing c with
  | nil =>
    cases h
    exact H
  | cons e entries ih =>
    rw [List.foldlM_cons, Option.bind_eq_bind, Option.bind_eq_some_iff] at h
    obtain ⟨c₁, hadd, h⟩ := h
    exact ih (H.attribute hadd) h

/-- The commit of an append, before it is closed. -/
theorem summed_append {entries : List LogEntry}
    (h : entries.foldlM (Commit.attribute cfg stop) ⟨block, begin, etag, 0xffffffff#32⟩ = some c) :
    c.Summed begin := (Commit.Summed.start ..).run h

/-- The commit of a compaction, before it is closed. -/
theorem summed_compact {entries : List LogEntry}
    (h : entries.foldlM (Commit.attribute cfg stop) (compactStart block revision) = some c) :
    c.Summed 0 := ((Commit.Summed.start block 0 _).write _).run h

/-- What a round writes closes the checksum. -/
theorem Commit.Summed.crcRound (H : c.Summed begin) (Hc : c.CrcTag cfg stop noff)
    (padding : Nat → Option UInt8) {block : ByteImage.Image}
    (hagree : AgreeBelow (c.offset + 8) (c.crcRound cfg padding stop).block block) :
    fromBe32 (ByteImage.read block c.offset 4) ^^^ c.ptag = c.crcTag cfg stop ∧
      fromLe32 (ByteImage.read block (c.offset + 4) 4) = c.sum cfg stop ∧
      lfsCrc 0xffffffff#32 (ByteImage.read block begin (c.offset + 4 - begin)) = c.sum cfg stop ∧
      lfsCrc 0xffffffff#32 (ByteImage.read block begin (c.offset + 8 - begin)) = 0#32 := by
  obtain ⟨hbelow, hfooter, hsum⟩ := Commit.crcRound_reads Hc padding hagree
  have hle := H.le
  have hend : begin + (c.offset - begin) = c.offset := by omega
  have hprefix : lfsCrc 0xffffffff#32 (ByteImage.read block begin (c.offset + 4 - begin)) =
      c.sum cfg stop := by
    have hlen : c.offset + 4 - begin = (c.offset - begin) + 4 := by omega
    rw [hlen, ByteImage.read_append, hend, hfooter, ← hbelow.read_eq (Nat.le_of_eq hend),
      lfsCrc_append, ← H.crc]
    rfl
  refine ⟨?_, ?_, hprefix, ?_⟩
  · rw [hfooter, Commit.footer, fromBe32_toBe32, BitVec.xor_assoc, BitVec.xor_self,
      BitVec.xor_zero]
  · rw [hsum, fromLe32_toLe32]
  · have hlen : c.offset + 8 - begin = (c.offset + 4 - begin) + 4 := by omega
    have hend' : begin + (c.offset + 4 - begin) = c.offset + 4 := by omega
    rw [hlen, ByteImage.read_append, hend', hsum, lfsCrc_append, hprefix, lfsCrc_residue]

/-- The rest of the loop leaves what a round has written. -/
theorem Commit.agreeBelow_crcTrace (hge : c.offset + 16 ≤ stop)
    (h : c.crcTrace cfg padding stop fuel = some (tags, c')) :
    AgreeBelow c.offset c.block c'.block := by
  have hloop : c.crcLoop cfg padding stop fuel = some c' := by
    rw [← Commit.crcTrace_map, h, Option.map_some]
  exact fun i hi => ((Commit.crcLoop_extends hge hloop).block i (.inl hi)).symm

/-- One round of the first loop, and the rest of it. -/
theorem Commit.crcTrace_cases (hge : c.offset + 16 ≤ stop)
    (h : c.crcTrace cfg padding stop (fuel + 1) = some (tags, c')) :
    ∃ rest, tags = (c.offset, c.crcTag cfg stop) :: rest ∧
      (c.crcRound cfg padding stop).crcTrace cfg padding stop fuel = some (rest, c') ∧
      AgreeBelow (c.crcRound cfg padding stop).offset (c.crcRound cfg padding stop).block c'.block ∧
      (crcNoff stop (c.offset + 4) < stop ∨ rest = [] ∧ crcNoff stop (c.offset + 4) = stop) := by
  have Hc := c.crcTag_spec cfg hge
  have hround := Commit.crcRound_offset Hc padding
  have hle := Hc.le
  rw [Commit.crcTrace, if_pos (by omega)] at h
  obtain ⟨-, h⟩ := Option.ite_none_left_eq_some.mp h
  obtain ⟨⟨rest, c₁⟩, hrest, hcons⟩ := Option.map_eq_some_iff.mp h
  obtain ⟨rfl, rfl⟩ := Prod.mk.inj hcons
  refine ⟨rest, rfl, hrest, ?_⟩
  by_cases hlt : crcNoff stop (c.offset + 4) < stop
  · have := Hc.last hlt
    exact ⟨Commit.agreeBelow_crcTrace (by omega) hrest, .inl hlt⟩
  · cases fuel with
    | zero => cases hrest
    | succ fuel =>
      rw [Commit.crcTrace, if_neg (by omega)] at hrest
      obtain ⟨rfl, rfl⟩ := Prod.mk.inj (Option.some.inj hrest)
      exact ⟨fun _ _ => rfl, .inr ⟨rfl, by omega⟩⟩

/-- **What the first loop writes can be read.** -/
theorem Commit.Summed.sealed (H : c.Summed begin) (hge : c.offset + 16 ≤ stop)
    (h : c.crcTrace cfg padding stop fuel = some (tags, c')) :
    Sealed c'.block begin c.ptag tags := by
  induction fuel generalizing c begin tags with
  | zero => cases h
  | succ fuel ih =>
    have Hc := c.crcTag_spec cfg hge
    have hround := Commit.crcRound_offset Hc padding
    have hnoff := Hc.ge
    obtain ⟨rest, rfl, hrest, hagree, hend⟩ := Commit.crcTrace_cases hge h
    obtain ⟨htag, hsum, hprefix, -⟩ := H.crcRound Hc padding (hagree.mono (by omega))
    refine ⟨htag, hsum.trans hprefix.symm, ?_⟩
    rcases hend with hlt | ⟨rfl, -⟩
    · have := Hc.last hlt
      exact ih (c := c.crcRound cfg padding stop) (.start ..) (by omega) hrest
    · trivial

/-! ## The second loop -/

/-- From a checksum of the first loop on, the second loop finds every checksum right. -/
theorem Commit.Summed.verifyTrace (H : c.Summed begin) (hge : c.offset + 16 ≤ stop)
    (hstop : stop ≤ cfg.blockSize)
    (h : c.crcTrace cfg padding stop fuel = some (tags, c'))
    (hfirst : off1 < begin ∨ off1 = c.offset + 4 ∧ crc1 = c.sum cfg stop)
    (hfuel : tags.length < fuel') :
    verifyTrace cfg c'.block stop off1 crc1 fuel' begin (c.offset + 4) =
      some (crcFields tags, true) := by
  induction fuel generalizing c begin tags fuel' with
  | zero => cases h
  | succ fuel ih =>
    have Hc := c.crcTag_spec cfg hge
    have hround := Commit.crcRound_offset Hc padding
    have hnoff := Hc.ge
    have hle := H.le
    obtain ⟨rest, rfl, hrest, hagree, hend⟩ := Commit.crcTrace_cases hge h
    obtain ⟨-, -, hprefix, hzero⟩ := H.crcRound Hc padding (hagree.mono (by omega))
    cases fuel' with
    | zero => exact absurd hfuel (Nat.not_lt_zero _)
    | succ fuel' =>
      have hread : bdRead cfg c'.block begin (c.offset + 4 + 4 - begin) =
          some (ByteImage.read c'.block begin (c.offset + 4 + 4 - begin)) := bdRead_of_le (by omega)
      have hhere : begin ≤ off1 ∧ off1 < c.offset + 4 + 4 →
          lfsCrc 0xffffffff#32 ((ByteImage.read c'.block begin (c.offset + 4 + 4 - begin)).take
            (off1 - begin)) = crc1 := fun ⟨hbegin, _⟩ => by
        obtain ⟨rfl, rfl⟩ := hfirst.resolve_left (Nat.not_lt.mpr hbegin)
        have hlen : c.offset + 4 + 4 - begin = (c.offset + 4 - begin) + 4 := by omega
        rw [hlen, ByteImage.read_append, List.take_left' (ByteImage.length_read ..), hprefix]
      rw [LittleFs.verifyTrace, if_pos (by omega), hread]
      dsimp only
      rw [if_neg (not_or.mpr ⟨not_not.mpr hhere, not_not.mpr hzero⟩)]
      rcases hend with hlt | ⟨rfl, hend⟩
      · have := Hc.last hlt
        have hstart : (c.crcRound cfg padding stop).Summed (crcNoff stop (c.offset + 4)) := by
          rw [← hround]
          exact .start ..
        have hnext := ih hstart (by omega) hrest
          (by rcases hfirst with h | ⟨h, -⟩ <;> exact .inl (by omega))
          (Nat.lt_of_succ_lt_succ hfuel)
        rw [hround] at hnext
        rw [hnext]
        rfl
      · -- both loops end here
        cases fuel' with
        | zero => exact absurd (Nat.lt_of_succ_lt_succ hfuel) (Nat.not_lt_zero _)
        | succ fuel' =>
          rw [LittleFs.verifyTrace, if_neg (by omega)]
          rfl

/-! ## The end of a commit -/

/-- What the two loops of `lfs_dir_commit_crc` come by in a commit that ends at `stop`. -/
structure Commit.Covered (cfg : DiskConfig) (padding : Nat → Option UInt8) (begin : Nat)
    (c : Commit) (stop : Nat) : Prop where
  aligned : cfg.writeSize ∣ stop
  inBlock : stop ≤ cfg.blockSize
  /-- `lfs_alignup` does not overflow. -/
  words : cfg.blockSize + cfg.writeSize ≤ 2 ^ 64 → alignup64 (c.offset + 16) cfg.writeSize = stop
  /-- The loops end, the tags can be read, and the second loop finds every checksum right. -/
  loops : ∃ tags c',
    c.crcTrace cfg padding stop (stop + 1) = some (tags, c') ∧
    Tiles c.offset tags stop ∧ (∀ t ∈ tags, 4 ≤ tagSize t.2 ∧ tagSize t.2 ≤ 0x3fe) ∧
    Sealed c'.block begin c.ptag tags ∧
    verifyTrace cfg c'.block stop (c.offset + 4) (c.sum cfg stop) (stop + 1) begin (c.offset + 4) =
      some (crcFields tags, true) ∧
    c.commitCrc cfg padding begin = some c'

/-- **The checksum tags tile the padding**, and the checksums that are verified are those that were
written, for a commit whose checksum is that of its bytes. -/
theorem Commit.commitCrc_covered (padding : Nat → Option UInt8)
    (hdvd : cfg.writeSize ∣ cfg.blockSize)
    (hroom : c.offset + 16 ≤ cfg.blockSize) (hsummed : c.Summed begin) :
    c.Covered cfg padding begin (alignup (c.offset + 16) cfg.writeSize) := by
  have hwrite : 0 < cfg.writeSize := Nat.pos_of_dvd_of_pos hdvd (by omega)
  have hge := le_alignup (c.offset + 16) hwrite
  have hle := alignup_le hdvd hwrite hroom
  refine ⟨dvd_alignup .., hle, fun hfits => alignup64_eq hwrite (by omega), ?_⟩
  have hcommit : c.commitCrc cfg padding begin =
      (c.crcLoop cfg padding (alignup (c.offset + 16) cfg.writeSize)
        (alignup (c.offset + 16) cfg.writeSize + 1)).bind fun c' =>
        if verifyLoop cfg c'.block (alignup (c.offset + 16) cfg.writeSize) (c.offset + 4)
          (c.sum cfg (alignup (c.offset + 16) cfg.writeSize))
          (alignup (c.offset + 16) cfg.writeSize + 1) begin (c.offset + 4) then some c' else none :=
    rfl
  rw [hcommit]
  generalize alignup (c.offset + 16) cfg.writeSize = stop at hge hle ⊢
  obtain ⟨tags, c', htrace, htiles, hsizes⟩ :=
    Commit.crcTrace_tiles padding hge hle (show stop < stop + 1 + c.offset by omega)
  have hverify : verifyTrace cfg c'.block stop (c.offset + 4) (c.sum cfg stop) (stop + 1) begin
      (c.offset + 4) = some (crcFields tags, true) :=
    hsummed.verifyTrace hge hle htrace (.inr ⟨rfl, rfl⟩) (Commit.crcTrace_length htrace)
  refine ⟨tags, c', htrace, htiles, hsizes, hsummed.sealed hge htrace, hverify, ?_⟩
  rw [← Commit.crcTrace_map, htrace, Option.map_some, Option.bind_some, ← verifyTrace_map, hverify]
  rfl

/-- With 2048 bytes to a program unit the padding behind the revision count of a compaction needs
two tags. -/
theorem Commit.commitCrc_covered_long :
    (compactStart (fun _ => 0xff) 1#32).Covered ⟨4096, 2, 2048, 0⟩ (fun _ => none) 0
      (alignup (4 + 16) 2048) :=
  Commit.commitCrc_covered (fun _ => none) (by decide) (by decide)
    ((Commit.Summed.start _ 0 _).write _)

end

end LittleFs
