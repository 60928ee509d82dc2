import LittleFs.Lib.ByteImage
import LittleFs.Fetch
import Mathlib.Logic.Relation

/-! `lfs_dir_fetch` on the bytes of a pair: the scan over the chain of tags of a block, in which a
tag is stored as the exclusive or with the tag before it, and the checksums that accept what was
read so far. -/

namespace LittleFs

open ByteImage (AgreeBelow)

/-! ## Words and checksums -/

def toLe32 (word : BitVec 32) : List UInt8 := toLe 4 word.toNat
def fromLe32 (bytes : List UInt8) : BitVec 32 := BitVec.ofNat 32 (fromLe bytes)

/-- `lfs_tobe32`, as the bytes it stores. -/
def toBe32 (word : BitVec 32) : List UInt8 := (toLe 4 word.toNat).reverse
def fromBe32 (bytes : List UInt8) : BitVec 32 := BitVec.ofNat 32 (fromLe bytes.reverse)

@[simp] theorem length_toLe (size n : Nat) : (toLe size n).length = size := by
  induction size generalizing n with
  | zero => rfl
  | succ size ih => rw [toLe, List.length_cons, ih]

@[simp] theorem length_toLe32 (word : BitVec 32) : (toLe32 word).length = 4 := length_toLe ..

@[simp] theorem length_toBe32 (word : BitVec 32) : (toBe32 word).length = 4 := by
  rw [toBe32, List.length_reverse, length_toLe]

theorem fromLe_toLe (size n : Nat) : fromLe (toLe size n) = n % 256 ^ size := by
  induction size generalizing n with
  | zero => exact (Nat.mod_one n).symm
  | succ size ih =>
    have hbyte : (UInt8.ofNat n).toNat = n % 256 := UInt8.toNat_ofNat'
    rw [toLe, fromLe, ih, hbyte, Nat.pow_succ', Nat.mod_mul]

theorem fromLe32_toLe32 (word : BitVec 32) : fromLe32 (toLe32 word) = word := by
  have hlt : word.toNat < 256 ^ 4 := word.isLt
  rw [fromLe32, toLe32, fromLe_toLe, Nat.mod_eq_of_lt hlt, BitVec.ofNat_toNat, BitVec.setWidth_eq]

theorem fromBe32_toBe32 (word : BitVec 32) : fromBe32 (toBe32 word) = word := by
  rw [fromBe32, toBe32, List.reverse_reverse]
  exact fromLe32_toLe32 word

/-- `rtable` of `lfs_crc`. -/
def crcTable : List (BitVec 32) := [
  0x00000000#32, 0x1db71064#32, 0x3b6e20c8#32, 0x26d930ac#32,
  0x76dc4190#32, 0x6b6b51f4#32, 0x4db26158#32, 0x5005713c#32,
  0xedb88320#32, 0xf00f9344#32, 0xd6d6a3e8#32, 0xcb61b38c#32,
  0x9b64c2b0#32, 0x86d3d2d4#32, 0xa00ae278#32, 0xbdbdf21c#32]

def crcNibble (crc : BitVec 32) (data : Nat) : BitVec 32 :=
  (crc >>> 4) ^^^ crcTable.getD ((crc.toNat ^^^ data) % 16) 0#32

/-- `lfs_crc`. -/
def lfsCrc (crc : BitVec 32) (data : List UInt8) : BitVec 32 :=
  data.foldl (fun crc b => crcNibble (crcNibble crc b.toNat) (b.toNat >>> 4)) crc

/-! ## The scan of a block -/

/-- The settings that the metadata code reads; `metadataMax` is 0 when it is not set. -/
structure DiskConfig where
  blockSize : Nat
  blockCount : Nat
  writeSize : Nat
  metadataMax : Nat := 0
  deriving DecidableEq, Repr

/-- `lfs_bd_read` of one block without device errors; `none` is `LFS_ERR_CORRUPT`. -/
def bdRead (cfg : DiskConfig) (block : ByteImage.Image) (offset size : Nat) :
    Option (List UInt8) :=
  if offset + size ≤ cfg.blockSize then some (ByteImage.read block offset size) else none

/-- What the scan has found up to the last good checksum. -/
structure ScanDir where
  /-- Nonzero when there is a commit. -/
  offset : Nat := 0
  etag : Tag := 0#32
  count : Nat := 0
  tail : BlockPair := (0, 0)
  split : Bool := false
  log : List LogEntry := []
  deriving DecidableEq, Repr

/-- The variables of the scan. -/
structure TagScan where
  offset : Nat := 0
  ptag : Tag := 0xffffffff#32
  crc : BitVec 32
  temp : FetchScan := {}
  log : List LogEntry := []
  dir : ScanDir := {}
  deriving DecidableEq, Repr

/-- The offset of the next tag. -/
def TagScan.next (s : TagScan) : Nat := s.offset + tagDsize s.ptag

/-- Bit 31 of the next tag is flipped behind a checksum tag with an odd type. -/
def resetBit (reset : Bool) : Tag := if reset then 0x80000000#32 else 0#32

/-- The end of a commit. -/
def TagScan.accept (s : TagScan) (tag : Tag) (data : List UInt8) : TagScan :=
  let ptag := tag ^^^ resetBit (tagChunk tag &&& 1#8 == 1#8)
  let log := s.log ++ [⟨tag, data⟩]
  { s with
    offset := s.next
    ptag := ptag
    log := log
    -- update with what's found so far
    dir := ⟨s.next + tagDsize tag, ptag, s.temp.count, s.temp.tail, s.temp.split, log⟩
    -- reset crc
    crc := 0xffffffff#32 }

/-- Any other tag; `found` is the data that the scan looks at. -/
def TagScan.enter (s : TagScan) (tag : Tag) (data found : List UInt8) (crc : BitVec 32) : TagScan :=
  { s with
    offset := s.next
    ptag := tag
    crc := lfsCrc crc data
    temp := s.temp.modify ⟨tag, found⟩
    log := s.log ++ [⟨tag, data⟩] }

/-- One round of the scan; it ends with the value of `dir->erased`. -/
def TagScan.round (cfg : DiskConfig) (block : ByteImage.Image) (s : TagScan) :
    Except Bool TagScan :=
  match bdRead cfg block s.next 4 with
  | none => .error false
  | some word =>
    let crc := lfsCrc s.crc word
    let tag := fromBe32 word ^^^ s.ptag
    -- next commit not yet programmed or we're not in valid range
    if tagIsValid tag = false then
      .error (tagType1 s.ptag == typeCrc && s.dir.offset % cfg.writeSize == 0)
    else if s.next + tagDsize tag > cfg.blockSize then .error false
    else
      let data := ByteImage.read block (s.next + 4) (tagDsize tag - 4)
      if tagType1 tag = typeCrc then
        -- check the crc attr
        match bdRead cfg block (s.next + 4) 4 with
        | none => .error false
        | some dcrc => if crc ≠ fromLe32 dcrc then .error false else .ok (s.accept tag data)
      else if tagType1 tag = typeTail then
        match bdRead cfg block (s.next + 4) 16 with
        | none => .error false
        | some pair => .ok (s.enter tag data pair crc)
      else .ok (s.enter tag data data crc)

/-- The loop of the scan; every round moves on by at least four bytes. -/
def TagScan.loop (cfg : DiskConfig) (block : ByteImage.Image) :
    (fuel : Nat) → TagScan → ScanDir × Bool
  | 0, s => (s.dir, false)
  | fuel + 1, s =>
    match s.round cfg block with
    | .error erased => (s.dir, erased)
    | .ok s => TagScan.loop cfg block fuel s

def scanStart (revision : BitVec 32) : TagScan :=
  { crc := lfsCrc 0xffffffff#32 (toLe32 revision) }

/-- The scan of one block of a pair. -/
def scanBlock (cfg : DiskConfig) (block : ByteImage.Image) (revision : BitVec 32) :
    ScanDir × Bool :=
  TagScan.loop cfg block cfg.blockSize (scanStart revision)

/-! ## The fetch of a pair -/

/-- `lfs_metadata_dir_t`, with the tags that were read. -/
structure FetchedDir where
  pair : BlockPair
  revision : BitVec 32
  offset : Nat
  etag : Tag
  count : Nat
  erased : Bool
  split : Bool
  tail : BlockPair
  log : List LogEntry
  deriving DecidableEq, Repr

def ScanDir.fetched (d : ScanDir) (pair : BlockPair) (revision : BitVec 32) (erased : Bool) :
    FetchedDir :=
  ⟨pair, revision, d.offset, d.etag, d.count, erased, d.split, d.tail, d.log⟩

def revisionOf (block : ByteImage.Image) : BitVec 32 := fromLe32 (ByteImage.read block 0 4)

/-- `lfs_scmp(a, b) > 0`. -/
def scmpGt (a b : BitVec 32) : Bool := decide (0 < (a - b).toInt)

/-- The pair with the block of the most recent revision first. -/
def recentFirst (disk : Nat → ByteImage.Image) (pair : BlockPair) : BlockPair :=
  if scmpGt (revisionOf (disk pair.2)) (revisionOf (disk pair.1)) then (pair.2, pair.1) else pair

/-- The scan of the first block of the pair. -/
def fetchFirst (cfg : DiskConfig) (disk : Nat → ByteImage.Image) (pair : BlockPair) :
    Option FetchedDir :=
  let revision := revisionOf (disk pair.1)
  let scan := scanBlock cfg (disk pair.1) revision
  if scan.1.offset > 0 then some (scan.1.fetched pair revision scan.2) else none

/-- `lfs_dir_fetch`; `none` is `LFS_ERR_CORRUPT`. -/
def fetchPair (cfg : DiskConfig) (disk : Nat → ByteImage.Image) (pair : BlockPair) :
    Option FetchedDir :=
  if pair.1 ≥ cfg.blockCount ∨ pair.2 ≥ cfg.blockCount then none
  else
    let pair := recentFirst disk pair
    -- failed, try the other block?
    (fetchFirst cfg disk pair).or (fetchFirst cfg disk (pair.2, pair.1))

/-! ## Rounds -/

section
variable {cfg : DiskConfig} {block block' : ByteImage.Image}

/-- A round that reads a tag. -/
inductive TagScan.Reads (cfg : DiskConfig) (block : ByteImage.Image) (s : TagScan) :
    TagScan → Prop where
  | crc (htag : fromBe32 (ByteImage.read block s.next 4) ^^^ s.ptag = tag)
    (hvalid : tagIsValid tag = true) (hfits : s.next + tagDsize tag ≤ cfg.blockSize)
    (hty : tagType1 tag = typeCrc) (hsum : s.next + 8 ≤ cfg.blockSize)
    (hcrc : lfsCrc s.crc (ByteImage.read block s.next 4) =
      fromLe32 (ByteImage.read block (s.next + 4) 4))
    (hdata : ByteImage.read block (s.next + 4) (tagDsize tag - 4) = data) :
    s.Reads cfg block (s.accept tag data)
  | tail (htag : fromBe32 (ByteImage.read block s.next 4) ^^^ s.ptag = tag)
    (hvalid : tagIsValid tag = true) (hfits : s.next + tagDsize tag ≤ cfg.blockSize)
    (hty : tagType1 tag = typeTail) (hpair : s.next + 20 ≤ cfg.blockSize)
    (hfound : ByteImage.read block (s.next + 4) 16 = found)
    (hdata : ByteImage.read block (s.next + 4) (tagDsize tag - 4) = data) :
    s.Reads cfg block
      (s.enter tag data found (lfsCrc s.crc (ByteImage.read block s.next 4)))
  | other (htag : fromBe32 (ByteImage.read block s.next 4) ^^^ s.ptag = tag)
    (hvalid : tagIsValid tag = true) (hfits : s.next + tagDsize tag ≤ cfg.blockSize)
    (hcrc : tagType1 tag ≠ typeCrc) (htail : tagType1 tag ≠ typeTail)
    (hdata : ByteImage.read block (s.next + 4) (tagDsize tag - 4) = data) :
    s.Reads cfg block
      (s.enter tag data data (lfsCrc s.crc (ByteImage.read block s.next 4)))

theorem tagDsize_ge (tag : Tag) : 4 ≤ tagDsize tag := Nat.le_add_right ..

theorem tagDsize_eq (tag : Tag) :
    tagDsize tag = 4 + if tagSize tag = 0x3ff then 0 else tagSize tag := by
  have hlt := tag.isLt
  have hiff := tagIsDelete_iff tag
  rw [tagDsize]
  by_cases hdel : tagIsDelete tag = true
  · have hsize := hiff.mp hdel
    rw [if_pos hdel, if_pos hsize, tagSize_eq, BitVec.toNat_add]
    rw [tagSize_eq] at hsize
    change 4 + _ = 4
    simp only [BitVec.toNat_ofNat]
    omega
  · rw [if_neg hdel, if_neg (fun h => hdel (hiff.mpr h)), BitVec.add_zero]

theorem tagSize_resetBit (tag : Tag) (reset : Bool) :
    tagSize (tag ^^^ resetBit reset) = tagSize tag := by
  rw [tagSize_eq, tagSize_eq, BitVec.toNat_xor, Nat.xor_mod_two_pow]
  cases reset <;> exact Nat.xor_zero _

@[simp] theorem tagDsize_resetBit (tag : Tag) (reset : Bool) :
    tagDsize (tag ^^^ resetBit reset) = tagDsize tag := by
  rw [tagDsize_eq, tagDsize_eq, tagSize_resetBit]

theorem bdRead_of_le (h : off + size ≤ cfg.blockSize) :
    bdRead cfg block off size = some (ByteImage.read block off size) := if_pos h

theorem bdRead_eq_some (h : bdRead cfg block off size = some bytes) :
    off + size ≤ cfg.blockSize ∧ ByteImage.read block off size = bytes := by
  rw [bdRead] at h
  split at h
  · exact ⟨‹_›, Option.some.inj h⟩
  · cases h

theorem round_ok {s s' : TagScan} : s.round cfg block = .ok s' ↔ s.Reads cfg block s' := by
  refine ⟨fun h => ?_, fun h => ?_⟩
  · rw [TagScan.round] at h
    split at h
    · cases h
    · rename_i word hword
      obtain ⟨hle, rfl⟩ := bdRead_eq_some hword
      dsimp only at h
      split at h
      · cases h
      · rename_i hvalid
        rw [Bool.not_eq_false] at hvalid
        split at h
        · cases h
        · rename_i hfits
          rw [Nat.not_lt] at hfits
          split at h
          · rename_i hty
            split at h
            · cases h
            · rename_i dcrc hdcrc
              obtain ⟨hsum, rfl⟩ := bdRead_eq_some hdcrc
              split at h
              · cases h
              · rename_i hcrc
                cases h
                exact .crc rfl hvalid hfits hty hsum (not_not.mp hcrc) rfl
          · rename_i hcrc
            split at h
            · rename_i hty
              split at h
              · cases h
              · rename_i pair hpair
                obtain ⟨hle, rfl⟩ := bdRead_eq_some hpair
                cases h
                exact .tail rfl hvalid hfits hty hle rfl rfl
            · rename_i htail
              cases h
              exact .other rfl hvalid hfits hcrc htail rfl
  · cases h with
    | @crc tag data htag hvalid hfits hty hsum hcrc hdata =>
      have hge := tagDsize_ge tag
      rw [TagScan.round, bdRead_of_le (by omega)]
      dsimp only
      rw [htag, hvalid, if_neg (by decide), if_neg (by omega), if_pos hty, bdRead_of_le (by omega)]
      dsimp only
      rw [if_neg (not_not.mpr hcrc), hdata]
    | @tail tag found data htag hvalid hfits hty hpair hfound hdata =>
      have hge := tagDsize_ge tag
      rw [TagScan.round, bdRead_of_le (by omega)]
      dsimp only
      rw [htag, hvalid, if_neg (by decide), if_neg (by omega), if_neg (by rw [hty]; decide),
        if_pos hty, bdRead_of_le (by omega), hdata, hfound]
    | @other tag data htag hvalid hfits hcrc htail hdata =>
      have hge := tagDsize_ge tag
      rw [TagScan.round, bdRead_of_le (by omega)]
      dsimp only
      rw [htag, hvalid, if_neg (by decide), if_neg (by omega), if_neg hcrc, if_neg htail, hdata]

/-- The tag that a round has read, with its data. -/
theorem TagScan.Reads.exists_entry {s s' : TagScan} (H : s.Reads cfg block s') :
    ∃ e : LogEntry, s'.log = s.log ++ [e] ∧ s'.offset = s.next ∧
      s'.next = s.next + tagDsize e.tag ∧ s'.next ≤ cfg.blockSize := by
  cases H with
  | @crc tag data htag hvalid hfits =>
    have hnext : (s.accept tag data).next = s.next + tagDsize tag := by
      rw [TagScan.next, TagScan.accept]
      exact congrArg (s.next + ·) (tagDsize_resetBit tag _)
    exact ⟨⟨tag, data⟩, rfl, rfl, hnext, hnext ▸ hfits⟩
  | @tail tag found data htag hvalid hfits => exact ⟨⟨tag, data⟩, rfl, rfl, rfl, hfits⟩
  | @other tag data htag hvalid hfits => exact ⟨⟨tag, data⟩, rfl, rfl, rfl, hfits⟩

theorem TagScan.Reads.next_eq {s s' : TagScan} (H : s.Reads cfg block s') :
    s'.next = s.next + tagDsize (fromBe32 (ByteImage.read block s.next 4) ^^^ s.ptag) := by
  cases H with
  | crc htag => exact htag ▸ congrArg (_ + ·) (tagDsize_resetBit _ _)
  | tail htag => exact htag ▸ rfl
  | other htag => exact htag ▸ rfl

/-- Rounds in a row. -/
abbrev TagScan.Reaches (cfg : DiskConfig) (block : ByteImage.Image) : TagScan → TagScan → Prop :=
  Relation.ReflTransGen (TagScan.Reads cfg block)

theorem TagScan.Reaches.next_le {s s' : TagScan} (H : s.Reaches cfg block s') :
    s.next ≤ s'.next := by
  induction H with
  | refl => exact Nat.le_refl _
  | tail _ hreads ih =>
    obtain ⟨e, -, -, hnext, -⟩ := hreads.exists_entry
    omega

/-- The loop ends where a round ends. -/
theorem loop_reaches (cfg : DiskConfig) (block : ByteImage.Image) (fuel : Nat) (s : TagScan)
    (hfuel : cfg.blockSize < fuel + s.next) :
    ∃ s', s.Reaches cfg block s' ∧
      ∃ erased, s'.round cfg block = .error erased ∧
        TagScan.loop cfg block fuel s = (s'.dir, erased) := by
  induction fuel generalizing s with
  | zero =>
    have hnone : bdRead cfg block s.next 4 = none := if_neg (by omega)
    exact ⟨s, .refl, false, by rw [TagScan.round, hnone], rfl⟩
  | succ fuel ih =>
    rw [TagScan.loop]
    cases hround : s.round cfg block with
    | error erased => exact ⟨s, .refl, erased, hround, rfl⟩
    | ok s₁ =>
      have hreads := round_ok.mp hround
      obtain ⟨e, -, -, hnext, -⟩ := hreads.exists_entry
      have hge := tagDsize_ge e.tag
      obtain ⟨s', hreach, herror⟩ := ih s₁ (by omega)
      exact ⟨s', .head hreads hreach, herror⟩

theorem loop_eq_of_reaches {s s' : TagScan} (h : s.Reaches cfg block s')
    (hfuel : cfg.blockSize < fuel + s.next) (herror : s'.round cfg block = .error erased) :
    TagScan.loop cfg block fuel s = (s'.dir, erased) := by
  induction h using Relation.ReflTransGen.head_induction_on generalizing fuel with
  | refl =>
    cases fuel with
    | zero =>
      have hnone : bdRead cfg block s'.next 4 = none := if_neg (by omega)
      rw [TagScan.round, hnone] at herror
      cases herror
      rfl
    | succ fuel => rw [TagScan.loop, herror]
  | head hreads _ ih =>
    obtain ⟨e, -, -, hnext, hle⟩ := hreads.exists_entry
    have hge := tagDsize_ge e.tag
    cases fuel with
    | zero => omega
    | succ fuel =>
      rw [TagScan.loop, round_ok.mpr hreads]
      exact ih (by omega)

/-! ## Bytes behind the last tag -/

/-- A checksum or a tail pointer lies within its tag. -/
def LogEntry.Framed (e : LogEntry) : Prop :=
  (tagType1 e.tag = typeCrc → 8 ≤ tagDsize e.tag) ∧
    (tagType1 e.tag = typeTail → 20 ≤ tagDsize e.tag)

instance (e : LogEntry) : Decidable e.Framed := inferInstanceAs (Decidable (_ ∧ _))

theorem TagScan.Reads.congr {s s' : TagScan} (H : s.Reads cfg block s')
    (hagree : AgreeBelow s'.next block block') (hframed : ∀ e ∈ s'.log, e.Framed) :
    s.Reads cfg block' s' := by
  obtain ⟨e, hlog, -, hnext, -⟩ := H.exists_entry
  have he : e.Framed := hframed e (hlog ▸ List.mem_append_right _ (.head _))
  have hge := tagDsize_ge e.tag
  have hword : ByteImage.read block s.next 4 =
      ByteImage.read block' s.next 4 := hagree.read_eq (by omega)
  have hdata : ByteImage.read block (s.next + 4) (tagDsize e.tag - 4) =
      ByteImage.read block' (s.next + 4) (tagDsize e.tag - 4) := hagree.read_eq (by omega)
  cases H with
  | @crc tag data htag hvalid hfits hty hsum hcrc hdata' =>
    obtain rfl : ⟨tag, data⟩ = e := List.singleton_inj.mp (List.append_cancel_left hlog)
    have hle : 8 ≤ tagDsize tag := he.1 hty
    replace hnext : (s.accept tag data).next = s.next + tagDsize tag := hnext
    have hsum' : ByteImage.read block (s.next + 4) 4 =
        ByteImage.read block' (s.next + 4) 4 := hagree.read_eq (by omega)
    exact .crc (hword ▸ htag) hvalid hfits hty hsum (by rw [← hword, ← hsum', hcrc])
      (hdata ▸ hdata')
  | @tail tag found data htag hvalid hfits hty hpair hfound hdata' =>
    obtain rfl : ⟨tag, data⟩ = e := List.singleton_inj.mp (List.append_cancel_left hlog)
    have hle : 20 ≤ tagDsize tag := he.2 hty
    replace hnext : (s.enter tag data found _).next = s.next + tagDsize tag := hnext
    have hfound' : ByteImage.read block (s.next + 4) 16 =
        ByteImage.read block' (s.next + 4) 16 := hagree.read_eq (by omega)
    rw [hword]
    exact .tail (hword ▸ htag) hvalid hfits hty hpair (hfound' ▸ hfound) (hdata ▸ hdata')
  | @other tag data htag hvalid hfits hcrc htail hdata' =>
    obtain rfl : ⟨tag, data⟩ = e := List.singleton_inj.mp (List.append_cancel_left hlog)
    rw [hword]
    exact .other (hword ▸ htag) hvalid hfits hcrc htail (hdata ▸ hdata')

/-- **Frame.** The rounds up to an offset depend on the bytes below it only. -/
theorem TagScan.Reaches.congr {s s' : TagScan} (H : s.Reaches cfg block s')
    (hagree : AgreeBelow s'.next block block') (hframed : ∀ e ∈ s'.log, e.Framed) :
    s.Reaches cfg block' s' := by
  induction H with
  | refl => exact .refl
  | tail _ hreads ih =>
    obtain ⟨e, hlog, -, hnext, -⟩ := hreads.exists_entry
    refine .tail (ih (hagree.mono (by omega)) fun e he => ?_) (hreads.congr hagree hframed)
    exact hframed e (hlog ▸ List.mem_append_left _ he)

/-! ## Behind a checksum -/

/-- The last tag was a good checksum. -/
structure TagScan.AtCommit (s : TagScan) : Prop where
  offset : s.dir.offset = s.next
  etag : s.dir.etag = s.ptag
  crc : s.crc = 0xffffffff#32
  count : s.dir.count = s.temp.count
  tail : s.dir.tail = s.temp.tail
  split : s.dir.split = s.temp.split
  log : s.dir.log = s.log

theorem atCommit_accept (s : TagScan) (tag : Tag) (data : List UInt8) :
    (s.accept tag data).AtCommit :=
  ⟨(congrArg (s.next + ·) (tagDsize_resetBit tag _)).symm, rfl, rfl, rfl, rfl, rfl, rfl⟩

theorem TagScan.Reads.atCommit {s s' : TagScan} (H : s.Reads cfg block s')
    (hty : tagType1 s'.ptag = typeCrc) : s'.AtCommit := by
  cases H with
  | crc => exact atCommit_accept ..
  | tail _ _ _ htail => exact absurd (htail.symm.trans hty) (by decide)
  | other _ _ _ hcrc => exact absurd hty hcrc

theorem scanStart_next (revision : BitVec 32) : (scanStart revision).next = 4 := by
  change 0 + tagDsize 0xffffffff#32 = 4
  decide

/-- A scan that finds erased space has stopped right behind a checksum. -/
theorem scanBlock_erased (cfg : DiskConfig) (block : ByteImage.Image) (revision : BitVec 32)
    (herased : (scanBlock cfg block revision).2 = true) :
    ∃ s, (scanStart revision).Reaches cfg block s ∧ s.AtCommit ∧
      s.round cfg block = .error true ∧ (scanBlock cfg block revision).1 = s.dir ∧
      s.dir.offset % cfg.writeSize = 0 := by
  have hnext := scanStart_next revision
  obtain ⟨s, hreach, erased, herror, hloop⟩ :=
    loop_reaches cfg block cfg.blockSize (scanStart revision) (by omega)
  rw [scanBlock, hloop] at herased ⊢
  dsimp only at herased
  subst herased
  have hcond : tagType1 s.ptag = typeCrc ∧ s.dir.offset % cfg.writeSize = 0 := by
    rw [TagScan.round] at herror
    split at herror
    · cases herror
    · dsimp only at herror
      split at herror
      · simpa using herror
      · split at herror
        · cases herror
        · split at herror
          · split at herror
            · cases herror
            · split at herror <;> cases herror
          · split at herror
            · split at herror <;> cases herror
            · cases herror
  refine ⟨s, hreach, ?_, herror, rfl, hcond.2⟩
  rcases Relation.ReflTransGen.cases_tail hreach with rfl | ⟨s', -, hreads⟩
  · exact absurd hcond.1 (show ¬ tagType1 0xffffffff#32 = typeCrc by decide)
  · exact hreads.atCommit hcond.1

/-! ## The choice between the blocks -/

theorem fetchFirst_eq {disk : Nat → ByteImage.Image} {dir : FetchedDir}
    (h : fetchFirst cfg disk pair = some dir) :
    0 < dir.offset ∧ dir.pair = pair ∧
      dir = (scanBlock cfg (disk pair.1) (revisionOf (disk pair.1))).1.fetched pair
        (revisionOf (disk pair.1)) (scanBlock cfg (disk pair.1) (revisionOf (disk pair.1))).2 := by
  rw [fetchFirst] at h
  generalize scanBlock cfg (disk pair.1) (revisionOf (disk pair.1)) = scan at h ⊢
  obtain ⟨hpos, h⟩ := Option.ite_none_right_eq_some.mp h
  cases h
  exact ⟨hpos, rfl, rfl⟩

/-- The other block does not matter as long as it is older or cannot be fetched. -/
structure Settles (cfg : DiskConfig) (disk : Nat → ByteImage.Image) (pair : BlockPair)
    (dir : FetchedDir) : Prop where
  bounds : pair.1 < cfg.blockCount ∧ pair.2 < cfg.blockCount
  first : fetchFirst cfg disk dir.pair = some dir
  order : recentFirst disk pair = dir.pair ∨
    recentFirst disk pair = (dir.pair.2, dir.pair.1) ∧
      fetchFirst cfg disk (dir.pair.2, dir.pair.1) = none

theorem fetchPair_eq_some {disk : Nat → ByteImage.Image} {dir : FetchedDir} :
    fetchPair cfg disk pair = some dir ↔ Settles cfg disk pair dir := by
  refine ⟨fun h => ?_, fun H => ?_⟩
  · rw [fetchPair] at h
    obtain ⟨hbounds, h⟩ := Option.ite_none_left_eq_some.mp h
    rw [not_or, Nat.not_le, Nat.not_le] at hbounds
    rcases Option.or_eq_some_iff.mp h with h | ⟨hnone, h⟩
    · have hpair := (fetchFirst_eq h).2.1
      exact ⟨hbounds, by rw [hpair, h], .inl hpair.symm⟩
    · have hpair := (fetchFirst_eq h).2.1
      refine ⟨hbounds, by rw [hpair, h], .inr ?_⟩
      rw [hpair, Prod.mk.eta]
      exact ⟨rfl, hnone⟩
  · have hbounds : ¬ (pair.1 ≥ cfg.blockCount ∨ pair.2 ≥ cfg.blockCount) := by
      have := H.bounds
      omega
    rw [fetchPair, if_neg hbounds]
    dsimp only
    rcases H.order with h | ⟨h, hnone⟩
    · rw [h, H.first, Option.some_or]
    · rw [h, hnone, Option.none_or]
      exact H.first

end

end LittleFs
