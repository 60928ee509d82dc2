import LittleFs.BlockScan
import LittleFs.DirGet

/-! The bytes that a commit writes: the attributes, what has changed in the global state, and the
checksum tags of `lfs_dir_commit_crc` up to the next program unit. `lfs_dir_relocating_commit`
writes them behind the log of the pair, `lfs_dir_compact` behind a new revision count into the
other block. -/

namespace LittleFs

/-! ## Writing a commit -/

/-- `lfs_commit_t`, with the bytes of its block. -/
structure Commit where
  block : ByteImage.Image
  offset : Nat
  ptag : Tag
  crc : BitVec 32

/-- `lfs_dir_commit_write`. -/
def Commit.write (c : Commit) (bytes : List UInt8) : Commit :=
  { c with
    block := ByteImage.write c.block c.offset bytes
    crc := lfsCrc c.crc bytes
    offset := c.offset + bytes.length }

/-- A tag as it is stored, with as much of its data as its size says. -/
def LogEntry.stored (e : LogEntry) : LogEntry :=
  ⟨e.tag &&& 0x7fffffff#32, e.data.take (tagDsize e.tag - 4)⟩

/-- `lfs_dir_commit_attribute` for `commit->end = stop`; `none` is `LFS_ERR_NOSPC`, a write that
leaves the block, or data that is shorter than the tag says. -/
def Commit.attribute (cfg : DiskConfig) (stop : Nat) (c : Commit) (e : LogEntry) : Option Commit :=
  let dsize := tagDsize e.tag
  -- check if we fit
  if c.offset + dsize > stop ∨ c.offset + dsize > cfg.blockSize then none
  else if e.data.length < dsize - 4 then none
  else
    let tag := e.tag &&& 0x7fffffff#32
    some { (c.write (toBe32 (tag ^^^ c.ptag))).write (e.data.take (dsize - 4)) with ptag := tag }

/-! ## The checksum -/

def alignup (a alignment : Nat) : Nat := (a + alignment - 1) / alignment * alignment

/-- `lfs_alignup`, in 64 bits. -/
def alignup64 (a alignment : Nat) : Nat :=
  let a := (a + alignment + (2 ^ 64 - 1)) % 2 ^ 64
  a - a % alignment

theorem dvd_alignup (a n : Nat) : n ∣ alignup a n := Nat.dvd_mul_left ..

/-- In 64 bits nothing changes as long as the sum fits. -/
theorem alignup64_eq (h : 0 < n) (hlt : a + n ≤ 2 ^ 64) : alignup64 a n = alignup a n := by
  have hmod : (a + n + (2 ^ 64 - 1)) % 2 ^ 64 = a + n - 1 := by omega
  have hdiv := Nat.div_add_mod (a + n - 1) n
  rw [alignup64, hmod, alignup, Nat.mul_comm]
  omega

/-- Where a checksum tag ends whose data starts at `offset`, for a commit that ends at `stop`. -/
def crcNoff (stop offset : Nat) : Nat :=
  let noff := min (stop - offset) 0x3fe + offset
  if noff < stop then min noff (stop - 16) else noff

/-- The valid bit of the word at `noff` is clear: the next tag has to flip it. -/
def Commit.reset (cfg : DiskConfig) (c : Commit) (noff : Nat) : Bool :=
  -- read erased state from next program unit
  match bdRead cfg c.block noff 4 with
  | none => false
  | some word => tagIsValid (fromBe32 word)

def Commit.crcTag (cfg : DiskConfig) (stop : Nat) (c : Commit) : Tag :=
  let offset := c.offset + 4
  let noff := crcNoff stop offset
  mkTag (typeCrc + (c.reset cfg noff).toNat) 0x3ff (noff - offset)

/-- The tag of the footer and the checksum up to it. -/
def Commit.footer (cfg : DiskConfig) (stop : Nat) (c : Commit) : List UInt8 :=
  toBe32 (c.crcTag cfg stop ^^^ c.ptag)

def Commit.sum (cfg : DiskConfig) (stop : Nat) (c : Commit) : BitVec 32 :=
  lfsCrc c.crc (c.footer cfg stop)

/-- One checksum tag. What becomes of the padding behind the checksum is left open: `padding`
gives the bytes of it that are programmed. -/
def Commit.crcRound (cfg : DiskConfig) (padding : Nat → Option UInt8) (stop : Nat) (c : Commit) :
    Commit :=
  let tag := c.crcTag cfg stop
  let next := c.offset + 4 + tagSize tag
  { block := ByteImage.fill
      (ByteImage.write c.block c.offset (c.footer cfg stop ++ toLe32 (c.sum cfg stop)))
      (c.offset + 8) next padding
    offset := next
    ptag := tag ^^^ resetBit (tagChunk tag &&& 1#8 == 1#8)
    crc := 0xffffffff#32 }

/-- The checksum tags that fill up the remainder of the commit; `none` is a write that leaves the
block. Every round moves on by at least 16 bytes. -/
def Commit.crcLoop (cfg : DiskConfig) (padding : Nat → Option UInt8) (stop : Nat) :
    (fuel : Nat) → Commit → Option Commit
  | 0, _ => none
  | fuel + 1, c =>
    if c.offset < stop then
      if c.offset + 8 > cfg.blockSize then none
      else Commit.crcLoop cfg padding stop fuel (c.crcRound cfg padding stop)
    else some c

/-- The check of the checksums that were written, from `offset` on with the next one at `noff`. -/
def verifyLoop (cfg : DiskConfig) (block : ByteImage.Image) (stop off1 : Nat) (crc1 : BitVec 32) :
    (fuel : Nat) → (offset noff : Nat) → Bool
  | 0, _, _ => false
  | fuel + 1, offset, noff =>
    if offset < stop then
      match bdRead cfg block offset (noff + 4 - offset) with
      | none => false
      | some bytes =>
        -- check against written crc
        let here := offset ≤ off1 ∧ off1 < noff + 4 →
          lfsCrc 0xffffffff#32 (bytes.take (off1 - offset)) = crc1
        if ¬ here ∨ lfsCrc 0xffffffff#32 bytes ≠ 0#32 then false
        else
          -- skip padding
          let offset := crcNoff stop noff
          verifyLoop cfg block stop off1 crc1 fuel offset (offset + 4)
    else true

/-- `lfs_dir_commit_crc` for `commit->begin = begin`. -/
def Commit.commitCrc (cfg : DiskConfig) (padding : Nat → Option UInt8) (begin : Nat) (c : Commit) :
    Option Commit :=
  -- align to program units
  let stop := alignup (c.offset + 16) cfg.writeSize
  (c.crcLoop cfg padding stop (stop + 1)).bind fun c' =>
    let off1 := c.offset + 4
    if verifyLoop cfg c'.block stop off1 (c.sum cfg stop) (stop + 1) begin off1 then some c'
    else none

/-! ## The global state -/

/-- The three global states of `lfs_t`. -/
structure GlobalStates where
  gstate : GState := {}
  gdisk : GState := {}
  gdelta : GState := {}
  deriving DecidableEq, Repr

/-- `lfs_gstate_xor`. -/
def gstateXor (a b : GState) : GState :=
  ⟨a.tag ^^^ b.tag, (a.pair.1 ^^^ b.pair.1, a.pair.2 ^^^ b.pair.2)⟩

/-- The 24 bytes of an `lfs_gstate_t`, with the padding behind the tag. -/
def gstateToLe64 (a : GState) : List UInt8 :=
  toLe32 a.tag ++ List.replicate 4 0 ++ pairToLe64 a.pair

def gstateFromLe64 (bytes : List UInt8) : GState :=
  ⟨fromLe32 (bytes.take 4), pairFromLe64 (bytes.drop 8)⟩

/-- The directory without its place on disk. -/
def FetchedDir.toDir (dir : FetchedDir) : MetadataDir :=
  ⟨dir.pair, dir.log, dir.count, dir.split, dir.tail⟩

/-- `lfs_dir_getgstate`; `none` is a device error. -/
def dirGetgstate (gdisk : GState) (dir : MetadataDir) (gstate : GState) : Option GState :=
  match dirGet gdisk dir (mkTag typeMovestate 0 0) (mkTag typeMovestate 0 24) with
  | .ok (_, bytes) => some (gstateXor gstate (gstateFromLe64 bytes))
  | .error err => if err = errNoent then some gstate else none

/-- What a commit writes of the global state. -/
def gstateEntries (fs : GlobalStates) (dir : FetchedDir) : Option (List LogEntry) :=
  let delta := gstateXor (gstateXor fs.gstate fs.gdisk) fs.gdelta
  let delta := { delta with tag := delta.tag &&& ~~~ mkTag 0 0 0x3ff }
  if gstateIszero delta then some []
  else (dirGetgstate fs.gdisk dir.toDir delta).map fun delta =>
    [⟨mkTag typeMovestate 0x3ff 24, gstateToLe64 delta⟩]

/-! ## The commit -/

/-- The change that one attribute makes to the directory in memory; `none` when an assertion
fails. -/
def FetchedDir.change (dir : FetchedDir) (a : Attr) : Option FetchedDir :=
  if tagType3 a.tag = typeCreate then some { dir with count := (dir.count + 1) % 2 ^ 16 }
  else if tagType3 a.tag = typeDelete then
    if dir.count > 0 then some { dir with count := dir.count - 1 } else none
  else if tagType1 a.tag = typeTail then
    some { dir with
      tail := pairFromLe64 a.buffer.bytes
      split := tagChunk a.tag &&& 1#8 == 1#8 }
  else some dir

/-- `commit.end`, in 64 bits. -/
def DiskConfig.commitEnd (cfg : DiskConfig) : Nat :=
  ((if cfg.metadataMax ≠ 0 then cfg.metadataMax else cfg.blockSize) + 2 ^ 64 - 16) % 2 ^ 64

/-- The tags that a commit of the attributes writes. -/
def appendEntries (fs : GlobalStates) (dir : FetchedDir) (attrs : List Attr) :
    Option (List LogEntry) :=
  (gstateEntries fs dir).map (dirTraverse [] attrs 0#32 0#32 0 0 0 ++ ·)

/-- What a commit leaves: its block, the directory in memory and the global states. -/
structure Appended where
  block : ByteImage.Image
  dir : FetchedDir
  states : GlobalStates

/-- The in-place branch of `lfs_dir_relocating_commit`, for a directory that it does not drop. -/
def appendCommit (cfg : DiskConfig) (padding : Nat → Option UInt8) (fs : GlobalStates)
    (block : ByteImage.Image) (dir : FetchedDir) (attrs : List Attr) : Option Appended :=
  (attrs.foldlM FetchedDir.change dir).bind fun dir' =>
    if dir.erased = false then none
    else (appendEntries fs dir attrs).bind fun entries =>
      let c : Commit := ⟨block, dir.offset, dir.etag, 0xffffffff#32⟩
      (entries.foldlM (Commit.attribute cfg cfg.commitEnd) c).bind fun c =>
        (c.commitCrc cfg padding dir.offset).map fun c =>
          -- successful commit, update dir
          ⟨c.block, { dir' with offset := c.offset, etag := c.ptag },
            { gstate := fs.gstate, gdisk := fs.gstate }⟩

/-! ## The compaction -/

/-- What a compaction writes of the global state. -/
def compactGstate (fs : GlobalStates) (dir : FetchedDir) : Option (List LogEntry) :=
  let delta := gstateXor (gstateXor fs.gdisk fs.gstate) fs.gdelta
  let delta := { delta with tag := delta.tag &&& ~~~ mkTag 0 0 0x3ff }
  (dirGetgstate fs.gdisk dir.toDir delta).map fun delta =>
    if gstateIszero delta then [] else [⟨mkTag typeMovestate 0x3ff 24, gstateToLe64 delta⟩]

/-- The tags that a compaction of the entries from `begin` up to `stop` writes. -/
def compactEntries (fs : GlobalStates) (dir : FetchedDir) (attrs : List Attr) (begin stop : Nat) :
    Option (List LogEntry) :=
  let tail : List LogEntry := if pairIsnull dir.tail then []
    else [⟨mkTag (typeTail + dir.split.toNat) 0x3ff 16, pairToLe64 dir.tail⟩]
  (compactGstate fs dir).map fun gs => compactTags dir.log attrs begin stop ++ tail ++ gs

/-- The header of a compaction, written into a block with the bytes `base`. -/
def compactStart (base : ByteImage.Image) (revision : BitVec 32) : Commit :=
  (Commit.mk base 0 0xffffffff#32 0xffffffff#32).write (toLe32 revision)

/-- `lfs_dir_compact` of the directory into the other block of its pair, which `lfs_bd_erase` has
left with the bytes `base`. -/
def compactCommit (cfg : DiskConfig) (padding : Nat → Option UInt8) (fs : GlobalStates)
    (base : ByteImage.Image) (dir : FetchedDir) (attrs : List Attr) (begin stop : Nat) :
    Option Appended :=
  (compactEntries fs dir attrs begin stop).bind fun entries =>
    (entries.foldlM (Commit.attribute cfg cfg.commitEnd)
      (compactStart base (dir.revision + 1#32))).bind fun c =>
      (c.commitCrc cfg padding 0).map fun c =>
        -- successful compaction, swap dir pair to indicate most recent
        ⟨c.block, { dir with
            pair := (dir.pair.2, dir.pair.1)
            revision := dir.revision + 1#32
            count := stop - begin
            offset := c.offset
            etag := c.ptag },
          { gstate := fs.gstate, gdisk := fs.gstate }⟩

end LittleFs
