import LittleFs.CtzList
import LittleFs.FileTruncate
import LittleFs.ReadCache

/-! `lfs_file_rawseek` and `lfs_file_rawread` on a handle to whose CTZ list nothing was written:
neither `LFS_F_INLINE` nor `LFS_F_WRITING` is set.

All reads of the list go through the cache of the handle, and a seek whose target is in the block
and in the window of the cache leaves the block of the handle in place. -/

namespace LittleFs

open BitCount SkipList
open FileHandle (Whence)

/-! ## Handles -/

/-- What the reads of a file use of `lfs_t`. -/
structure ReaderConfig extends ReadConfig where
  fileMaxSize : Nat
  deriving DecidableEq, Repr

/-- `lfs_file_t` as its reads see it; the block `none` is `LFS_BLOCK_NULL`. -/
structure FileReader where
  /-- `ctz.head`. -/
  head : Nat
  /-- `ctz.size`. -/
  size : Nat
  pos : Nat := 0
  offset : Nat := 0
  block : Option Nat := none
  /-- `LFS_F_READING`. -/
  reading : Bool := false
  cache : WriteCache := {}

/-- The loop of `lfs_ctz_find` through the cache of the file. -/
def cachedFindLoop (cfg : ReadConfig) (rawread : RawRead) (fuel target current head : Nat)
    (cache : WriteCache) : Option (Except Int Nat × WriteCache) :=
  if target < current then
    let skip := min (npw2_64 (current - target + 1) - 1) (ctz64 current)
    match cachedRead cfg rawread none 8 head fuel (8 * skip) 8 cache with
    | none => none
    | some (.error err, cache) => some (.error err, cache)
    | some (.ok bytes, cache) =>
      cachedFindLoop cfg rawread fuel target (current - 2 ^ skip) (fromLe bytes) cache
  else some (.ok head, cache)
termination_by current
decreasing_by exact Nat.sub_lt (by omega) (Nat.two_pow_pos _)

/-- `lfs_ctz_find`. -/
def cachedFind (cfg : ReadConfig) (rawread : RawRead) (fuel head size pos : Nat)
    (cache : WriteCache) : Option (Except Int (Option Nat × Nat) × WriteCache) :=
  if size = 0 then some (.ok (none, 0), cache)
  else
    let current := (ctzIndex cfg.blockSize (size - 1)).1
    let target := ctzIndex cfg.blockSize pos
    (cachedFindLoop cfg rawread fuel target.1 current head cache).map fun (found, cache) =>
      (found.map fun block => (some block, target.2), cache)

namespace FileReader

/-- The check for a new block at the head of the loop of `lfs_file_flushedread`. -/
def findBlock (cfg : ReadConfig) (rawread : RawRead) (fuel : Nat) (f : FileReader) :
    Option (Int × FileReader) :=
  if f.reading = false ∨ f.offset = cfg.blockSize then
    match cachedFind cfg rawread fuel f.head f.size f.pos f.cache with
    | none => none
    | some (.error err, cache) => some (err, { f with cache })
    | some (.ok (block, offset), cache) =>
      some (errOk, { f with block, offset, cache, reading := true })
  else some (errOk, f)

/-- The loop of `lfs_file_flushedread`, for `nsize` bytes that are left. -/
def flushedreadLoop (cfg : ReadConfig) (rawread : RawRead) (fuel : Nat) :
    (rounds nsize : Nat) → FileReader → Option (Except Int (List UInt8) × FileReader)
  | 0, _, _ => none
  | rounds + 1, nsize, f =>
    if nsize = 0 then some (.ok [], f)
    else match f.findBlock cfg rawread fuel with
      | none => none
      | some (err, f) =>
        if err ≠ errOk then some (.error err, f)
        else
          -- read as much as we can in current block
          let diff := min nsize (cfg.blockSize - f.offset)
          match cachedRead cfg rawread none cfg.blockSize (f.block.getD blockNull) fuel f.offset
              diff f.cache with
          | none => none
          | some (.error err, cache) => some (.error err, { f with cache })
          | some (.ok bytes, cache) =>
            (flushedreadLoop cfg rawread fuel rounds (nsize - diff)
                { f with cache, pos := f.pos + diff, offset := f.offset + diff }).map
              fun (rest, f) => (rest.map (bytes ++ ·), f)

/-- `lfs_file_rawread`. The bytes that it returns are as many as its result says. -/
def rawread (cfg : ReadConfig) (rawread : RawRead) (fuel size : Nat) (f : FileReader) :
    Option (Except Int (List UInt8) × FileReader) :=
  -- eof if past end
  if f.pos ≥ f.size then some (.ok [], f)
  else f.flushedreadLoop cfg rawread fuel fuel (min size (f.size - f.pos))

/-- `lfs_file_flush`. -/
def flush (f : FileReader) : FileReader :=
  if f.reading then { f with reading := false, cache := { f.cache with block := none } } else f

/-- The new position is in the block of the old one, and in the window of the cache. -/
def StaysCached (cfg : ReadConfig) (f : FileReader) (npos : Nat) : Prop :=
  (ctzIndex cfg.blockSize f.pos).1 = (ctzIndex cfg.blockSize npos).1 ∧
    f.cache.offset ≤ (ctzIndex cfg.blockSize npos).2 ∧
    (ctzIndex cfg.blockSize npos).2 < f.cache.offset + f.cache.size

instance (cfg : ReadConfig) (f : FileReader) (npos : Nat) : Decidable (f.StaysCached cfg npos) :=
  inferInstanceAs (Decidable (_ ∧ _))

/-- `lfs_file_rawseek` once the new position is known. -/
def seekTo (cfg : ReaderConfig) (f : FileReader) (npos : Nat) : Int × FileReader :=
  if npos > cfg.fileMaxSize then (errInval, f)
  else if f.pos = npos then (npos, f)
  else if f.StaysCached cfg.toReadConfig npos then
    -- we can avoid flushing and needing to reread the data
    (npos, { f with pos := npos, offset := (ctzIndex cfg.blockSize npos).2 })
  else (npos, { f.flush with pos := npos })

/-- `lfs_file_rawseek`. A negative position of `LFS_SEEK_SET` is past every `file_max_size`. -/
def rawseek (cfg : ReaderConfig) (f : FileReader) (offset : Int) : Whence → Int × FileReader
  | .set => if offset < 0 then (errInval, f) else f.seekTo cfg offset.toNat
  | .cur => if f.pos + offset < 0 then (errInval, f) else f.seekTo cfg (f.pos + offset).toNat
  | .fromEnd =>
    if f.size + offset < 0 then (errInval, f) else f.seekTo cfg (f.size + offset).toNat

end FileReader

/-! ## Calls -/

inductive ReaderCall where
  | seek (offset : Int) (whence : Whence)
  | read (size : Nat)

inductive ReaderAnswer where
  | position (res : Int)
  | bytes (res : Except Int (List UInt8))
  deriving DecidableEq

namespace FileReader

def call (cfg : ReaderConfig) (rawread : RawRead) (fuel : Nat) :
    ReaderCall → FileReader → Option (ReaderAnswer × FileReader)
  | .seek offset whence, f =>
    let (res, f) := f.rawseek cfg offset whence
    some (.position res, f)
  | .read size, f =>
    (f.rawread cfg.toReadConfig rawread fuel size).map fun (res, f) => (.bytes res, f)

/-- The answers to a sequence of calls. -/
def run (cfg : ReaderConfig) (rawread : RawRead) (fuel : Nat) :
    List ReaderCall → FileReader → Option (List ReaderAnswer × FileReader)
  | [], f => some ([], f)
  | c :: calls, f =>
    match f.call cfg rawread fuel c with
    | none => none
    | some (answer, f) =>
      (run cfg rawread fuel calls f).map fun (answers, f) => (answer :: answers, f)

end FileReader

/-! ## What the calls are for -/

/-- What an offset counts from. -/
def seekBase (pos size : Nat) : Whence → Nat
  | .set => 0
  | .cur => pos
  | .fromEnd => size

/-- A call on the bytes of a file and a position. -/
def contentCall (bytes : List UInt8) (maxSize : Nat) : ReaderCall → Nat → ReaderAnswer × Nat
  | .seek offset whence, pos =>
    let target := seekBase pos bytes.length whence + offset
    if target < 0 ∨ maxSize < target then (.position errInval, pos)
    else (.position target, target.toNat)
  | .read size, pos =>
    (.bytes (.ok ((bytes.drop pos).take size)), pos + min size (bytes.length - pos))

def contentRun (bytes : List UInt8) (maxSize : Nat) : List ReaderCall → Nat → List ReaderAnswer
  | [], _ => []
  | c :: calls, pos =>
    let (answer, pos) := contentCall bytes maxSize c pos
    answer :: contentRun bytes maxSize calls pos

/-- The seek keeps the block at whose end a read has stopped. -/
def FileReader.Slips (cfg : ReaderConfig) (f : FileReader) : ReaderCall → Prop
  | .seek offset whence =>
    f.reading = true ∧ f.offset = cfg.blockSize ∧ f.pos < f.size ∧
      ∃ npos : Nat, (npos : Int) = seekBase f.pos f.size whence + offset ∧
        npos ≤ cfg.fileMaxSize ∧ f.pos ≠ npos ∧ f.StaysCached cfg.toReadConfig npos
  | .read _ => False

/-- No seek of the run does so. -/
def FileReader.Clear (cfg : ReaderConfig) (rawread : RawRead) (fuel : Nat) :
    List ReaderCall → FileReader → Prop
  | [], _ => True
  | c :: calls, f => ¬ f.Slips cfg c ∧
      ∀ answer f', f.call cfg rawread fuel c = some (answer, f') → Clear cfg rawread fuel calls f'

/-! ## Files -/

/-- The device as `lfs_ctz_find` sees it. -/
def ReadConfig.disk (cfg : ReadConfig) (content : Nat → ByteImage.Image) : CtzDisk where
  blockSize := cfg.blockSize
  blockCount := cfg.blockCount
  content := content
  erased _ := 0xff
  readResult _ := errOk
  eraseResult _ := errOk
  writeResult _ := errOk

/-- The list that starts at the head of the handle holds the bytes. -/
structure FileReader.Stores (cfg : ReadConfig) (content : Nat → ByteImage.Image)
    (addr : Nat → Nat) (bytes : List UInt8) (f : FileReader) : Prop where
  size : f.size = bytes.length
  head : 0 < f.size → f.head = addr (ctzIndex cfg.blockSize (f.size - 1)).1
  list : 0 < f.size → CtzList (cfg.disk content) (ctzIndex cfg.blockSize (f.size - 1)).1 addr
  byte : ∀ pos i off, Holds 8 cfg.blockSize i pos off → ∀ h : pos < bytes.length,
    content (addr i) off = bytes[pos]

/-- Where the block and the offset of a handle are that is read from. -/
inductive FileReader.Placed (cfg : ReadConfig) (addr : Nat → Nat) (f : FileReader) : Prop
  | inBlock {i : Nat} (hi : i ≤ (ctzIndex cfg.blockSize (f.size - 1)).1)
      (hindex : ctzIndex cfg.blockSize f.pos = (i, f.offset)) (hblock : f.block = some (addr i))
  | atEnd (hoffset : f.offset = cfg.blockSize) (hpos : f.pos < f.size)
  | behind (hpos : f.size ≤ f.pos)
      (hindex : (ctzIndex cfg.blockSize (f.size - 1)).1 < (ctzIndex cfg.blockSize f.pos).1)

/-- What holds of a handle between two calls. -/
structure FileReader.Sound (cfg : ReadConfig) (content : Nat → ByteImage.Image)
    (addr : Nat → Nat) (f : FileReader) : Prop where
  agrees : f.cache.Agrees content
  aligned : f.cache.Aligned cfg
  placed : f.reading = true → f.Placed cfg addr

/-- The sizes, and a device without errors. -/
structure ReadConfig.Reads (cfg : ReadConfig) (rawread : RawRead)
    (content : Nat → ByteImage.Image) : Prop where
  ok : cfg.Ok
  answers : Answers cfg rawread
  faithful : Faithful rawread content
  /-- The end of a window that is read ahead does not wrap around. -/
  blockSize : 2 * cfg.blockSize + cfg.readSize ≤ 2 ^ 64

variable {cfg : ReadConfig} {rawread : RawRead} {content : Nat → ByteImage.Image}
  {addr : Nat → Nat} {bytes : List UInt8} {fuel : Nat} {cache : WriteCache} {f f' : FileReader}

/-! ## The search -/

theorem ReadConfig.Reads.cachedRead (H : cfg.Reads rawread content) (hagrees : cache.Agrees content)
    (haligned : cache.Aligned cfg) (hblock : block < cfg.blockCount)
    (hin : offset + size ≤ cfg.blockSize) (hhint : 0 < hint ∧ hint ≤ cfg.blockSize)
    (hfuel : 2 * cfg.blockSize < fuel) :
    ∃ cache', cachedRead cfg rawread none hint block fuel offset size cache =
        some (.ok (ByteImage.read (content block) offset size), cache') ∧
      cache'.Agrees content ∧ cache'.Aligned cfg := by
  have hsize := H.blockSize
  exact cachedRead_newest H.ok H.answers H.faithful (fun _ hw => by cases hw) haligned hagrees
    hblock hin hhint.1 (by omega) (by omega)

theorem bdRead_disk (h : (cfg.disk content).bdRead block offset size = .ok bytes) :
    block < cfg.blockCount ∧ offset + size ≤ cfg.blockSize ∧
      bytes = ByteImage.read (content block) offset size := by
  rw [CtzDisk.bdRead] at h
  split at h
  · cases h
  · rename_i hin
    rw [not_or, Nat.not_le, Nat.not_lt] at hin
    rw [if_neg (show ¬ (cfg.disk content).readResult block ≠ errOk from not_not.mpr rfl)] at h
    exact ⟨hin.1, hin.2, (Except.ok.inj h).symm⟩

/-- Through a cache the search finds what it finds on the device. -/
theorem ReadConfig.Reads.findLoop (H : cfg.Reads rawread content) (hfuel : 2 * cfg.blockSize < fuel)
    (hagrees : cache.Agrees content) (haligned : cache.Aligned cfg)
    (h : (CtzDisk.ctzFindLoop (cfg.disk content) target current head).2 = .ok block) :
    ∃ cache', cachedFindLoop cfg rawread fuel target current head cache =
        some (.ok block, cache') ∧ cache'.Agrees content ∧ cache'.Aligned cfg := by
  induction current using Nat.strongRecOn generalizing head cache with
  | ind current ih =>
    rw [CtzDisk.ctzFindLoop] at h
    rw [cachedFindLoop]
    by_cases hlt : target < current
    · rw [if_pos hlt] at h ⊢
      dsimp only at h ⊢
      split at h
      · cases h
      · rename_i bytes hread
        obtain ⟨hblock, hin, rfl⟩ := bdRead_disk hread
        obtain ⟨cache', hcached, hagrees', haligned'⟩ := H.cachedRead hagrees haligned hblock hin
          (show 0 < 8 ∧ 8 ≤ cfg.blockSize by omega) hfuel
        rw [hcached]
        exact ih _ (Nat.sub_lt (by omega) (Nat.two_pow_pos _)) hagrees' haligned' h
    · rw [if_neg hlt] at h ⊢
      cases h
      exact ⟨cache, rfl, hagrees, haligned⟩

/-- The search for a byte of the file. -/
theorem FileReader.Stores.find (Hf : f.Stores cfg content addr bytes)
    (H : cfg.Reads rawread content) (hfuel : 2 * cfg.blockSize < fuel)
    (hexact : ∀ pos ≤ bytes.length, CtzExact cfg.blockSize pos)
    (hagrees : f.cache.Agrees content) (haligned : f.cache.Aligned cfg) (hpos : f.pos < f.size)
    (hbyte : Holds 8 cfg.blockSize i f.pos off) :
    ∃ cache', cachedFind cfg rawread fuel f.head f.size f.pos f.cache =
        some (.ok (some (addr i), off), cache') ∧ cache'.Agrees content ∧ cache'.Aligned cfg := by
  have hlength := Hf.size
  obtain ⟨reads, hfind, -⟩ := ctzFind_eq (Hf.list (by omega)) hpos (hexact _ (by omega))
    (hexact _ (by omega)) hbyte
  rw [CtzDisk.ctzFind, if_neg (by omega)] at hfind
  dsimp only at hfind
  have hmap := (Prod.ext_iff.mp hfind).2
  dsimp only at hmap
  obtain ⟨block, hloop⟩ : ∃ block, (CtzDisk.ctzFindLoop (cfg.disk content)
      (ctzIndex cfg.blockSize f.pos).1 (ctzIndex cfg.blockSize (f.size - 1)).1
      (addr (ctzIndex cfg.blockSize (f.size - 1)).1)).2 = .ok block := by
    cases hloop : (CtzDisk.ctzFindLoop (cfg.disk content) (ctzIndex cfg.blockSize f.pos).1
      (ctzIndex cfg.blockSize (f.size - 1)).1
      (addr (ctzIndex cfg.blockSize (f.size - 1)).1)).2 with
    | ok block => exact ⟨block, rfl⟩
    | error err =>
      rw [show (cfg.disk content).blockSize = cfg.blockSize from rfl, hloop] at hmap
      cases hmap
  rw [show (cfg.disk content).blockSize = cfg.blockSize from rfl, hloop] at hmap
  obtain ⟨hblock, hoff⟩ := Prod.ext_iff.mp (Except.ok.inj hmap)
  obtain ⟨cache', hcached, hcache'⟩ := H.findLoop hfuel hagrees haligned hloop
  refine ⟨cache', ?_, hcache'⟩
  rw [cachedFind, if_neg (by omega), Hf.head (by omega)]
  dsimp only
  rw [hcached]
  exact congrArg some (Prod.ext (congrArg Except.ok (Prod.ext hblock hoff)) rfl)

/-! ## Reading -/

/-- The bytes from one on, as long as the block lasts. -/
theorem holds_add (H : Holds 8 cfg.blockSize i pos off) (h : off + k < cfg.blockSize) :
    Holds 8 cfg.blockSize i (pos + k) (off + k) := by
  induction k with
  | zero => exact H
  | succ k ih => exact (ih (by omega)).succ (by omega)

/-- The handle is in the block of the byte at its position. -/
structure FileReader.AtByte (cfg : ReadConfig) (content : Nat → ByteImage.Image)
    (addr : Nat → Nat) (i : Nat) (f : FileReader) : Prop where
  reading : f.reading = true
  block : f.block = some (addr i)
  index_le : i ≤ (ctzIndex cfg.blockSize (f.size - 1)).1
  holds : Holds 8 cfg.blockSize i f.pos f.offset
  agrees : f.cache.Agrees content
  aligned : f.cache.Aligned cfg

/-- What is fixed while a handle is read from. -/
structure FileReader.SameFile (f f' : FileReader) : Prop where
  head : f'.head = f.head
  size : f'.size = f.size

theorem FileReader.Stores.of_same (Hf : f.Stores cfg content addr bytes) (h : f.SameFile f') :
    f'.Stores cfg content addr bytes := by
  obtain ⟨hhead, hsize⟩ := h
  exact ⟨hsize ▸ Hf.size,
    by rw [hhead, hsize]; exact Hf.head, by rw [hsize]; exact Hf.list, Hf.byte⟩

/-- A sequence of calls on an open file. -/
structure FileReader.Opened (cfg : ReadConfig) (rawread : RawRead)
    (content : Nat → ByteImage.Image) (addr : Nat → Nat) (bytes : List UInt8) (f : FileReader) :
    Prop where
  reads : cfg.Reads rawread content
  stores : f.Stores cfg content addr bytes
  exact : ∀ pos ≤ bytes.length, CtzExact cfg.blockSize pos

theorem FileReader.Opened.of_same (H : f.Opened cfg rawread content addr bytes)
    (h : f.SameFile f') : f'.Opened cfg rawread content addr bytes :=
  ⟨H.reads, H.stores.of_same h, H.exact⟩

theorem FileReader.Opened.index_le (H : f.Opened cfg rawread content addr bytes)
    (hpos : f.pos < f.size) :
    (ctzIndex cfg.blockSize f.pos).1 ≤ (ctzIndex cfg.blockSize (f.size - 1)).1 := by
  have hsize := H.stores.size
  have hlast := (H.exact (f.size - 1) (by omega)).lt
  exact (H.exact f.pos (by omega)).index_le (by omega)

theorem FileReader.Opened.findBlock (H : f.Opened cfg rawread content addr bytes)
    (Hs : f.Sound cfg content addr) (hfuel : 2 * cfg.blockSize < fuel) (hpos : f.pos < f.size) :
    ∃ i f', f.findBlock cfg rawread fuel = some (errOk, f') ∧ f'.AtByte cfg content addr i ∧
      f'.pos = f.pos ∧ f.SameFile f' := by
  have hsize := H.stores.size
  have hbyte := H.exact f.pos (by omega)
  have hle := H.index_le hpos
  rw [CtzExact] at hbyte
  obtain ⟨⟨i, off⟩, hindex⟩ : ∃ at_, ctzIndex cfg.blockSize f.pos = at_ := ⟨_, rfl⟩
  rw [hindex] at hbyte hle
  rw [FileReader.findBlock]
  by_cases hfind : f.reading = false ∨ f.offset = cfg.blockSize
  · obtain ⟨cache', hcached, hagrees, haligned⟩ := H.stores.find H.reads hfuel H.exact Hs.agrees
      Hs.aligned hpos hbyte
    rw [if_pos hfind, hcached]
    exact ⟨_, _, rfl, ⟨rfl, rfl, hle, hbyte, hagrees, haligned⟩, rfl, ⟨rfl, rfl⟩⟩
  · obtain ⟨hreading, hoffset⟩ := not_or.mp hfind
    rw [Bool.not_eq_false] at hreading
    rw [if_neg hfind]
    cases Hs.placed hreading with
    | inBlock hi hat hblock =>
      obtain ⟨rfl, rfl⟩ := Prod.mk.inj (hindex.symm.trans hat)
      exact ⟨_, f, rfl, ⟨hreading, hblock, hi, hbyte, Hs.agrees, Hs.aligned⟩, rfl, ⟨rfl, rfl⟩⟩
    | atEnd hend => exact absurd hend hoffset
    | behind hout => omega

/-- The bytes of a block are those of the file. -/
theorem FileReader.Opened.chunk (H : f.Opened cfg rawread content addr bytes)
    (Hat : f.AtByte cfg content addr i) (hblock : f.offset + diff ≤ cfg.blockSize)
    (hsize : f.pos + diff ≤ f.size) :
    ByteImage.read (content (addr i)) f.offset diff = (bytes.drop f.pos).take diff := by
  have hlength := H.stores.size
  refine List.ext_getElem? fun k => ?_
  rw [ByteImage.getElem?_read, List.getElem?_take]
  split
  · have hbyte := H.stores.byte _ _ _ (holds_add Hat.holds (k := k) (by omega)) (by omega)
    rw [List.getElem?_drop, List.getElem?_eq_getElem (by omega), hbyte]
  · rfl

/-- The position moves on with the bytes that are read. -/
theorem FileReader.Opened.advance (H : f.Opened cfg rawread content addr bytes)
    (Hat : f.AtByte cfg content addr i) (hblock : f.offset + diff ≤ cfg.blockSize)
    (hsize : f.pos + diff ≤ f.size) (hpos : f.pos < f.size) (hagrees : cache.Agrees content)
    (haligned : cache.Aligned cfg) :
    Sound cfg content addr
      { f with cache, pos := f.pos + diff, offset := f.offset + diff } := by
  have hlength := H.stores.size
  have hoff : f.offset < cfg.blockSize :=
    Hat.holds.off_lt ((H.stores.list (by omega)).room i Hat.index_le)
  refine ⟨hagrees, haligned, fun _ => ?_⟩
  by_cases hend : f.offset + diff = cfg.blockSize
  · by_cases hmore : f.pos + diff < f.size
    · exact .atEnd hend hmore
    · -- the file ends with the block
      have hlast := H.exact (f.size - 1) (by omega)
      have hnext := H.exact f.size (by omega)
      have hstart : f.size = start 8 cfg.blockSize (i + 1) := by
        have hholds := holds_add Hat.holds (k := diff - 1) (by omega)
        have := hholds.succ_start (by omega)
        omega
      have hle : (ctzIndex cfg.blockSize (f.size - 1)).1 ≤ i := hlast.index_le (by omega)
      refine .behind (Nat.le_of_not_lt hmore) ?_
      change (ctzIndex cfg.blockSize (f.size - 1)).1 < (ctzIndex cfg.blockSize (f.pos + diff)).1
      rw [show f.pos + diff = f.size by omega]
      by_contra hge
      have hmono : start 8 cfg.blockSize ((ctzIndex cfg.blockSize f.size).1 + 1) ≤
          start 8 cfg.blockSize (i + 1) := start_mono (by omega)
      have hlt := hnext.lt
      omega
  · have hholds := holds_add Hat.holds (k := diff) (by omega)
    obtain ⟨hindex, hoffset⟩ := (H.exact (f.pos + diff) (by omega)).unique hholds
    exact .inBlock Hat.index_le (Prod.ext hindex hoffset) Hat.block

/-- **The loop of a read.** -/
theorem FileReader.Opened.flushedreadLoop (H : f.Opened cfg rawread content addr bytes)
    (Hs : f.Sound cfg content addr) (hfuel : 2 * cfg.blockSize < fuel) (hrounds : nsize < rounds)
    (hsize : f.pos + nsize ≤ f.size) :
    ∃ f', f.flushedreadLoop cfg rawread fuel rounds nsize =
        some (.ok ((bytes.drop f.pos).take nsize), f') ∧
      f'.Sound cfg content addr ∧ f'.pos = f.pos + nsize ∧ f.SameFile f' := by
  induction rounds generalizing nsize f with
  | zero => omega
  | succ rounds ih =>
    rw [FileReader.flushedreadLoop]
    by_cases hzero : nsize = 0
    · subst nsize
      rw [if_pos rfl, List.take_zero]
      exact ⟨f, rfl, Hs, rfl, rfl, rfl⟩
    · obtain ⟨i, f₁, hfind, Hat, hpos, hsame⟩ := H.findBlock Hs hfuel (by omega)
      have H₁ := H.of_same hsame
      have hsize₁ := hsame.size
      have hoff : f₁.offset < cfg.blockSize :=
        Hat.holds.off_lt ((H₁.stores.list (by omega)).room i Hat.index_le)
      obtain ⟨diff, hdiff⟩ : ∃ diff, min nsize (cfg.blockSize - f₁.offset) = diff := ⟨_, rfl⟩
      obtain ⟨cache', hread, hagrees, haligned⟩ := H₁.reads.cachedRead Hat.agrees Hat.aligned
        ((H₁.stores.list (by omega)).lt i Hat.index_le)
        (show f₁.offset + diff ≤ cfg.blockSize by omega)
        (show 0 < cfg.blockSize ∧ cfg.blockSize ≤ cfg.blockSize by omega) hfuel
      have hchunk := H₁.chunk Hat (show f₁.offset + diff ≤ cfg.blockSize by omega) (by omega)
      have Hs' := H₁.advance Hat (show f₁.offset + diff ≤ cfg.blockSize by omega) (by omega)
        (by omega) hagrees haligned
      obtain ⟨f', hloop, hsound, hpos', hsame'⟩ := ih
        (f := { f₁ with
          cache := cache', pos := f₁.pos + diff, offset := f₁.offset + diff })
        (H₁.of_same ⟨rfl, rfl⟩) Hs' (show nsize - diff < rounds by omega)
        (show f₁.pos + diff + (nsize - diff) ≤ f₁.size by omega)
      have hblock : f₁.block.getD blockNull = addr i := by rw [Hat.block, Option.getD_some]
      rw [if_neg hzero, hfind]
      dsimp only
      rw [if_neg (not_not.mpr rfl), hdiff, hblock, hread]
      dsimp only
      rw [hloop, hchunk]
      refine ⟨f', congrArg some (Prod.ext (congrArg Except.ok ?_) rfl), hsound, ?_,
        hsame'.head.trans hsame.head, hsame'.size.trans hsame.size⟩
      · dsimp only
        rw [hpos, ← List.drop_drop, ← List.take_add, Nat.add_sub_cancel' (by omega)]
      · rw [hpos']
        dsimp only
        omega

/-- **A read.** -/
theorem FileReader.Opened.read (H : f.Opened cfg rawread content addr bytes)
    (Hs : f.Sound cfg content addr) (hfuel : 2 * cfg.blockSize + f.size < fuel) (size : Nat) :
    ∃ f', f.rawread cfg rawread fuel size = some (.ok ((bytes.drop f.pos).take size), f') ∧
      f'.Sound cfg content addr ∧ f'.pos = f.pos + min size (bytes.length - f.pos) ∧
      f.SameFile f' := by
  have hlength := H.stores.size
  rw [FileReader.rawread]
  by_cases hpos : f.pos ≥ f.size
  · rw [if_pos hpos, List.drop_eq_nil_of_le (by omega), List.take_nil]
    exact ⟨f, rfl, Hs, by omega, rfl, rfl⟩
  · obtain ⟨f', hloop, hsound, hpos', hsame⟩ := H.flushedreadLoop Hs
      (show 2 * cfg.blockSize < fuel by omega) (show min size (f.size - f.pos) < fuel by omega)
      (by omega)
    rw [if_neg hpos, hloop]
    refine ⟨f', congrArg some (Prod.ext (congrArg Except.ok ?_) rfl), hsound, ?_, hsame⟩
    · rw [hlength, ← List.length_drop]
      exact (List.take_eq_take_min ..).symm
    · rw [hpos', hlength]

/-! ## Seeking -/

/-- A seek within the block of the position. -/
theorem FileReader.Opened.stay (H : f.Opened cfg rawread content addr bytes)
    (Hs : f.Sound cfg content addr) {npos off : Nat}
    (hindex : ctzIndex cfg.blockSize npos = (i, off))
    (hcached : (ctzIndex cfg.blockSize f.pos).1 = i)
    (hclear : f.reading = true → f.offset = cfg.blockSize → f.size ≤ f.pos) :
    Sound cfg content addr { f with pos := npos, offset := off } := by
  refine ⟨Hs.agrees, Hs.aligned, fun hreading => ?_⟩
  cases Hs.placed hreading with
  | inBlock hi hat hblock =>
    rw [hat] at hcached
    subst hcached
    exact .inBlock hi hindex hblock
  | atEnd hend hpos => exact absurd (hclear hreading hend) (Nat.not_le.mpr hpos)
  | behind hpos hout =>
    have hout' : (ctzIndex cfg.blockSize (f.size - 1)).1 < (ctzIndex cfg.blockSize npos).1 := by
      have hnext : (ctzIndex cfg.blockSize npos).1 = i := by rw [hindex]
      rw [hnext, ← hcached]
      exact hout
    refine .behind (Nat.le_of_not_lt fun hlt => ?_) hout'
    have H' : Opened cfg rawread content addr bytes { f with pos := npos } := H.of_same ⟨rfl, rfl⟩
    exact Nat.not_lt.mpr (H'.index_le hlt) hout'

theorem FileReader.Sound.flush (Hs : f.Sound cfg content addr) (npos : Nat) :
    Sound cfg content addr { f.flush with pos := npos } := by
  rw [FileReader.flush]
  split
  · exact {
      agrees := fun _ _ h => by cases h.1
      aligned := fun _ h => by cases h
      placed := fun h => by cases h }
  · rename_i hreading
    exact ⟨Hs.agrees, Hs.aligned, fun h => absurd h hreading⟩

theorem FileReader.flush_same (f : FileReader) (npos : Nat) :
    f.SameFile { f.flush with pos := npos } := by
  rw [FileReader.flush]
  split <;> exact ⟨rfl, rfl⟩

/-- A seek that does not slip. -/
theorem FileReader.Opened.seekTo {cfg : ReaderConfig}
    (H : f.Opened cfg.toReadConfig rawread content addr bytes)
    (Hs : f.Sound cfg.toReadConfig content addr) {npos : Nat} (hmax : npos ≤ cfg.fileMaxSize)
    (hclear : f.reading = true → f.offset = cfg.blockSize → f.pos < f.size → f.pos ≠ npos →
      ¬ f.StaysCached cfg.toReadConfig npos) :
    ∃ f', f.seekTo cfg npos = ((npos : Int), f') ∧ f'.Sound cfg.toReadConfig content addr ∧
      f'.pos = npos ∧ f.SameFile f' := by
  rw [FileReader.seekTo, if_neg (Nat.not_lt.mpr hmax)]
  by_cases hsame : f.pos = npos
  · rw [if_pos hsame]
    exact ⟨f, rfl, Hs, hsame, rfl, rfl⟩
  · rw [if_neg hsame]
    by_cases hcached : f.StaysCached cfg.toReadConfig npos
    · have hstay := hcached.1
      rw [if_pos hcached]
      obtain ⟨⟨i, off⟩, hindex⟩ : ∃ at_, ctzIndex cfg.blockSize npos = at_ := ⟨_, rfl⟩
      rw [hindex] at hstay ⊢
      refine ⟨_, rfl, H.stay Hs hindex hstay fun hreading hend => ?_, rfl, ⟨rfl, rfl⟩⟩
      exact Nat.le_of_not_lt fun hpos => hclear hreading hend hpos hsame hcached
    · rw [if_neg hcached]
      exact ⟨_, rfl, Hs.flush npos, rfl, f.flush_same npos⟩

theorem FileReader.rawseek_eq (cfg : ReaderConfig) (f : FileReader) (offset : Int)
    (whence : Whence) : f.rawseek cfg offset whence =
      if seekBase f.pos f.size whence + offset < 0 then (errInval, f)
      else f.seekTo cfg (seekBase f.pos f.size whence + offset).toNat := by
  cases whence with
  | set => rw [FileReader.rawseek, seekBase, Int.natCast_zero, Int.zero_add]
  | cur | fromEnd => rfl

/-! ## Runs -/

/-- A call does to the handle what it does to the bytes and the position. -/
theorem FileReader.Opened.call {cfg : ReaderConfig}
    (H : f.Opened cfg.toReadConfig rawread content addr bytes)
    (Hs : f.Sound cfg.toReadConfig content addr) (hfuel : 2 * cfg.blockSize + f.size < fuel)
    {c : ReaderCall} (hclear : ¬ f.Slips cfg c) :
    ∃ f', f.call cfg rawread fuel c =
        some ((contentCall bytes cfg.fileMaxSize c f.pos).1, f') ∧
      f'.Sound cfg.toReadConfig content addr ∧
      f'.pos = (contentCall bytes cfg.fileMaxSize c f.pos).2 ∧ f.SameFile f' := by
  have hlength := H.stores.size
  cases c with
  | read size =>
    obtain ⟨f', hread, hsound, hpos, hsame⟩ := H.read Hs hfuel size
    rw [FileReader.call, hread]
    exact ⟨f', rfl, hsound, hpos, hsame⟩
  | seek offset whence =>
    rw [FileReader.call, f.rawseek_eq, contentCall, hlength]
    obtain ⟨target, htarget⟩ : ∃ target : Int, seekBase f.pos bytes.length whence + offset =
      target := ⟨_, rfl⟩
    rw [htarget]
    by_cases hneg : target < 0
    · rw [if_pos hneg, if_pos (.inl hneg)]
      exact ⟨f, rfl, Hs, rfl, rfl, rfl⟩
    · obtain ⟨npos, rfl⟩ := Int.eq_ofNat_of_zero_le (Int.not_lt.mp hneg)
      rw [if_neg hneg, Int.toNat_natCast]
      by_cases hmax : cfg.fileMaxSize < npos
      · rw [FileReader.seekTo, if_pos hmax, if_pos (.inr (Int.ofNat_lt.mpr hmax))]
        exact ⟨f, rfl, Hs, rfl, rfl, rfl⟩
      · obtain ⟨f', hseek, hsound, hpos, hsame⟩ := H.seekTo Hs (Nat.le_of_not_lt hmax)
          fun hreading hend hlt hne hcached => hclear ⟨hreading, hend, hlt, npos,
            by rw [hlength, htarget], Nat.le_of_not_lt hmax, hne, hcached⟩
        rw [hseek, if_neg (by omega)]
        exact ⟨f', rfl, hsound, hpos, hsame⟩

/-- **Seeks and reads.** In a run none of whose seeks keeps the block at whose end a read has
stopped, the answers are those of a position in the bytes of the file. -/
theorem FileReader.run_eq {cfg : ReaderConfig} (calls : List ReaderCall)
    (H : f.Opened cfg.toReadConfig rawread content addr bytes)
    (Hs : f.Sound cfg.toReadConfig content addr) (hfuel : 2 * cfg.blockSize + f.size < fuel)
    (hclear : f.Clear cfg rawread fuel calls) :
    ∃ f', f.run cfg rawread fuel calls =
      some (contentRun bytes cfg.fileMaxSize calls f.pos, f') := by
  induction calls generalizing f with
  | nil => exact ⟨f, rfl⟩
  | cons c calls ih =>
    obtain ⟨hclear, hrest⟩ := hclear
    obtain ⟨f₁, hcall, hsound, hpos, hsame⟩ := H.call Hs hfuel hclear
    obtain ⟨f', hrun⟩ := ih (H.of_same hsame) hsound (by rw [hsame.size]; exact hfuel)
      (hrest _ _ hcall)
    rw [FileReader.run, hcall]
    dsimp only
    rw [hrun, hpos]
    exact ⟨f', rfl⟩

/-- **Seeks and reads.** From its opening on, until a seek keeps the block at whose end a read has
stopped, a handle answers like a position in the bytes of the file. -/
theorem openReader_answers {cfg : ReaderConfig} (calls : List ReaderCall)
    (H : f.Opened cfg.toReadConfig rawread content addr bytes) (hreading : f.reading = false)
    (hcache : f.cache.block = none) (hfuel : 2 * cfg.blockSize + f.size < fuel)
    (hclear : f.Clear cfg rawread fuel calls) :
    ∃ f', f.run cfg rawread fuel calls =
      some (contentRun bytes cfg.fileMaxSize calls f.pos, f') := by
  refine FileReader.run_eq calls H ⟨fun _ _ h => ?_, fun _ h => ?_, fun h => ?_⟩ hfuel hclear
  · cases hcache.symm.trans h.1
  · cases hcache.symm.trans h
  · cases hreading.symm.trans h

/-! ## Two blocks -/

def twoBlocksConfig : ReaderConfig := ⟨⟨⟨⟨256, 2, 16, 0⟩, 64⟩, 16⟩, fileMax⟩

/-- Block 1 starts with its pointer to block 0. -/
def twoBlocks (block i : Nat) : UInt8 :=
  if block = 0 then UInt8.ofNat i else if i < 8 then 0 else UInt8.ofNat (256 + (i - 8))

def twoBlocksRead (block off size : Nat) : Except (Int × List UInt8) (List UInt8) :=
  .ok (ByteImage.read (twoBlocks block) off size)

def twoBlocksReader : FileReader := { head := 1, size := 500 }

def twoBlocksBytes : List UInt8 := (List.range 500).map UInt8.ofNat

theorem twoBlocks_opened :
    twoBlocksReader.Opened twoBlocksConfig.toReadConfig twoBlocksRead twoBlocks id
      twoBlocksBytes := by
  have hindex : (ctzIndex twoBlocksConfig.blockSize (500 - 1)).1 = 1 := by decide +kernel
  have hroom : Room 8 256 1 := Room.of_lt (show 1 < 2 ^ 1 by decide) (by decide)
  have hlength : twoBlocksBytes.length = 500 := by
    rw [twoBlocksBytes, List.length_map, List.length_range]
  have hzero : start 8 twoBlocksConfig.blockSize 0 = 0 := rfl
  have hfirst : start 8 twoBlocksConfig.blockSize 1 = 256 := by decide +kernel
  have hsecond : start 8 twoBlocksConfig.blockSize (1 + 1) = 504 := by decide +kernel
  have hpointer : 8 * pointers 1 = 8 := by decide +kernel
  refine ⟨⟨⟨by decide, by decide, by decide, by decide⟩, fun _ _ _ _ _ _ => ⟨_, rfl⟩,
    fun _ _ _ _ h => (Except.ok.inj h).symm, by decide⟩, ⟨hlength.symm, fun _ => hindex.symm,
    fun _ => ?_, fun pos i off hholds hpos => ?_⟩, fun pos hpos => ?_⟩
  · rw [show twoBlocksReader.size - 1 = 500 - 1 from rfl, hindex]
    refine ⟨by decide, fun i hi => Nat.lt_succ_of_le hi, fun _ _ => rfl, hroom,
      fun i hi hne j hj => ?_⟩
    obtain rfl : i = 1 := by omega
    obtain rfl : j = 0 := Nat.le_zero.mp (hj.trans (show zeros 1 ≤ 0 by decide +kernel))
    decide +kernel
  · have hbyte : twoBlocksBytes[pos] = UInt8.ofNat pos := by
      simp only [twoBlocksBytes, List.getElem_map, List.getElem_range]
    have hle := hholds.index_le (n := 1) (by omega)
    have hlo := hholds.le
    have hhi := hholds.lt
    have hoff := hholds.off_eq
    rw [hbyte]
    obtain rfl | rfl : i = 0 ∨ i = 1 := by omega
    · rw [hzero, show 8 * pointers 0 = 0 from rfl] at hoff
      obtain rfl : off = pos := by omega
      exact if_pos rfl
    · rw [hpointer] at hoff
      obtain rfl : pos = 256 + (off - 8) := by omega
      exact (if_neg (by decide)).trans (if_neg (by omega))
  · refine ctzExact_of_lt (by decide) hroom (fun i hi => ?_) (by decide) (by omega) (by omega)
    have := ones_le_of_lt (show i < 2 ^ 1 by omega)
    change _ ≤ 256
    omega

def backwardsCalls : List ReaderCall := [.read 10, .seek 5 .set, .read 3, .seek 440 .set, .read 100]

/-- The first seek stays in the cache, the second one does not. -/
theorem openReader_answers_twoBlocks :
    (twoBlocksReader.call twoBlocksConfig twoBlocksRead 1013 (.read 10)).map
        (fun r => decide (r.2.reading = true ∧ r.2.StaysCached twoBlocksConfig.toReadConfig 5)) =
      some true ∧
    ∃ f', twoBlocksReader.run twoBlocksConfig twoBlocksRead 1013 backwardsCalls =
      some (contentRun twoBlocksBytes twoBlocksConfig.fileMaxSize backwardsCalls
        twoBlocksReader.pos, f') := by
  have hread : (twoBlocksReader.run twoBlocksConfig twoBlocksRead 1013 [.read 10]).map
      (·.2.offset) = some 10 := by decide +kernel
  have hback : (twoBlocksReader.run twoBlocksConfig twoBlocksRead 1013
      [.read 10, .seek 5 .set, .read 3]).map (·.2.offset) = some 8 := by decide +kernel
  refine ⟨by decide +kernel, openReader_answers backwardsCalls twoBlocks_opened rfl rfl (by decide)
    ⟨id, fun a₁ f₁ h₁ => ⟨fun hslips => ?_, fun a₂ f₂ h₂ => ⟨id, fun a₃ f₃ h₃ =>
      ⟨fun hslips => ?_, fun _ _ _ => ⟨id, fun _ _ _ => trivial⟩⟩⟩⟩⟩⟩
  · simp only [FileReader.run, h₁, Option.map_some, Option.some.injEq] at hread
    cases hread.symm.trans hslips.2.1
  · simp only [FileReader.run, h₁, h₂, h₃, Option.map_some, Option.some.injEq] at hback
    cases hback.symm.trans hslips.2.1

/-- Up to the end of the first block, and from there on into the second one. -/
def twoBlocksCalls : List ReaderCall := [.read 255, .read 1, .seek 440 .set, .read 1]

/-- The byte is taken from the first block. -/
theorem twoBlocks_slips : ¬ ∀ (cfg : ReaderConfig) rawread content addr bytes fuel calls
    (f : FileReader), f.Opened cfg.toReadConfig rawread content addr bytes → f.reading = false →
    f.cache.block = none → 2 * cfg.blockSize + f.size < fuel →
    ∃ f', f.run cfg rawread fuel calls =
      some (contentRun bytes cfg.fileMaxSize calls f.pos, f') := by
  intro h
  obtain ⟨f', hrun⟩ := h twoBlocksConfig twoBlocksRead twoBlocks id twoBlocksBytes 1013
    twoBlocksCalls twoBlocksReader twoBlocks_opened rfl rfl (by decide)
  have hanswers : (twoBlocksReader.run twoBlocksConfig twoBlocksRead 1013 twoBlocksCalls).map
      (·.1) ≠ some (contentRun twoBlocksBytes twoBlocksConfig.fileMaxSize twoBlocksCalls
        twoBlocksReader.pos) := by decide +kernel
  rw [hrun] at hanswers
  exact hanswers rfl

end LittleFs
