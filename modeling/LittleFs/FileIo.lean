import LittleFs.FileRead
import LittleFs.Lib.StateLogic

/-! The write path of a file, from `lfs_file_rawwrite`, `lfs_file_rawseek`, `lfs_file_rawtruncate`
and `lfs_file_flush` down to the caches and the requests to the device.

What a request does to a block and returns, what `lfs_alloc` returns and what an inline file holds
in its directory are given by functions; a program of the device may fail and leave anything in
its block. -/

namespace LittleFs

open StateLogic
open FileHandle (Whence)

/-- `lfs_cache_drop`. -/
def WriteCache.drop (c : WriteCache) : WriteCache := { c with block := none }

/-- `lfs_cache_zero`. -/
def WriteCache.zero (c : WriteCache) : WriteCache :=
  { c with block := none, offset := 0, size := 0 }

/-- `lfs_bd_write` puts bytes that fit into the window. -/
def WriteCache.put (c : WriteCache) (offset : Nat) (bytes : List UInt8) : WriteCache :=
  { c with
    buffer := ByteImage.write c.buffer (offset - c.offset) bytes
    size := max c.size (offset + bytes.length - c.offset) }

/-- `lfs_bd_write` opens a window. -/
def WriteCache.opened (cfg : CacheConfig) (c : WriteCache) (block offset : Nat) : WriteCache :=
  { c with block := some block, offset := offset / cfg.writeSize * cfg.writeSize, size := 0 }

namespace FileIo

/-! ## The state -/

/-- `LFS_BLOCK_INLINE`. -/
def blockInline : Nat := 2 ^ 64 - 2

/-- The sizes of `lfs_t` and of its configuration; `fuel` bounds each loop. -/
structure Config extends ReaderConfig where
  /-- `lfs->cfg->block_size`. -/
  cfgBlockSize : Nat
  fuel : Nat

/-- The bound on inline files. `lfs_file_flushedwrite` divides the block size by 16,
`lfs_file_rawtruncate` divides the configured one by 8. -/
def Config.inlineMax (cfg : Config) (blockSize divisor : Nat) : Nat :=
  min 0x3fe (min cfg.cacheSize
    ((if cfg.metadataMax ≠ 0 then cfg.metadataMax else blockSize) / divisor))

/-- `lfs_file_t`. -/
structure File where
  /-- `ctz.head`. -/
  head : Nat
  /-- `ctz.size`. -/
  size : Nat
  pos : Nat := 0
  offset : Nat := 0
  block : Nat := blockNull
  cache : WriteCache := {}
  reading : Bool := false
  writing : Bool := false
  isInline : Bool := false
  dirty : Bool := false
  erred : Bool := false
  append : Bool := false

/-- A call of `lfs_alloc`, or a request to the device. -/
inductive Event where
  | allocated (file : File) (disk : Nat → ByteImage.Image)
  | erased (block : Nat)
  | programmed (block offset : Nat) (bytes : List UInt8)

structure State where
  file : File
  /-- `lfs->read_cache`. -/
  readCache : WriteCache := {}
  /-- `lfs->write_cache`. -/
  writeCache : WriteCache := {}
  disk : Nat → ByteImage.Image
  /-- The requests that were made. -/
  clock : Nat := 0
  /-- Newest first. -/
  events : List Event := []

/-- What is answered to the requests, which are told apart by the clock. -/
structure World where
  /-- The error of a read, with the bytes that it leaves in the buffer. -/
  readFails : (clock block offset size : Nat) → Option (DeviceError × List UInt8)
  program : (clock block offset : Nat) → List UInt8 → ByteImage.Image →
    Option DeviceError × ByteImage.Image
  erase : (clock block : Nat) → ByteImage.Image → Option DeviceError × ByteImage.Image
  /-- `lfs_alloc`, and what it leaves in `lfs->read_cache`. -/
  alloc : (clock : Nat) → State → Except DeviceError Nat × WriteCache
  /-- `lfs_dir_getslice` of the struct of an inline file. -/
  slice : (clock offset size : Nat) → Except (DeviceError × List UInt8) (List UInt8)

/-- The result of a request that fails with the error or succeeds. -/
def resultOf : Option DeviceError → Int
  | none => errOk
  | some e => e.code

/-- The caches that are written through: that of the file and `lfs->write_cache`. -/
inductive Slot where
  | file
  | shared

def State.cache (s : State) : Slot → WriteCache
  | .file => s.file.cache
  | .shared => s.writeCache

def State.setFile (s : State) (f : File) : State := { s with file := f }

def State.modFile (s : State) (g : File → File) : State := s.setFile (g s.file)

def State.setCache (s : State) (cache : WriteCache) : Slot → State
  | .file => s.setFile { s.file with cache }
  | .shared => { s with writeCache := cache }

def State.setRead (s : State) (cache : WriteCache) : State := { s with readCache := cache }

/-- The time goes on. -/
def State.tick (s : State) : State := { s with clock := s.clock + 1 }

abbrev FileM := Prog State

/-- The step where the condition holds, else nothing. -/
def doIf (c : Prop) [Decidable c] (m : FileM Int) : FileM Int := if c then m else return errOk

/-! ## The device -/

variable (cfg : Config) (w : World)

/-- `lfs_bd_rawread`. -/
def rawread (s : State) : RawRead := fun block offset size =>
  match w.readFails s.clock block offset size with
  | some (e, bytes) => .error (e.code, bytes)
  | none => .ok (ByteImage.read (s.disk block) offset size)

/-- `lfs_bd_read` through a read cache. -/
def bdRead (written : Option WriteCache) (hint block offset size : Nat) (cache : WriteCache) :
    FileM (Except Int (List UInt8) × WriteCache) := fun s =>
  (cachedRead cfg.toReadConfig (rawread w s) written hint block cfg.fuel offset size cache, s.tick)

/-- `lfs_bd_read` through `lfs->read_cache`. -/
def sharedRead (written : Option WriteCache) (hint block offset size : Nat) :
    FileM (Except Int (List UInt8)) := do
  let s ← Prog.get
  let (res, cache) ← bdRead cfg w written hint block offset size s.readCache
  Prog.modify (·.setRead cache)
  return res

/-- `lfs_bd_cmp` with what is on the disk, through `lfs->read_cache`: whether the bytes are
equal. -/
def bdCmp (block : Nat) : (fuel offset : Nat) → List UInt8 → FileM (Except Int Bool)
  | 0, _, _ => Prog.stop
  | fuel + 1, offset, bytes =>
    if bytes = [] then return .ok true
    else do
      let diff := min bytes.length 256
      match ← sharedRead cfg w none bytes.length block offset diff with
      | .error err => return .error err
      | .ok dat =>
        if dat ≠ bytes.take diff then return .ok false
        else bdCmp block fuel (offset + diff) (bytes.drop diff)

/-- `lfs_bd_rawprog`. -/
def bdRawprog (block offset : Nat) (bytes : List UInt8) : FileM Int := fun s =>
  let (err, image) := w.program s.clock block offset bytes (s.disk block)
  (some (resultOf err), { s.tick with
    disk := Function.update s.disk block image
    events := .programmed block offset bytes :: s.events })

/-- `lfs_bd_erase`. -/
def bdErase (block : Nat) : FileM Int := fun s =>
  let (err, image) := w.erase s.clock block (s.disk block)
  (some (resultOf err), { s.tick with
    disk := Function.update s.disk block image
    events := .erased block :: s.events })

/-- `lfs_alloc`. -/
def alloc : FileM (Except DeviceError Nat) := fun s =>
  let (res, cache) := w.alloc s.clock s
  (some res, { s.tick.setRead cache with events := .allocated s.file s.disk :: s.events })

/-- `lfs_bd_flush`, which validates. -/
def bdFlush (slot : Slot) : FileM Int := do
  let s ← Prog.get
  let c := s.cache slot
  match c.block with
  | none => return errOk
  | some block =>
    if block = blockInline then return errOk
    else do
      let bytes := ByteImage.read c.buffer 0 (alignup c.size cfg.writeSize)
      let err ← bdRawprog w block c.offset bytes
      if err ≠ errOk then return err
      else do
        -- check data on disk
        Prog.modify fun s => s.setRead s.readCache.drop
        match ← bdCmp cfg w block cfg.fuel c.offset bytes with
        | .error err => return err
        | .ok false => return errCorrupt
        | .ok true =>
          Prog.modify fun s => s.setCache (s.cache slot).zero slot
          return errOk

/-- The loop of `lfs_bd_write`, behind whose assertion a new window is opened as without it. -/
def bdWriteLoop (slot : Slot) (block : Nat) : (fuel offset : Nat) → List UInt8 → FileM Int
  | 0, _, _ => Prog.stop
  | fuel + 1, offset, bytes => do
    let s ← Prog.get
    let c := s.cache slot
    if bytes = [] then return errOk
    else if c.block = some block ∧ c.offset ≤ offset ∧ offset < c.offset + cfg.cacheSize then do
      -- already fits in write_cache?
      let diff := min bytes.length (cfg.cacheSize - (offset - c.offset))
      let c := c.put offset (bytes.take diff)
      Prog.modify (·.setCache c slot)
      if c.size = cfg.cacheSize then do
        -- eagerly flush out write_cache if we fill up
        let err ← bdFlush cfg w slot
        if err ≠ errOk then return err
        else bdWriteLoop slot block fuel (offset + diff) (bytes.drop diff)
      else bdWriteLoop slot block fuel (offset + diff) (bytes.drop diff)
    else do
      Prog.modify (·.setCache (c.opened cfg.toCacheConfig block offset) slot)
      bdWriteLoop slot block fuel offset bytes

/-- `lfs_bd_write`. -/
def bdWrite (slot : Slot) (block offset : Nat) (bytes : List UInt8) : FileM Int :=
  bdWriteLoop cfg w slot block cfg.fuel offset bytes

/-! ## The skip list -/

/-- The loop of `lfs_ctz_find`. -/
def findLoop (target current head : Nat) (cache : WriteCache) :
    FileM (Except Int Nat × WriteCache) :=
  if target < current then do
    let skip := min (npw2_64 (current - target + 1) - 1) (ctz64 current)
    match ← bdRead cfg w none 8 head (8 * skip) 8 cache with
    | (.error err, cache) => return (.error err, cache)
    | (.ok bytes, cache) => findLoop target (current - 2 ^ skip) (fromLe bytes) cache
  else return (.ok head, cache)
termination_by current
decreasing_by exact Nat.sub_lt (by omega) (Nat.two_pow_pos _)

/-- `lfs_ctz_find` through the cache of a file. -/
def ctzFind (head size pos : Nat) (cache : WriteCache) :
    FileM (Except Int (Nat × Nat) × WriteCache) :=
  if size = 0 then return (.ok (blockNull, 0), cache)
  else do
    let target := ctzIndex cfg.blockSize pos
    match ← findLoop cfg w target.1 (ctzIndex cfg.blockSize (size - 1)).1 head cache with
    | (.error err, cache) => return (.error err, cache)
    | (.ok block, cache) => return (.ok (block, target.2), cache)

/-- How the attempt to fill one block ends. -/
inductive Attempt (α : Type) where
  | done (a : α)
  | failed (err : Int)
  | relocate

/-- What a failed program of the new block leads to. -/
def Attempt.ofWrite (err : Int) : Attempt α :=
  if err = errCorrupt then .relocate else .failed err

/-- The loop of `lfs_ctz_extend` that copies out an incomplete last block; `n` is what is left. -/
def extendCopy (head nblock noff : Nat) : (n idx : Nat) → FileM (Attempt (Nat × Nat))
  | 0, _ => return .done (nblock, noff)
  | n + 1, idx => do
    match ← sharedRead cfg w none (n + 1) head idx 1 with
    | .error err => return .failed err
    | .ok data =>
      let err ← bdWrite cfg w .file nblock idx data
      if err ≠ errOk then return .ofWrite err
      else extendCopy head nblock noff n (idx + 1)

/-- The loop that gathers the pointers of the new block; `n` is what is left of the `skips`. -/
def extendPointers (nblock skips : Nat) : (n idx nhead : Nat) → FileM (Attempt (Nat × Nat))
  | 0, _, _ => return .done (nblock, 8 * skips)
  | n + 1, idx, nhead => do
    let err ← bdWrite cfg w .file nblock (8 * idx) (toLe 8 nhead)
    if err ≠ errOk then return .ofWrite err
    else if idx ≠ skips - 1 then do
      match ← sharedRead cfg w none 8 nhead (8 * idx) 8 with
      | .error err => return .failed err
      | .ok bytes => extendPointers nblock skips n (idx + 1) (fromLe bytes)
    else extendPointers nblock skips n (idx + 1) nhead

/-- `lfs_ctz_extend` with the block that `lfs_alloc` returned. -/
def extendTo (head size nblock : Nat) : FileM (Attempt (Nat × Nat)) := do
  let err ← bdErase w nblock
  if err ≠ errOk then return .ofWrite err
  else if size = 0 then return .done (nblock, 0)
  else
    let last := ctzIndex cfg.blockSize (size - 1)
    let noff := last.2 + 1
    -- just copy out the last block if it is incomplete
    if noff ≠ cfg.blockSize then extendCopy cfg w head nblock noff noff 0
    else
      -- append block
      let skips := ctz64 ((last.1 + 1) % 2 ^ 64) + 1
      extendPointers cfg w nblock skips skips 0 head

/-- `lfs_ctz_extend` through the cache of the file. -/
def ctzExtend (head size : Nat) : (fuel : Nat) → FileM (Except Int (Nat × Nat))
  | 0 => Prog.stop
  | fuel + 1 => do
    match ← alloc w with
    | .error err => return .error err.code
    | .ok nblock =>
      match ← extendTo cfg w head size nblock with
      | .done res => return .ok res
      | .failed err => return .error err
      | .relocate =>
        -- just clear cache and try a new block
        Prog.modify (·.modFile fun f => { f with cache := f.cache.drop })
        ctzExtend head size fuel

/-! ## Inline files -/

/-- The window that `lfs_dir_getread` loads. -/
def inlineWindow (hint offset : Nat) (r : WriteCache) : WriteCache :=
  { r with
    block := some blockInline
    offset := offset - offset % cfg.readSize
    size := min (alignup64 ((offset + hint) % 2 ^ 64) cfg.readSize) cfg.cacheSize }

/-- The loop of `lfs_dir_getread` without a write cache; `none` when the fuel does not last. -/
def getreadLoop (slice : (offset size : Nat) → Except (DeviceError × List UInt8) (List UInt8))
    (hint : Nat) : (fuel offset size : Nat) → WriteCache →
      Option (Except Int (List UInt8) × WriteCache)
  | 0, _, _, _ => none
  | fuel + 1, offset, size, r =>
    if size = 0 then some (.ok [], r)
    else match r.lookup blockInline offset size with
      | .hit bytes =>
        (getreadLoop slice hint fuel (offset + bytes.length) (size - bytes.length) r).map
          fun (rest, r) => (rest.map (bytes ++ ·), r)
      | .miss _ =>
        -- load to cache, first condition can no longer fail
        let r := inlineWindow cfg hint offset r
        match slice r.offset r.size with
        | .error (err, bytes) => some (.error err.code, r.fill bytes)
        | .ok bytes => getreadLoop slice hint fuel offset size (r.fill bytes)

/-- `lfs_dir_getread` through the cache of a file. -/
def dirGetread (hint offset size : Nat) (cache : WriteCache) :
    FileM (Except Int (List UInt8) × WriteCache) := fun s =>
  (if offset + size > cfg.blockSize then some (.error errCorrupt, cache)
    else getreadLoop cfg (w.slice s.clock) hint cfg.fuel offset size cache, s.tick)

/-! ## Relocation -/

/-- The byte that is copied, either from the dirty cache or from the disk. -/
def relocateRead (hint i : Nat) : FileM (Except Int (List UInt8)) := do
  let s ← Prog.get
  if s.file.isInline then do
    -- note we evict inline files before they can be dirty
    let (res, cache) ← dirGetread cfg w hint i 1 s.file.cache
    Prog.modify (·.setCache cache .file)
    return res
  else sharedRead cfg w (some s.file.cache) hint s.file.block i 1

/-- The loop of `lfs_file_relocate` over the bytes; `n` is what is left of the offset. -/
def relocateCopy (nblock : Nat) : (n i : Nat) → FileM (Attempt Unit)
  | 0, _ => return .done ()
  | n + 1, i => do
    match ← relocateRead cfg w (n + 1) i with
    | .error err => return .failed err
    | .ok data =>
      let err ← bdWrite cfg w .shared nblock i data
      if err ≠ errOk then return .ofWrite err
      else relocateCopy nblock n (i + 1)

/-- `lfs_file_relocate` with the block that `lfs_alloc` returned. -/
def relocateTo (nblock : Nat) : FileM (Attempt Unit) := do
  let err ← bdErase w nblock
  if err ≠ errOk then return .ofWrite err
  else do
    let s ← Prog.get
    relocateCopy cfg w nblock s.file.offset 0

/-- The new state of the file once it is copied over. -/
def State.relocated (s : State) (nblock : Nat) : State :=
  { s with
    file := { s.file with cache := s.writeCache, block := nblock, writing := true }
    writeCache := s.writeCache.zero }

/-- `lfs_file_relocate`. -/
def relocate : (fuel : Nat) → FileM Int
  | 0 => Prog.stop
  | fuel + 1 => do
    match ← alloc w with
    | .error err => return err.code
    | .ok nblock =>
      match ← relocateTo cfg w nblock with
      | .done _ =>
        Prog.modify (·.relocated nblock)
        return errOk
      | .failed err => return err
      | .relocate =>
        -- just clear cache and try a new block
        Prog.modify fun s => { s with writeCache := s.writeCache.drop }
        relocate fuel

/-- `lfs_file_outline`. -/
def outline : FileM Int := do
  Prog.modify (·.modFile fun f => { f with offset := f.pos })
  let err ← relocate cfg w cfg.fuel
  if err ≠ errOk then return err
  else do
    Prog.modify (·.modFile fun f => { f with isInline := false })
    return errOk

/-! ## Reading -/

/-- The check for a new block at the head of the loop of `lfs_file_flushedread`. -/
def findBlock (f : File) : FileM (Int × File) :=
  if f.reading = false ∨ f.offset = cfg.blockSize then
    if f.isInline then
      return (errOk, { f with block := blockInline, offset := f.pos, reading := true })
    else do
      match ← ctzFind cfg w f.head f.size f.pos f.cache with
      | (.error err, cache) => return (err, { f with cache })
      | (.ok (block, offset), cache) =>
        return (errOk, { f with block, offset, cache, reading := true })
  else return (errOk, f)

/-- The read of `diff` bytes from the block of a file. -/
def readBlock (f : File) (diff : Nat) : FileM (Except Int (List UInt8) × WriteCache) :=
  if f.isInline then dirGetread cfg w cfg.blockSize f.offset diff f.cache
  else bdRead cfg w none cfg.blockSize f.block f.offset diff f.cache

/-- The loop of `lfs_file_flushedread`, for `nsize` bytes that are left. -/
def flushedreadLoop : (fuel nsize : Nat) → File → FileM (Except Int (List UInt8) × File)
  | 0, _, _ => Prog.stop
  | fuel + 1, nsize, f =>
    if nsize = 0 then return (.ok [], f)
    else do
      let (err, f) ← findBlock cfg w f
      if err ≠ errOk then return (.error err, f)
      else do
        -- read as much as we can in current block
        let diff := min nsize (cfg.blockSize - f.offset)
        match ← readBlock cfg w f diff with
        | (.error err, cache) => return (.error err, { f with cache })
        | (.ok bytes, cache) =>
          let (rest, f) ← flushedreadLoop fuel (nsize - diff)
            { f with cache, pos := f.pos + diff, offset := f.offset + diff }
          return (rest.map (bytes ++ ·), f)

/-- `lfs_file_flushedread`. The bytes that it returns are as many as its result says. -/
def flushedread (size : Nat) (f : File) : FileM (Except Int (List UInt8) × File) :=
  -- eof if past end
  if f.pos ≥ f.size then return (.ok [], f)
  else flushedreadLoop cfg w cfg.fuel (min size (f.size - f.pos)) f

/-! ## Writing -/

/-- `LFS_F_ERRED` is set with the error. -/
def erred (err : Int) : FileM Int := do
  Prog.modify (·.modFile fun f => { f with erred := true })
  return err

/-- Finds out which block of the list is extended. -/
def findLast : FileM Int := do
  let s ← Prog.get
  let (res, cache) ← ctzFind cfg w s.file.head s.file.size (s.file.pos - 1) s.file.cache
  Prog.modify (·.setCache cache .file)
  match res with
  | .error err => return err
  | .ok (block, _) =>
    -- mark cache as dirty since we may have read data into it
    Prog.modify (·.modFile fun f => { f with block, cache := f.cache.zero })
    return errOk

/-- Extends the file with a new block. -/
def extendFile : FileM Int := do
  let s ← Prog.get
  match ← ctzExtend cfg w s.file.block s.file.pos cfg.fuel with
  | .error err => return err
  | .ok (block, offset) =>
    Prog.modify (·.modFile fun f => { f with block, offset })
    return errOk

/-- The new block of `lfs_file_flushedwrite`. -/
def newBlock : FileM Int := do
  let s ← Prog.get
  if s.file.isInline then do
    Prog.modify (·.modFile fun f => { f with block := blockInline, offset := f.pos })
    return errOk
  else do
    let err ← doIf (s.file.writing = false ∧ 0 < s.file.pos) (findLast cfg w)
    if err ≠ errOk then return err
    else extendFile cfg w

/-- The check for a new block at the head of the loop of `lfs_file_flushedwrite`. -/
def startBlock : FileM Int := do
  let s ← Prog.get
  if s.file.writing = false ∨ s.file.offset = cfg.blockSize then do
    let err ← newBlock cfg w
    if err ≠ errOk then return err
    else do
      Prog.modify (·.modFile fun f => { f with writing := true })
      return errOk
  else return errOk

/-- Programs the bytes into the current block, or into the one that replaces it. -/
def writeOut (bytes : List UInt8) : (fuel : Nat) → FileM Int
  | 0 => Prog.stop
  | fuel + 1 => do
    let s ← Prog.get
    let err ← bdWrite cfg w .file s.file.block s.file.offset bytes
    if err = errCorrupt then do
      let err ← relocate cfg w cfg.fuel
      if err ≠ errOk then return err
      else writeOut bytes fuel
    else return err

/-- The loop of `lfs_file_flushedwrite`. -/
def flushedwriteLoop : (fuel : Nat) → List UInt8 → FileM Int
  | 0, _ => Prog.stop
  | fuel + 1, bytes =>
    if bytes = [] then return errOk
    else do
      let err ← startBlock cfg w
      if err ≠ errOk then erred err
      else do
        -- program as much as we can in current block
        let s ← Prog.get
        let diff := min bytes.length (cfg.blockSize - s.file.offset)
        let err ← writeOut cfg w (bytes.take diff) cfg.fuel
        if err ≠ errOk then erred err
        else do
          Prog.modify (·.modFile fun f => { f with pos := f.pos + diff, offset := f.offset + diff })
          flushedwriteLoop fuel (bytes.drop diff)

/-- `lfs_file_flushedwrite`. -/
def flushedwrite (bytes : List UInt8) : FileM Int := do
  let s ← Prog.get
  -- inline file doesn't fit anymore
  let err ← doIf (s.file.isInline ∧ max (s.file.pos + bytes.length) s.file.size >
    cfg.inlineMax cfg.blockSize 16) (outline cfg w)
  if err ≠ errOk then erred err
  else do
    let err ← flushedwriteLoop cfg w cfg.fuel bytes
    if err ≠ errOk then return err
    else return bytes.length

/-! ## Flushing -/

/-- `orig` reads through the buffer of `lfs->read_cache`. -/
def readOrig (orig : File) : FileM (Except Int (List UInt8) × File) := do
  let s ← Prog.get
  let (res, orig) ← flushedread cfg w 1
    { orig with cache := { orig.cache with buffer := s.readCache.buffer } }
  Prog.modify fun s => s.setRead { s.readCache with buffer := orig.cache.buffer }
  return (res, orig)

/-- The loop of `lfs_file_flush` that copies over what is after the current branch. -/
def flushCopy : (fuel : Nat) → (orig : File) → FileM Int
  | 0, _ => Prog.stop
  | fuel + 1, orig => do
    let s ← Prog.get
    if s.file.pos < s.file.size then do
      match ← readOrig cfg w orig with
      | (.error err, _) => return err
      | (.ok data, orig) =>
        let res ← flushedwrite cfg w data
        if res < 0 then return res
        else do
          let s ← Prog.get
          -- keep our reference to the read_cache in sync
          if s.readCache.block ≠ none then do
            Prog.modify (·.setRead s.readCache.drop)
            flushCopy fuel { orig with cache := orig.cache.drop }
          else flushCopy fuel orig
    else return errOk

/-- The loop of `lfs_file_flush` that writes out what is in the cache. -/
def flushOut : (fuel : Nat) → FileM Int
  | 0 => Prog.stop
  | fuel + 1 => do
    let err ← bdFlush cfg w .file
    if err = errCorrupt then do
      let err ← relocate cfg w cfg.fuel
      if err ≠ errOk then return err
      else flushOut fuel
    else return err

/-- What `lfs_file_flush` writes when the file is not inline. -/
def flushBlocks : FileM Int := do
  let s ← Prog.get
  let orig : File :=
    { head := s.file.head, size := s.file.size, pos := s.file.pos, cache := s.readCache }
  Prog.modify (·.setRead s.readCache.drop)
  let err ← flushCopy cfg w cfg.fuel orig
  if err < 0 then return err
  else flushOut cfg w cfg.fuel

/-- The writes of `lfs_file_flush`. -/
def flushWrites : FileM Int := do
  let s ← Prog.get
  if s.file.isInline then do
    Prog.modify (·.modFile fun f => { f with pos := max f.pos f.size })
    return errOk
  else flushBlocks cfg w

/-- Any reads are dropped. -/
def File.dropReads (f : File) : File :=
  if f.reading then
    { f with cache := if f.isInline then f.cache else f.cache.drop, reading := false }
  else f

/-- `lfs_file_flush`. -/
def flush : FileM Int := do
  Prog.modify (·.modFile File.dropReads)
  let s ← Prog.get
  if s.file.writing then do
    let err ← flushWrites cfg w
    if err ≠ errOk then return err
    else do
      -- actual file updates
      Prog.modify (·.modFile fun f =>
        { f with
          head := f.block, size := f.pos, writing := false, dirty := true, pos := s.file.pos })
      return errOk
  else return errOk

/-! ## The calls -/

/-- `lfs_file_rawsize`. -/
def File.rawsize (f : File) : Nat := if f.writing then max f.pos f.size else f.size

/-- The new position is in the block of the old one, and in the window of the cache. -/
def File.StaysCached (f : File) (npos : Nat) : Prop :=
  (ctzIndex cfg.blockSize f.pos).1 = (ctzIndex cfg.blockSize npos).1 ∧
    f.cache.offset ≤ (ctzIndex cfg.blockSize npos).2 ∧
    (ctzIndex cfg.blockSize npos).2 < f.cache.offset + f.cache.size

instance (f : File) (npos : Nat) : Decidable (f.StaysCached cfg npos) :=
  inferInstanceAs (Decidable (_ ∧ _))

/-- `lfs_file_rawseek` once the new position is known. -/
def seekTo (npos : Nat) : FileM Int := do
  let s ← Prog.get
  if npos > cfg.fileMaxSize then return errInval
  else if s.file.pos = npos then return npos
  else if s.file.writing = false ∧ s.file.StaysCached cfg npos then do
    -- we can avoid flushing and needing to reread the data
    Prog.modify (·.modFile fun f =>
      { f with pos := npos, offset := (ctzIndex cfg.blockSize npos).2 })
    return npos
  else do
    let err ← flush cfg w
    if err ≠ errOk then return err
    else do
      Prog.modify (·.modFile fun f => { f with pos := npos })
      return npos

/-- What an offset counts from. -/
def File.seekBase (f : File) : Whence → Nat
  | .set => 0
  | .cur => f.pos
  | .fromEnd => f.rawsize

/-- `lfs_file_rawseek`. A negative position of `LFS_SEEK_SET` is past every `file_max_size`. -/
def rawseek (offset : Int) (whence : Whence) : FileM Int := do
  let s ← Prog.get
  if s.file.seekBase whence + offset < 0 then return errInval
  else seekTo cfg w (s.file.seekBase whence + offset).toNat

/-- The loop of `lfs_file_rawwrite` that fills with zeros. -/
def fillZeros (pos : Nat) : (fuel : Nat) → FileM Int
  | 0 => Prog.stop
  | fuel + 1 => do
    let s ← Prog.get
    if s.file.pos < pos then do
      let res ← flushedwrite cfg w [0]
      if res < 0 then return res
      else fillZeros pos fuel
    else return errOk

/-- `lfs_file_rawwrite` fills with zeros from the end of the file up to the position. -/
def fillGap : FileM Int := do
  let s ← Prog.get
  Prog.modify (·.modFile fun f => { f with pos := f.size })
  fillZeros cfg w s.file.pos cfg.fuel

/-- `lfs_file_rawwrite` once any reads are dropped. -/
def writeBehind (bytes : List UInt8) : FileM Int := do
  Prog.modify (·.modFile fun f => if f.append ∧ f.pos < f.size then { f with pos := f.size } else f)
  let s ← Prog.get
  -- Larger than file limit?
  if s.file.pos + bytes.length > cfg.fileMaxSize then return errFbig
  else do
    let res ← doIf (s.file.writing = false ∧ s.file.pos > s.file.size) (fillGap cfg w)
    if res < 0 then return res
    else do
      let nsize ← flushedwrite cfg w bytes
      if nsize < 0 then return nsize
      else do
        Prog.modify (·.modFile fun f => { f with erred := false })
        return nsize

/-- `lfs_file_rawwrite`. -/
def rawwrite (bytes : List UInt8) : FileM Int := do
  let s ← Prog.get
  -- drop any reads
  let err ← doIf s.file.reading (flush cfg w)
  if err ≠ errOk then return err
  else writeBehind cfg w bytes

/-- The file is inline with the bytes that were read into `lfs->read_cache`. -/
def State.inlined (cfg : Config) (s : State) (size : Nat) : State :=
  s.modFile fun f => { f with
    head := blockInline
    size
    dirty := true
    reading := true
    isInline := true
    cache :=
      { block := some blockInline
        offset := 0
        size := cfg.cacheSize
        buffer := ByteImage.write f.cache.buffer 0 (ByteImage.read s.readCache.buffer 0 size) } }

/-- `lfs_file_rawtruncate` to a size that an inline file can have. -/
def shrinkInline (size : Nat) : FileM Int := do
  -- flush+seek to head
  let res ← rawseek cfg w 0 .set
  if res < 0 then return res
  else do
    -- read our data into rcache temporarily
    Prog.modify fun s => s.setRead s.readCache.drop
    let s ← Prog.get
    let (res, f) ← flushedread cfg w size s.file
    Prog.modify (·.setFile f)
    match res with
    | .error err => return err
    | .ok bytes =>
      Prog.modify fun s => (s.setRead (s.readCache.fill bytes)).inlined cfg size
      return errOk

/-- `lfs_file_rawtruncate` to a smaller size that an inline file cannot have. -/
def shrinkList (size : Nat) : FileM Int := do
  -- need to flush since directly changing metadata
  let err ← flush cfg w
  if err ≠ errOk then return err
  else do
    -- lookup new head in ctz skip list
    let s ← Prog.get
    let (res, cache) ← ctzFind cfg w s.file.head s.file.size (size - 1) s.file.cache
    Prog.modify (·.setCache cache .file)
    match res with
    | .error err => return err
    | .ok (block, _) =>
      Prog.modify (·.modFile fun f =>
        { f with block, pos := size, head := block, size, dirty := true, reading := true })
      return errOk

/-- The loop of `lfs_file_rawtruncate` that fills with zeros. -/
def extendZeros (size : Nat) : (fuel : Nat) → FileM Int
  | 0 => Prog.stop
  | fuel + 1 => do
    let s ← Prog.get
    if s.file.pos < size then do
      let res ← rawwrite cfg w [0]
      if res < 0 then return res
      else extendZeros size fuel
    else return errOk

/-- What `lfs_file_rawtruncate` does about the size. -/
def resize (size : Nat) : FileM Int := do
  let s ← Prog.get
  if size < s.file.rawsize then
    if size ≤ cfg.inlineMax cfg.cfgBlockSize 8 then shrinkInline cfg w size
    else shrinkList cfg w size
  else if size > s.file.rawsize then do
    -- flush+seek if not already at end
    let res ← rawseek cfg w 0 .fromEnd
    if res < 0 then return res
    else extendZeros cfg w size cfg.fuel
  else return errOk

/-- `lfs_file_rawtruncate`. -/
def rawtruncate (size : Nat) : FileM Int := do
  let s ← Prog.get
  if size > fileMax then return errInval
  else do
    let res ← resize cfg w size
    if res < 0 then return res
    else do
      -- restore pos
      let res ← rawseek cfg w s.file.pos .set
      if res < 0 then return res
      else return errOk

/-- `lfs_file_rawread`, with as many bytes as its result says. -/
def rawreadFile (size : Nat) : FileM (Except Int (List UInt8)) := do
  let s ← Prog.get
  -- flush out any writes
  let err ← doIf s.file.writing (flush cfg w)
  if err ≠ errOk then return .error err
  else do
    let s ← Prog.get
    let (res, f) ← flushedread cfg w size s.file
    Prog.modify (·.setFile f)
    return res

inductive Call where
  | write (bytes : List UInt8)
  | read (size : Nat)
  | seek (offset : Int) (whence : Whence)
  | truncate (size : Nat)
  | flush

def call : Call → FileM Int
  | .write bytes => rawwrite cfg w bytes
  | .read size => do
    match ← rawreadFile cfg w size with
    | .error err => return err
    | .ok bytes => return bytes.length
  | .seek offset whence => rawseek cfg w offset whence
  | .truncate size => rawtruncate cfg w size
  | .flush => flush cfg w

/-- A run goes on after a call that failed. -/
def run : List Call → FileM Unit
  | [] => return ()
  | c :: calls => do
    let _ ← call cfg w c
    run calls

end FileIo

end LittleFs
