import LittleFs.Lib.WriteWindow
import LittleFs.CommitFetch

/-! The write cache, which all commits share: `lfs_bd_write` gathers the bytes of one window of a
block, and `lfs_bd_flush` programs them when the window is full or a commit ends. Each attempt to
write a commit into a block goes through it, as does the copy of `lfs_file_relocate`.

The results of the requests to the device are given with the attempt. Reads succeed. -/

namespace LittleFs

open WriteWindow (Event held pending Disciplined)

/-! ## The cache -/

structure CacheConfig extends DiskConfig where
  cacheSize : Nat
  deriving DecidableEq, Repr

/-- What `lfs_init` asks of the sizes. -/
structure CacheConfig.Ok (cfg : CacheConfig) : Prop where
  writeSize : 0 < cfg.writeSize
  cacheSize : 0 < cfg.cacheSize
  dvd : cfg.writeSize ∣ cfg.cacheSize

/-- `lfs_cache_t`; the block `none` is `LFS_BLOCK_NULL`. -/
structure WriteCache where
  block : Option Nat := none
  offset : Nat := 0
  size : Nat := 0
  buffer : ByteImage.Image := fun _ => 0xff

/-- The write cache and its device. -/
structure Io where
  cache : WriteCache := {}
  /-- What the next programs return, and whether their bytes are then read back. -/
  programs : List (Int × Bool) := []
  /-- Newest first. -/
  trace : List (Event Nat UInt8) := []

/-- `lfs_cache_drop`. -/
def Io.drop (s : Io) : Io :=
  { s with cache := { s.cache with block := none }, trace := .emptied :: s.trace }

/-- `lfs_cache_zero`. -/
def Io.zero (s : Io) : Io :=
  { s with
    cache := { s.cache with block := none, offset := 0, size := 0 }
    trace := .emptied :: s.trace }

/-- `lfs_bd_flush`. -/
def Io.flush (cfg : CacheConfig) (validate : Bool) (s : Io) : Int × Io :=
  match s.cache.block with
  | none => (errOk, s)
  | some block =>
    let diff := alignup s.cache.size cfg.writeSize
    let r := s.programs.headD (errOk, true)
    let s := { s with
      programs := s.programs.tail
      trace := .programmed block s.cache.offset (ByteImage.read s.cache.buffer 0 diff) :: s.trace }
    if r.1 ≠ errOk then (r.1, s)
    -- check data on disk
    else if validate = true ∧ r.2 = false then (errCorrupt, s)
    else (errOk, s.zero)

/-- `lfs_bd_sync`, for what the device returns. -/
def Io.sync (cfg : CacheConfig) (validate : Bool) (result : Int) (s : Io) : Int × Io :=
  let (err, s) := s.flush cfg validate
  if err ≠ errOk then (err, s) else (result, s)

/-- A new window for the offset. -/
def Io.opened (cfg : CacheConfig) (block offset : Nat) (s : Io) : Io :=
  { s with
    cache := { s.cache with
      block := some block, offset := offset / cfg.writeSize * cfg.writeSize, size := 0 }
    trace := .opened block :: s.trace }

/-- Bytes that fit into the window. -/
def Io.put (block offset : Nat) (bytes : List UInt8) (s : Io) : Io :=
  { s with
    cache := { s.cache with
      buffer := ByteImage.write s.cache.buffer (offset - s.cache.offset) bytes
      size := max s.cache.size (offset + bytes.length - s.cache.offset) }
    trace := .put block offset bytes :: s.trace }

/-- The loop of `lfs_bd_write`, behind whose assertion a new window is opened as without it. -/
def Io.writeLoop (cfg : CacheConfig) (validate : Bool) (block : Nat) :
    (fuel offset : Nat) → List UInt8 → Io → Int × Io
  | 0, _, _, s => (errOk, s)
  | fuel + 1, offset, bytes, s =>
    if bytes = [] then (errOk, s)
    else if s.cache.block = some block ∧ s.cache.offset ≤ offset ∧
        offset < s.cache.offset + cfg.cacheSize then
      -- already fits in write_cache?
      let diff := min bytes.length (cfg.cacheSize - (offset - s.cache.offset))
      let s := s.put block offset (bytes.take diff)
      if s.cache.size = cfg.cacheSize then
        -- eagerly flush out write_cache if we fill up
        let (err, s) := s.flush cfg validate
        if err ≠ errOk then (err, s)
        else Io.writeLoop cfg validate block fuel (offset + diff) (bytes.drop diff) s
      else Io.writeLoop cfg validate block fuel (offset + diff) (bytes.drop diff) s
    else Io.writeLoop cfg validate block fuel offset bytes (s.opened cfg block offset)

/-- `lfs_bd_write`. -/
def Io.write (cfg : CacheConfig) (validate : Bool) (block offset : Nat) (bytes : List UInt8)
    (s : Io) : Int × Io :=
  s.writeLoop cfg validate block (2 * bytes.length + 1) offset bytes

/-! ## The attempts to write a block -/

/-- How far an attempt has come, and what it returns. -/
structure Progress where
  err : Int
  commit : Commit
  io : Io

def Progress.andThen (p : Progress) (f : Commit → Io → Progress) : Progress :=
  if p.err ≠ errOk then p else f p.commit p.io

/-- One write for each item, up to the first error. -/
def writeEach (f : α → Commit → Io → Progress) : List α → Commit → Io → Progress
  | [], c, s => ⟨errOk, c, s⟩
  | a :: as, c, s => (f a c s).andThen (writeEach f as)

/-- `lfs_dir_commit_write`. -/
def Io.commitWrite (cfg : CacheConfig) (block : Nat) (bytes : List UInt8) (c : Commit) (s : Io) :
    Progress :=
  let (err, s) := s.write cfg false block c.offset bytes
  if err ≠ errOk then ⟨err, c, s⟩ else ⟨errOk, c.write bytes, s⟩

/-- The data of a tag, byte by byte when it comes from disk. -/
def Io.commitData (cfg : CacheConfig) (block : Nat) (fromDisk : Bool) (data : List UInt8)
    (c : Commit) (s : Io) : Progress :=
  if fromDisk then writeEach (fun dat => Io.commitWrite cfg block [dat]) data c s
  else s.commitWrite cfg block data c

/-- `lfs_dir_commit_attribute`. -/
def Io.commitAttribute (cfg : CacheConfig) (block : Nat) (e : LogEntry) (c : Commit) (s : Io) :
    Progress :=
  let dsize := tagDsize e.tag
  -- check if we fit
  if c.offset + dsize > cfg.commitEnd then ⟨errNospc, c, s⟩
  else
    let tag := e.tag &&& 0x7fffffff#32
    -- write out tag
    (s.commitWrite cfg block (toBe32 (tag ^^^ c.ptag)) c).andThen fun c s =>
      (s.commitData cfg block e.tag.msb (e.data.take (dsize - 4)) c).andThen fun c s =>
        ⟨errOk, { c with ptag := tag }, s⟩

/-- The checksum tags of `lfs_dir_commit_crc`. -/
def Io.commitCrcLoop (cfg : CacheConfig) (block stop : Nat) : (fuel : Nat) → Commit → Io → Progress
  | 0, c, s => ⟨errOk, c, s⟩
  | fuel + 1, c, s =>
    if c.offset < stop then
      let footer := c.footer cfg.toDiskConfig stop ++ toLe32 (c.sum cfg.toDiskConfig stop)
      let (err, s) := s.write cfg false block c.offset footer
      if err ≠ errOk then ⟨err, c, s⟩
      else s.commitCrcLoop cfg block stop fuel (c.crcRound cfg.toDiskConfig (fun _ => none) stop)
    else ⟨errOk, c, s⟩

/-- `lfs_dir_commit_crc`, for the result of the sync and that of the check of the checksums. -/
def Io.commitCrc (cfg : CacheConfig) (block : Nat) (sync checked : Int) (c : Commit) (s : Io) :
    Progress :=
  -- align to program units
  let stop := alignup (c.offset + 16) cfg.writeSize
  (s.commitCrcLoop cfg block stop (stop + 1) c).andThen fun c s =>
    -- flush buffers
    let (err, s) := s.sync cfg false sync
    if err ≠ errOk then ⟨err, c, s⟩ else ⟨checked, c, s⟩

/-- What the directory and the device give to an attempt. -/
structure CommitInput where
  block : Nat
  /-- The bytes of the block. -/
  base : ByteImage.Image
  entries : List LogEntry
  programs : List (Int × Bool) := []
  sync : Int := errOk
  checked : Int := errOk

/-- The tags of a commit and the checksum. -/
def Io.commitEntries (cfg : CacheConfig) (input : CommitInput) (c : Commit) (s : Io) : Progress :=
  (writeEach (Io.commitAttribute cfg input.block) input.entries c s).andThen
    (Io.commitCrc cfg input.block input.sync input.checked)

inductive Attempt where
  /-- A commit behind the log of the directory, in `lfs_dir_relocating_commit`. -/
  | append (offset : Nat) (etag : Tag) (input : CommitInput)
  /-- A commit into an erased block, in `lfs_dir_compact`. -/
  | compact (revision : BitVec 32) (input : CommitInput)
  /-- The copy of a file into an erased block, in `lfs_file_relocate`. -/
  | file (block : Nat) (bytes : List UInt8) (programs : List (Int × Bool))

/-- The bytes of a file, one at a time from the offset on. -/
def Io.copyFile (cfg : CacheConfig) (block : Nat) : (offset : Nat) → List UInt8 → Io → Int × Io
  | _, [], s => (errOk, s)
  | offset, data :: bytes, s =>
    let (err, s) := s.write cfg true block offset [data]
    if err ≠ errOk then (err, s) else s.copyFile cfg block (offset + 1) bytes

def Attempt.run (cfg : CacheConfig) (s : Io) : Attempt → Int × Io
  | .append offset etag input =>
    let p := Io.commitEntries cfg input ⟨input.base, offset, etag, 0xffffffff#32⟩
      { s with programs := input.programs }
    (p.err, p.io)
  | .compact revision input =>
    -- write out header
    let p := (Io.commitWrite cfg input.block (toLe32 revision)
      ⟨input.base, 0, 0xffffffff#32, 0xffffffff#32⟩ { s with programs := input.programs }).andThen
        (Io.commitEntries cfg input)
    (p.err, p.io)
  | .file block bytes programs =>
    let (err, s) := Io.copyFile cfg block 0 bytes { s with programs := programs }
    -- copy over new state of file
    if err ≠ errOk then (err, s) else (errOk, s.zero)

/-! ## What the cache holds -/

/-- The events so far are disciplined, and what they leave pending is in the cache. -/
structure Io.Sound (s : Io) : Prop where
  disciplined : Disciplined s.trace
  held : held s.trace = s.cache.block
  pending : ∀ i x, pending s.trace i = some x → s.cache.offset ≤ i ∧
    i < s.cache.offset + s.cache.size ∧ s.cache.buffer (i - s.cache.offset) = x

/-- The next programs return nothing but success and the codes of `P`. -/
def Io.Reports (P : Int → Prop) (s : Io) : Prop := ∀ r ∈ s.programs, r.1 = errOk ∨ P r.1

/-- What an operation leaves that returns `err`: `Q` when it succeeds; when it fails, the cache is
empty or the code is one of `P`. -/
structure Io.Leaves (P : Int → Prop) (err : Int) (s : Io) (Q : Prop) : Prop where
  sound : s.Sound
  reports : s.Reports P
  ok : err = errOk → Q
  failed : err ≠ errOk → P err ∨ s.cache.block = none

def Progress.Leaves (P : Int → Prop) (p : Progress) (Q : Commit → Io → Prop) : Prop :=
  p.io.Leaves P p.err (Q p.commit p.io)

section
variable {cfg : CacheConfig} {P : Int → Prop} {s : Io}

theorem Io.Sound.drop (H : s.Sound) : s.drop.Sound :=
  ⟨H.disciplined, rfl, fun _ _ h => by cases h⟩

theorem Io.Sound.zero (H : s.Sound) : s.zero.Sound :=
  ⟨H.disciplined, rfl, fun _ _ h => by cases h⟩

theorem Io.Sound.opened (H : s.Sound) (hnone : s.cache.block = none) :
    (s.opened cfg block offset).Sound :=
  ⟨⟨H.held.trans hnone, H.disciplined⟩, rfl, fun _ _ h => by cases h⟩

theorem Io.Sound.put (H : s.Sound) (bytes : List UInt8) (hblock : s.cache.block = some block)
    (hle : s.cache.offset ≤ offset) : (s.put block offset bytes).Sound := by
  refine ⟨⟨H.held.trans hblock, H.disciplined⟩, H.held, fun i x hi => ?_⟩
  simp only [WriteWindow.pending, Io.put] at hi ⊢
  split at hi
  · rename_i hrange
    refine ⟨by omega, by omega, ?_⟩
    rw [ByteImage.write, if_pos (by omega),
      show i - s.cache.offset - (offset - s.cache.offset) = i - offset by omega, hi]
    rfl
  · rename_i hrange
    obtain ⟨hge, hlt, hx⟩ := H.pending i x hi
    refine ⟨hge, by omega, ?_⟩
    by_cases hbelow : i < offset
    · rw [ByteImage.write_of_lt _ _ (by omega), hx]
    · rw [ByteImage.write_of_ge _ _ (by omega), hx]

theorem Io.Leaves.pure (H : s.Sound) (hreports : s.Reports P) (h : Q) : s.Leaves P errOk Q :=
  ⟨H, hreports, fun _ => h, fun hne => absurd rfl hne⟩

theorem Io.Leaves.imp (H : s.Leaves P err Q) (h : Q → Q') : s.Leaves P err Q' :=
  ⟨H.sound, H.reports, fun herr => h (H.ok herr), H.failed⟩

theorem Progress.Leaves.andThen {p : Progress} (H : p.Leaves P Q)
    (hf : ∀ c s, s.Sound → s.Reports P → Q c s → (f c s).Leaves P Q') :
    (p.andThen f).Leaves P Q' := by
  rw [Progress.andThen]
  by_cases herr : p.err = errOk
  · rw [if_neg (not_not.mpr herr)]
    exact hf p.commit p.io H.sound H.reports (H.ok herr)
  · rw [if_pos herr]
    exact ⟨H.sound, H.reports, fun h => absurd h herr, H.failed⟩

/-- A flush that succeeds leaves the cache empty. -/
theorem Io.Sound.flush (H : s.Sound) (validate : Bool) (hreports : s.Reports P)
    (hcfg : 0 < cfg.writeSize) (hvalidate : validate = true → P errCorrupt) :
    (s.flush cfg validate).2.Leaves P (s.flush cfg validate).1
      ((s.flush cfg validate).2.cache.block = none) := by
  rw [Io.flush]
  split
  · rename_i hnone
    exact .pure H hreports hnone
  · rename_i block hblock
    have hreport : (s.programs.headD (errOk, true)).1 = errOk ∨
        P (s.programs.headD (errOk, true)).1 := by
      cases hs : s.programs with
      | nil => exact .inl rfl
      | cons r rest => exact hreports r (by rw [hs]; exact List.mem_cons_self)
    have hrest : ∀ r ∈ s.programs.tail, r.1 = errOk ∨ P r.1 :=
      fun r hr => hreports r (List.mem_of_mem_tail hr)
    have hsound : Io.Sound { s with
        programs := s.programs.tail
        trace := .programmed block s.cache.offset
          (ByteImage.read s.cache.buffer 0 (alignup s.cache.size cfg.writeSize)) :: s.trace } := by
      refine ⟨⟨⟨H.held.trans hblock, fun i x hi => ?_⟩, H.disciplined⟩, H.held, H.pending⟩
      obtain ⟨hge, hlt, hx⟩ := H.pending i x hi
      have hsize := le_alignup s.cache.size hcfg
      refine ⟨hge, ?_⟩
      rw [ByteImage.getElem?_read, if_pos (by omega), Nat.zero_add, hx]
    dsimp only
    split
    · rename_i hne
      exact ⟨hsound, hrest, fun h => absurd h hne, fun _ => .inl (hreport.resolve_left hne)⟩
    · split
      · rename_i hinvalid
        exact ⟨hsound, hrest, fun h => absurd h (show errCorrupt ≠ errOk by decide),
          fun _ => .inl (hvalidate hinvalid.1)⟩
      · exact .pure hsound.zero hrest rfl

end

/-! ## The windows of a commit -/

/-- The cache holds the bytes of the commit from the start of a window up to `offset`. The windows
of a commit lie one behind the other from its begin on. -/
structure Io.InWindow (cfg : CacheConfig) (begin block offset : Nat) (s : Io) : Prop where
  block : s.cache.block = some block
  window : ∃ k, s.cache.offset = begin + k * cfg.cacheSize
  le : s.cache.offset ≤ offset
  lt : offset < s.cache.offset + cfg.cacheSize
  size : s.cache.size = offset - s.cache.offset

/-- A commit from `begin` on has come to `offset`: at the end of a window the cache is empty. -/
def Io.InCommit (cfg : CacheConfig) (begin block offset : Nat) (s : Io) : Prop :=
  (s.cache.block = none ∧ ∃ k, offset = begin + k * cfg.cacheSize) ∨
    s.InWindow cfg begin block offset ∧ s.cache.offset < offset

section
variable {cfg : CacheConfig} {P : Int → Prop} {s : Io} {begin block offset : Nat}

/-- The windows of a commit start at program units. -/
theorem CacheConfig.Ok.aligned (hcfg : cfg.Ok) (hbegin : cfg.writeSize ∣ begin) (k : Nat) :
    (begin + k * cfg.cacheSize) / cfg.writeSize * cfg.writeSize = begin + k * cfg.cacheSize :=
  Nat.div_mul_cancel (Nat.dvd_add hbegin (hcfg.dvd.mul_left k))

theorem Io.InWindow.opened (hcfg : cfg.Ok) (hbegin : cfg.writeSize ∣ begin)
    (hoffset : ∃ k, offset = begin + k * cfg.cacheSize) :
    (s.opened cfg block offset).InWindow cfg begin block offset := by
  obtain ⟨k, rfl⟩ := hoffset
  have hwindow : (s.opened cfg block (begin + k * cfg.cacheSize)).cache.offset =
      begin + k * cfg.cacheSize := hcfg.aligned hbegin k
  refine ⟨rfl, ⟨k, hwindow⟩, hwindow.le, ?_, ?_⟩
  · rw [hwindow]
    exact Nat.lt_add_of_pos_right hcfg.cacheSize
  · rw [hwindow, Nat.sub_self]
    rfl

theorem Io.writeLoop_nil (fuel : Nat) (s : Io) :
    s.writeLoop cfg validate block fuel offset [] = (errOk, s) := by
  cases fuel with
  | zero => rfl
  | succ fuel => rw [Io.writeLoop, if_pos rfl]

theorem Io.Sound.writeLoop (H : s.Sound) (hreports : s.Reports P) (hcfg : cfg.Ok)
    (hbegin : cfg.writeSize ∣ begin) (hvalidate : validate = true → P errCorrupt)
    (hs : s.InCommit cfg begin block offset ∨ s.InWindow cfg begin block offset ∧ bytes ≠ [])
    (hfuel : 2 * bytes.length ≤ fuel) (hempty : s.cache.block = none → 2 * bytes.length < fuel) :
    (s.writeLoop cfg validate block fuel offset bytes).2.Leaves P
      (s.writeLoop cfg validate block fuel offset bytes).1
      ((s.writeLoop cfg validate block fuel offset bytes).2.InCommit cfg begin block
        (offset + bytes.length)) := by
  induction fuel generalizing offset bytes s with
  | zero =>
    obtain rfl : bytes = [] := List.eq_nil_of_length_eq_zero (by omega)
    exact .pure H hreports (hs.resolve_right fun h => h.2 rfl)
  | succ fuel ih =>
    by_cases hnil : bytes = []
    · subst hnil
      rw [Io.writeLoop_nil]
      exact .pure H hreports (hs.resolve_right fun h => h.2 rfl)
    · have hpos := List.length_pos_iff.mpr hnil
      rw [Io.writeLoop, if_neg hnil]
      obtain ⟨hnone, hoffset⟩ | hwin : (s.cache.block = none ∧
          ∃ k, offset = begin + k * cfg.cacheSize) ∨ s.InWindow cfg begin block offset := by
        rcases hs with (hs | ⟨hs, -⟩) | ⟨hs, -⟩
        exacts [.inl hs, .inr hs, .inr hs]
      · rw [if_neg fun h => by rw [hnone] at h; cases h.1]
        refine ih (H.opened hnone) hreports (.inr ⟨.opened hcfg hbegin hoffset, hnil⟩) ?_ ?_
        · have := hempty hnone
          omega
        · intro h
          cases h
      · obtain ⟨hblock, ⟨k, hk⟩, hle, hlt, hsize⟩ := hwin
        rw [if_pos ⟨hblock, hle, hlt⟩]
        dsimp only
        generalize hdiff : min bytes.length (cfg.cacheSize - (offset - s.cache.offset)) = diff
        have hput := H.put (bytes.take diff) hblock hle
        have hlen : (bytes.take diff).length = diff := by
          rw [List.length_take]
          omega
        have hdrop : (bytes.drop diff).length = bytes.length - diff := List.length_drop
        have hsize' : (s.put block offset (bytes.take diff)).cache.size =
            offset + diff - s.cache.offset := by
          change max s.cache.size (offset + (bytes.take diff).length - s.cache.offset) = _
          rw [hlen]
          omega
        have htotal : offset + bytes.length = offset + diff + (bytes.drop diff).length := by omega
        split
        · rename_i hfull
          have hflush := hput.flush validate hreports hcfg.writeSize hvalidate
          generalize (s.put block offset (bytes.take diff)).flush cfg validate = r at hflush ⊢
          obtain ⟨err, s'⟩ := r
          dsimp only at hflush ⊢
          split
          · rename_i hne
            exact ⟨hflush.sound, hflush.reports, fun h => absurd h hne, hflush.failed⟩
          · rename_i herr
            have hnone := hflush.ok (not_not.mp herr)
            rw [htotal]
            refine ih hflush.sound hflush.reports (.inl (.inl ⟨hnone, k + 1, ?_⟩)) ?_ ?_
            · rw [Nat.succ_mul]
              omega
            · omega
            · intro _
              omega
        · rename_i hfull
          rw [htotal]
          refine ih hput hreports (.inl (.inr ⟨⟨hblock, ⟨k, hk⟩, ?_, ?_, hsize'⟩, ?_⟩)) ?_ ?_
          · exact Nat.le_trans hle (Nat.le_add_right ..)
          · change offset + diff < s.cache.offset + cfg.cacheSize
            omega
          · change s.cache.offset < offset + diff
            omega
          · omega
          · intro h
            cases hblock.symm.trans h

/-- A write that goes on with a commit. -/
theorem Io.Sound.write (H : s.Sound) (validate : Bool) (bytes : List UInt8)
    (hreports : s.Reports P) (hcfg : cfg.Ok) (hbegin : cfg.writeSize ∣ begin)
    (hvalidate : validate = true → P errCorrupt) (hs : s.InCommit cfg begin block offset) :
    (s.write cfg validate block offset bytes).2.Leaves P
      (s.write cfg validate block offset bytes).1
      ((s.write cfg validate block offset bytes).2.InCommit cfg begin block
        (offset + bytes.length)) :=
  H.writeLoop hreports hcfg hbegin hvalidate (.inl hs) (Nat.le_succ _) fun _ => Nat.lt_succ_self _

/-! ## The checksum tags -/

/-- The window that is open, or that the next write opens, reaches up to `stop`. -/
def Io.Covers (cfg : CacheConfig) (block offset stop : Nat) (s : Io) : Prop :=
  (s.cache.block = none ∧ stop ≤ offset / cfg.writeSize * cfg.writeSize + cfg.cacheSize) ∨
    (s.cache.block = some block ∧ s.cache.offset ≤ offset ∧ stop ≤ s.cache.offset + cfg.cacheSize ∧
      s.cache.size < cfg.cacheSize)

theorem Io.Covers.mono (h : s.Covers cfg block offset stop) (hle : offset ≤ offset') :
    s.Covers cfg block offset' stop := by
  obtain ⟨hnone, hstop⟩ | ⟨hblock, hoffset, hrest⟩ := h
  · refine .inl ⟨hnone, Nat.le_trans hstop (Nat.add_le_add_right ?_ _)⟩
    exact Nat.mul_le_mul_right _ (Nat.div_le_div_right hle)
  · exact .inr ⟨hblock, Nat.le_trans hoffset hle, hrest⟩

/-- A checksum tag in the window is not flushed yet. -/
theorem Io.Sound.writeLoop_covers (H : s.Sound) (hblock : s.cache.block = some block)
    (hle : s.cache.offset ≤ offset) (hstop : stop ≤ s.cache.offset + cfg.cacheSize)
    (hsize : s.cache.size < cfg.cacheSize) (hnil : bytes ≠ [])
    (hbytes : offset + bytes.length < stop) :
    ∃ s', s.writeLoop cfg validate block (fuel + 1) offset bytes = (errOk, s') ∧ s'.Sound ∧
      s'.programs = s.programs ∧ s'.Covers cfg block offset stop := by
  have hpos := List.length_pos_iff.mpr hnil
  have hdiff : min bytes.length (cfg.cacheSize - (offset - s.cache.offset)) = bytes.length := by
    omega
  rw [Io.writeLoop, if_neg hnil, if_pos ⟨hblock, hle, by omega⟩]
  dsimp only
  rw [hdiff, List.take_length, List.drop_length]
  have hlt : (s.put block offset bytes).cache.size < cfg.cacheSize := by
    change max s.cache.size (offset + bytes.length - s.cache.offset) < _
    omega
  rw [if_neg hlt.ne, Io.writeLoop_nil]
  exact ⟨_, rfl, H.put bytes hblock hle, rfl, .inr ⟨hblock, hle, hstop, hlt⟩⟩

theorem Io.Sound.write_covers (H : s.Sound) (hcfg : cfg.Ok) (h : s.Covers cfg block offset stop)
    (hnil : bytes ≠ []) (hbytes : offset + bytes.length < stop) :
    ∃ s', s.write cfg validate block offset bytes = (errOk, s') ∧ s'.Sound ∧
      s'.programs = s.programs ∧ s'.Covers cfg block offset stop := by
  have hpos := List.length_pos_iff.mpr hnil
  rw [Io.write, show 2 * bytes.length + 1 = 2 * bytes.length - 1 + 1 + 1 by omega]
  obtain ⟨hnone, hstop⟩ | ⟨hblock, hle, hstop, hsize⟩ := h
  · rw [Io.writeLoop, if_neg hnil, if_neg fun h => by rw [hnone] at h; cases h.1]
    exact (H.opened hnone).writeLoop_covers rfl (Nat.div_mul_le_self ..) hstop hcfg.cacheSize hnil
      hbytes
  · exact H.writeLoop_covers hblock hle hstop hsize hnil hbytes

theorem length_footer (cfg : DiskConfig) (stop : Nat) (c : Commit) :
    (c.footer cfg stop ++ toLe32 (c.sum cfg stop)).length = 8 := by
  rw [List.length_append, Commit.footer, length_toBe32, length_toLe32]

/-- The checksum tags of a commit lie in one window. -/
theorem Io.Sound.commitCrcLoop_covers (H : s.Sound) (hreports : s.Reports P) (hcfg : cfg.Ok)
    (h : s.Covers cfg block c.offset stop) (hlast : c.offset < stop → c.offset + 16 ≤ stop) :
    (s.commitCrcLoop cfg block stop fuel c).Leaves P fun _ _ => True := by
  induction fuel generalizing s c with
  | zero => exact .pure H hreports trivial
  | succ fuel ih =>
    rw [Io.commitCrcLoop]
    split
    · rename_i hlt
      have hlast := hlast hlt
      have hlen := length_footer cfg.toDiskConfig stop c
      have hcrc := Commit.crcTag_spec cfg.toDiskConfig hlast
      have hoffset := Commit.crcRound_offset hcrc fun _ => none
      have hge := hcrc.ge
      generalize c.footer cfg.toDiskConfig stop ++ toLe32 (c.sum cfg.toDiskConfig stop) = footer
        at hlen ⊢
      have hnil : footer ≠ [] := List.ne_nil_of_length_pos (by omega)
      obtain ⟨s', hs', hsound, hprograms, hcovers⟩ : ∃ s',
          s.write cfg false block c.offset footer = (errOk, s') ∧ s'.Sound ∧
          s'.programs = s.programs ∧ s'.Covers cfg block c.offset stop :=
        H.write_covers hcfg h hnil (by omega)
      dsimp only
      rw [hs', if_neg (not_not.mpr rfl)]
      refine ih hsound (fun r hr => hreports r (hprograms ▸ hr)) (hcovers.mono ?_) ?_
      · rw [hoffset]
        omega
      · rw [hoffset]
        exact hcrc.last
    · exact .pure H hreports trivial

/-- The checksum tags of a commit that ends with its tags at `offset` follow each other in one
window, the tags end in the window before them, or there is one checksum tag only. -/
def FootersFit (cfg : CacheConfig) (begin offset : Nat) : Prop :=
  let stop := alignup (offset + 16) cfg.writeSize
  let base := begin + (offset - begin) / cfg.cacheSize * cfg.cacheSize
  stop ≤ base + cfg.cacheSize ∨ base + cfg.cacheSize ≤ offset + 8 ∨ stop - (offset + 4) ≤ 0x3fe

/-- The window that a commit is in, by its begin and the offset it has come to. -/
theorem Io.InCommit.window (hs : s.InCommit cfg begin block offset) :
    (s.cache.block = none ∧
      offset = begin + (offset - begin) / cfg.cacheSize * cfg.cacheSize) ∨
    s.InWindow cfg begin block offset ∧
      s.cache.offset = begin + (offset - begin) / cfg.cacheSize * cfg.cacheSize := by
  rcases hs with ⟨hnone, k, rfl⟩ | ⟨hwin, -⟩
  · refine .inl ⟨hnone, ?_⟩
    rcases Nat.eq_zero_or_pos cfg.cacheSize with hzero | hpos
    · rw [hzero, Nat.mul_zero, Nat.mul_zero]
    · rw [Nat.add_sub_cancel_left, Nat.mul_div_cancel _ hpos]
  · obtain ⟨k, hk⟩ := hwin.window
    have hle := hwin.le
    have hlt := hwin.lt
    have hdiv : (offset - begin) / cfg.cacheSize = k :=
      Nat.div_eq_of_lt_le (by omega) (by rw [Nat.succ_mul]; omega)
    exact .inr ⟨hwin, hdiv ▸ hk⟩

/-- The window of a commit reaches up to `stop`. -/
theorem Io.InCommit.covers (hs : s.InCommit cfg begin block offset) (hcfg : cfg.Ok)
    (hbegin : cfg.writeSize ∣ begin)
    (hstop : stop ≤ begin + (offset - begin) / cfg.cacheSize * cfg.cacheSize + cfg.cacheSize) :
    s.Covers cfg block offset stop := by
  rcases hs.window with ⟨hnone, hoffset⟩ | ⟨hwin, hoffset⟩
  · have haligned := hcfg.aligned hbegin ((offset - begin) / cfg.cacheSize)
    rw [← hoffset] at haligned hstop
    exact .inl ⟨hnone, by rwa [haligned]⟩
  · have hlt := hwin.lt
    have hsize := hwin.size
    exact .inr ⟨hwin.block, hwin.le, hoffset ▸ hstop, by have := hcfg.cacheSize; omega⟩

/-- What the next checksum tag finds behind a first one that reaches into the next window. -/
theorem Io.InCommit.covers_next (hs : s.InCommit cfg begin block (offset + 8)) (hcfg : cfg.Ok)
    (hbegin : cfg.writeSize ∣ begin) (hle : begin ≤ offset)
    (hmany : 0x3fe < alignup (offset + 16) cfg.writeSize - (offset + 4))
    (hnext : begin + (offset - begin) / cfg.cacheSize * cfg.cacheSize + cfg.cacheSize ≤
      offset + 8) :
    s.Covers cfg block (offset + 8) (alignup (offset + 16) cfg.writeSize) := by
  have hwrite : alignup (offset + 16) cfg.writeSize ≤ offset + 16 + cfg.writeSize - 1 :=
    Nat.div_mul_le_self ..
  have hcache := Nat.le_of_dvd hcfg.cacheSize hcfg.dvd
  have hmod := Nat.div_add_mod' (offset - begin) cfg.cacheSize
  have hlt := Nat.mod_lt (offset - begin) hcfg.cacheSize
  have hquot : (offset + 8 - begin) / cfg.cacheSize = (offset - begin) / cfg.cacheSize + 1 := by
    refine Nat.div_eq_of_lt_le ?_ ?_ <;> simp only [Nat.succ_mul] <;> omega
  refine hs.covers hcfg hbegin ?_
  rw [hquot]
  refine alignup_le ?_ hcfg.writeSize ?_
  · exact Nat.dvd_add (Nat.dvd_add hbegin (hcfg.dvd.mul_left _)) hcfg.dvd
  · rw [Nat.succ_mul]
    omega

theorem crcNoff_eq (h : stop - offset ≤ 0x3fe) (hle : offset ≤ stop) :
    crcNoff stop offset = stop := by
  rw [crcNoff, if_neg] <;> omega

theorem Io.Sound.commitCrcLoop (H : s.Sound) (hreports : s.Reports P) (hcfg : cfg.Ok)
    (hbegin : cfg.writeSize ∣ begin) (hle : begin ≤ c.offset)
    (hs : s.InCommit cfg begin block c.offset) (hfit : FootersFit cfg begin c.offset) :
    (s.commitCrcLoop cfg block (alignup (c.offset + 16) cfg.writeSize) fuel c).Leaves P
      fun _ _ => True := by
  have hend := le_alignup (c.offset + 16) hcfg.writeSize
  cases fuel with
  | zero => exact .pure H hreports trivial
  | succ fuel =>
    by_cases hcovers : alignup (c.offset + 16) cfg.writeSize ≤
        begin + (c.offset - begin) / cfg.cacheSize * cfg.cacheSize + cfg.cacheSize
    · exact H.commitCrcLoop_covers hreports hcfg (hs.covers hcfg hbegin hcovers) fun _ => hend
    · have hfit := hfit.resolve_left hcovers
      generalize hstop : alignup (c.offset + 16) cfg.writeSize = stop at hend hfit ⊢
      have hlen := length_footer cfg.toDiskConfig stop c
      have hcrc := Commit.crcTag_spec cfg.toDiskConfig hend
      have hoffset := Commit.crcRound_offset hcrc fun _ => none
      have hge := hcrc.ge
      rw [Io.commitCrcLoop, if_pos (by omega)]
      have hwrite := H.write false
        (c.footer cfg.toDiskConfig stop ++ toLe32 (c.sum cfg.toDiskConfig stop))
        hreports hcfg hbegin (fun h => by cases h) hs
      rw [hlen] at hwrite
      dsimp only
      generalize s.write cfg false block c.offset _ = r at hwrite ⊢
      obtain ⟨err, s'⟩ := r
      dsimp only at hwrite ⊢
      split
      · rename_i hne
        exact ⟨hwrite.sound, hwrite.reports, fun h => absurd h hne, hwrite.failed⟩
      · rename_i herr
        have hin := hwrite.ok (not_not.mp herr)
        by_cases hmany : stop - (c.offset + 4) ≤ 0x3fe
        · have hdone : (c.crcRound cfg.toDiskConfig (fun _ => none) stop).offset = stop := by
            rw [hoffset, crcNoff_eq hmany (by omega)]
          cases fuel with
          | zero => exact .pure hwrite.sound hwrite.reports trivial
          | succ fuel =>
            rw [Io.commitCrcLoop, if_neg (by omega)]
            exact .pure hwrite.sound hwrite.reports trivial
        · have hnext := hfit.resolve_right hmany
          have hcovers := hin.covers_next hcfg hbegin hle (by omega) hnext
          rw [hstop] at hcovers
          refine hwrite.sound.commitCrcLoop_covers hwrite.reports hcfg (hcovers.mono ?_) ?_
          · rw [hoffset]
            omega
          · rw [hoffset]
            exact hcrc.last

theorem Io.Sound.commitCrc (H : s.Sound) (hreports : s.Reports P) (hcfg : cfg.Ok)
    (hbegin : cfg.writeSize ∣ begin) (hle : begin ≤ c.offset)
    (hs : s.InCommit cfg begin block c.offset) (hfit : FootersFit cfg begin c.offset) :
    (s.commitCrc cfg block synced checked c).Leaves P fun _ s' => s'.cache.block = none := by
  rw [Io.commitCrc]
  refine (H.commitCrcLoop hreports hcfg hbegin hle hs hfit).andThen fun c s hsound hreports _ => ?_
  have hflush := hsound.flush false hreports hcfg.writeSize fun h => by cases h
  rw [Io.sync]
  generalize s.flush cfg false = r at hflush ⊢
  obtain ⟨err, s'⟩ := r
  dsimp only at hflush ⊢
  by_cases herr : err = errOk
  · have hnone := hflush.ok herr
    rw [if_neg (not_not.mpr herr)]
    dsimp only
    split
    · exact ⟨hflush.sound, hflush.reports, fun _ => hnone, fun _ => .inr hnone⟩
    · exact ⟨hflush.sound, hflush.reports, fun _ => hnone, fun _ => .inr hnone⟩
  · rw [if_pos herr]
    dsimp only
    rw [if_pos herr]
    exact ⟨hflush.sound, hflush.reports, fun h => absurd h herr, hflush.failed⟩

/-! ## The tags -/

theorem Io.Sound.commitWrite (H : s.Sound) (bytes : List UInt8) (hreports : s.Reports P)
    (hcfg : cfg.Ok) (hbegin : cfg.writeSize ∣ begin) (hs : s.InCommit cfg begin block c.offset) :
    (s.commitWrite cfg block bytes c).Leaves P fun c' s' =>
      c'.offset = c.offset + bytes.length ∧ s'.InCommit cfg begin block c'.offset := by
  have hwrite := H.write false bytes hreports hcfg hbegin
    (fun h => by cases h) hs
  rw [Io.commitWrite]
  generalize s.write cfg false block c.offset bytes = r at hwrite ⊢
  obtain ⟨err, s'⟩ := r
  dsimp only at hwrite ⊢
  split
  · rename_i hne
    exact ⟨hwrite.sound, hwrite.reports, fun h => absurd h hne, hwrite.failed⟩
  · rename_i herr
    exact .pure hwrite.sound hwrite.reports ⟨rfl, hwrite.ok (not_not.mp herr)⟩

theorem Io.Sound.commitData (H : s.Sound) (hreports : s.Reports P) (hcfg : cfg.Ok)
    (hbegin : cfg.writeSize ∣ begin) (hs : s.InCommit cfg begin block c.offset) :
    (s.commitData cfg block fromDisk data c).Leaves P fun c' s' =>
      c'.offset = c.offset + data.length ∧ s'.InCommit cfg begin block c'.offset := by
  rw [Io.commitData]
  split
  · induction data generalizing s c with
    | nil => exact .pure H hreports ⟨rfl, hs⟩
    | cons dat data ih =>
      refine (H.commitWrite [dat] hreports hcfg hbegin hs).andThen fun c' s' H hreports h => ?_
      refine (ih H hreports h.2).imp fun h' => ⟨?_, h'.2⟩
      rw [h'.1, h.1, List.length_singleton, List.length_cons]
      omega
  · exact H.commitWrite data hreports hcfg hbegin hs

/-- The offset behind the tags of a commit; an error is the offset of the first tag that does not
fit. -/
def tagsEnd (cfg : DiskConfig) : (offset : Nat) → List LogEntry → Except Nat Nat
  | offset, [] => .ok offset
  | offset, e :: entries =>
    if offset + tagDsize e.tag > cfg.commitEnd then .error offset
    else tagsEnd cfg (offset + 4 + (e.data.take (tagDsize e.tag - 4)).length) entries

/-- Where a tag that does not fit leaves an empty cache: at the end of a window. -/
theorem Io.InCommit.at_boundary (hs : s.InCommit cfg begin block offset)
    (hdvd : cfg.cacheSize ∣ offset - begin) : s.cache.block = none := by
  rcases hs.window with ⟨hnone, -⟩ | ⟨hwin, hoffset⟩
  · exact hnone
  · rcases hs with ⟨hnone, -⟩ | ⟨-, hlt⟩
    · exact hnone
    · rw [Nat.div_mul_cancel hdvd] at hoffset
      omega

theorem Io.Sound.commitAttribute (H : s.Sound) (hreports : s.Reports P) (hcfg : cfg.Ok)
    (hbegin : cfg.writeSize ∣ begin) (hs : s.InCommit cfg begin block c.offset)
    (hfit : c.offset + tagDsize e.tag ≤ cfg.commitEnd) :
    (s.commitAttribute cfg block e c).Leaves P fun c' s' =>
      c'.offset = c.offset + 4 + (e.data.take (tagDsize e.tag - 4)).length ∧
      s'.InCommit cfg begin block c'.offset := by
  rw [Io.commitAttribute, if_neg (Nat.not_lt.mpr hfit)]
  refine (H.commitWrite _ hreports hcfg hbegin hs).andThen fun c₁ s₁ H hreports h₁ => ?_
  refine (H.commitData hreports hcfg hbegin h₁.2).andThen fun c₂ s₂ H hreports h₂ => ?_
  rw [h₁.1, length_toBe32] at h₂
  exact .pure H hreports h₂

/-- The tags of a commit. A tag that does not fit fails with a code of `P`, or at the end of a
window. -/
theorem Io.Sound.commitTags (H : s.Sound) (hreports : s.Reports P) (hcfg : cfg.Ok)
    (hbegin : cfg.writeSize ∣ begin) (hs : s.InCommit cfg begin block c.offset)
    (hroom : ∀ offset, tagsEnd cfg.toDiskConfig c.offset entries = .error offset →
      P errNospc ∨ cfg.cacheSize ∣ offset - begin) :
    (writeEach (Io.commitAttribute cfg block) entries c s).Leaves P fun c' s' =>
      tagsEnd cfg.toDiskConfig c.offset entries = .ok c'.offset ∧
      s'.InCommit cfg begin block c'.offset := by
  induction entries generalizing s c with
  | nil => exact .pure H hreports ⟨rfl, hs⟩
  | cons e entries ih =>
    rw [tagsEnd] at hroom ⊢
    rw [writeEach]
    split at hroom
    · rename_i hfull
      rw [Io.commitAttribute, if_pos hfull]
      refine ⟨H, hreports, fun h => absurd h (show errNospc ≠ errOk by decide), fun _ => ?_⟩
      exact (hroom _ rfl).imp_right hs.at_boundary
    · rename_i hfits
      rw [if_neg hfits]
      refine (H.commitAttribute hreports hcfg hbegin hs (Nat.not_lt.mp hfits)).andThen
        fun c' s' H hreports h => ?_
      rw [← h.1] at hroom ⊢
      exact ih H hreports h.2 hroom

/-! ## The attempts -/

/-- What the tags of a commit from `offset` on have to meet, in windows that start at `begin`: a
code of `P` says that they do not fit, and their checksum tags lie in the window that is open. -/
structure TagsFit (cfg : CacheConfig) (P : Int → Prop) (begin offset : Nat)
    (entries : List LogEntry) : Prop where
  room : ∀ full, tagsEnd cfg.toDiskConfig offset entries = .error full →
    P errNospc ∨ cfg.cacheSize ∣ full - begin
  footers : ∀ stop, tagsEnd cfg.toDiskConfig offset entries = .ok stop → FootersFit cfg begin stop

theorem le_of_tagsEnd {cfg : DiskConfig} (h : tagsEnd cfg offset entries = .ok stop) :
    offset ≤ stop := by
  induction entries generalizing offset with
  | nil =>
    cases h
    exact Nat.le_refl _
  | cons e entries ih =>
    rw [tagsEnd] at h
    split at h
    · cases h
    · have := ih h
      omega

theorem Io.Sound.commitEntries (H : s.Sound) (hreports : s.Reports P) (hcfg : cfg.Ok)
    (hbegin : cfg.writeSize ∣ begin) (hle : begin ≤ c.offset)
    (hs : s.InCommit cfg begin input.block c.offset)
    (hfit : TagsFit cfg P begin c.offset input.entries) :
    (s.commitEntries cfg input c).Leaves P fun _ s' => s'.cache.block = none := by
  refine (H.commitTags hreports hcfg hbegin hs hfit.room).andThen fun c' s' H hreports h => ?_
  exact H.commitCrc hreports hcfg hbegin (Nat.le_trans hle (le_of_tagsEnd h.1)) h.2
    (hfit.footers _ h.1)

theorem Io.Sound.copyFile (H : s.Sound) (bytes : List UInt8) (hreports : s.Reports P)
    (hcfg : cfg.Ok) (hvalidate : P errCorrupt) (hs : s.InCommit cfg 0 block offset) :
    (s.copyFile cfg block offset bytes).2.Leaves P (s.copyFile cfg block offset bytes).1 True := by
  induction bytes generalizing s offset with
  | nil => exact .pure H hreports trivial
  | cons data bytes ih =>
    have hwrite := H.write true [data] hreports hcfg
      (Nat.dvd_zero cfg.writeSize) (fun _ => hvalidate) hs
    rw [Io.copyFile]
    generalize s.write cfg true block offset [data] = r at hwrite ⊢
    obtain ⟨err, s'⟩ := r
    dsimp only at hwrite ⊢
    split
    · rename_i hne
      exact ⟨hwrite.sound, hwrite.reports, fun h => absurd h hne, hwrite.failed⟩
    · rename_i herr
      exact ih hwrite.sound hwrite.reports (hwrite.ok (not_not.mp herr))

/-- The codes after which the caller of an attempt drops the cache. -/
def Attempt.Retries : Attempt → Int → Prop
  | .append .., err => err = errNospc ∨ err = errCorrupt
  | .compact .., err => err = errCorrupt
  | .file .., err => err = errCorrupt

/-- The condition on an attempt: its programs fail with codes after which the cache is dropped, and
its tags fit. -/
def Attempt.Meets (cfg : CacheConfig) (a : Attempt) : Prop :=
  match a with
  | .append offset _ input =>
    (∀ r ∈ input.programs, r.1 = errOk ∨ a.Retries r.1) ∧
      TagsFit cfg a.Retries offset offset input.entries
  | .compact _ input =>
    (∀ r ∈ input.programs, r.1 = errOk ∨ a.Retries r.1) ∧
      TagsFit cfg a.Retries 0 4 input.entries
  | .file _ _ programs => ∀ r ∈ programs, r.1 = errOk ∨ a.Retries r.1

/-- The block that an attempt starts from is a program unit. -/
def Attempt.Aligned (cfg : CacheConfig) : Attempt → Prop
  | .append offset _ _ => cfg.writeSize ∣ offset
  | _ => True

/-- **Attempt.** From an empty cache, an attempt that meets its condition leaves an empty cache or
returns a code after which the cache is dropped. -/
theorem Attempt.Meets.run {a : Attempt} (h : a.Meets cfg) (hcfg : cfg.Ok) (haligned : a.Aligned cfg)
    (H : s.Sound) (hempty : s.cache.block = none) :
    (a.run cfg s).2.Leaves a.Retries (a.run cfg s).1 ((a.run cfg s).2.cache.block = none) := by
  cases a with
  | append offset etag input =>
    have hsound : Io.Sound { s with programs := input.programs } :=
      ⟨H.disciplined, H.held, H.pending⟩
    exact hsound.commitEntries h.1 hcfg haligned (Nat.le_refl _)
      (.inl ⟨hempty, 0, by rw [Nat.zero_mul]; rfl⟩) h.2
  | compact revision input =>
    have hsound : Io.Sound { s with programs := input.programs } :=
      ⟨H.disciplined, H.held, H.pending⟩
    have hstart : Io.InCommit cfg 0 input.block 0 { s with programs := input.programs } :=
      .inl ⟨hempty, 0, by rw [Nat.zero_mul]⟩
    have hheader := hsound.commitWrite (toLe32 revision)
      (c := ⟨input.base, 0, 0xffffffff#32, 0xffffffff#32⟩) h.1 hcfg (Nat.dvd_zero _) hstart
    exact hheader.andThen (f := Io.commitEntries cfg input) fun c s H hreports hc => by
      have hoffset : c.offset = 4 := by rw [hc.1, length_toLe32]
      exact H.commitEntries hreports hcfg (Nat.dvd_zero _) (Nat.zero_le _) hc.2 (hoffset ▸ h.2)
  | file block bytes programs =>
    have hsound : Io.Sound { s with programs := programs } := ⟨H.disciplined, H.held, H.pending⟩
    have hstart : Io.InCommit cfg 0 block 0 { s with programs := programs } :=
      .inl ⟨hempty, 0, by rw [Nat.zero_mul]⟩
    have hcopy := hsound.copyFile bytes h hcfg rfl hstart
    rw [Attempt.run]
    generalize Io.copyFile cfg block 0 bytes _ = r at hcopy ⊢
    obtain ⟨err, s'⟩ := r
    dsimp only at hcopy ⊢
    split
    · rename_i hne
      exact ⟨hcopy.sound, hcopy.reports, fun h => absurd h hne, hcopy.failed⟩
    · exact .pure hcopy.sound.zero hcopy.reports rfl

end

end LittleFs
