import LittleFs.CtzExtend
import LittleFs.FileBuffer

/-! The list of a file that is written to: what of it is on the device and what in the cache, and
that each call of `lfs_alloc` finds it as `lfs_ctz_traverse` needs it, over devices that report
blocks as bad at any time.

The blocks before the current one are on the device. The current one is on the device up to the
window of the cache; when it is bad, what is before the offset of the file is copied to a fresh
block from there. -/

namespace LittleFs

open BitCount SkipList
open StateLogic StateLogic.Prog

namespace FileIo

/-! ## Lists of bytes -/

/-- The sizes of the device and of its caches. -/
structure Config.Fits (cfg : Config) : Prop where
  read : cfg.toReadConfig.Ok
  cache : cfg.toCacheConfig.Ok
  count : cfg.blockCount ≤ blockInline
  blockSize : 16 < cfg.blockSize
  /-- The end of a window that is read ahead does not wrap around. -/
  window : 2 * cfg.blockSize + cfg.readSize ≤ 2 ^ 64
  maxSize : cfg.fileMaxSize ≤ fileMax

/-- A file may end at `n`: the positions up to there can be indexed, and their blocks have room for
content. -/
structure Config.Indexes (cfg : Config) (n : Nat) : Prop where
  le : n ≤ cfg.fileMaxSize
  exact : ∀ pos ≤ n, CtzExact cfg.blockSize pos
  room : ∀ i, start 8 cfg.blockSize i < n → 8 * pointers i < cfg.blockSize

theorem Config.Indexes.mono {cfg : Config} (H : cfg.Indexes n) (h : m ≤ n) : cfg.Indexes m where
  le := h.trans H.le
  exact pos hpos := H.exact pos (hpos.trans h)
  room i hi := H.room i (hi.trans_le h)

theorem Config.Indexes.max {cfg : Config} (H : cfg.Indexes n) (H' : cfg.Indexes m) :
    cfg.Indexes (max n m) := by
  rcases Nat.le_total n m with h | h
  · rwa [Nat.max_eq_right h]
  · rwa [Nat.max_eq_left h]

/-- With 280 bytes or more to a block a file may end before block `2 ^ 31`. -/
theorem Config.Indexes.of_le {cfg : Config} (hwide : 280 ≤ cfg.blockSize)
    (hB : cfg.blockSize < 2 ^ 64) (hmax : n ≤ cfg.fileMaxSize) (hle : cfg.fileMaxSize ≤ fileMax)
    (h : n < (cfg.blockSize - 16) * 2 ^ 31 + 264) : cfg.Indexes n := by
  have hbits : formatBits cfg.blockSize = 31 := by
    rw [formatBits]
    omega
  have hend := start_formatBits (show 16 < cfg.blockSize by omega)
  have hroom := room_formatBits (show 16 < cfg.blockSize by omega)
  rw [hbits] at hend hroom
  refine ⟨hmax, fun pos hpos => ?_, fun i hi => ?_⟩
  · refine ctzExact_of_lt hB hroom (fun i hi => ?_) (by decide) ?_ ?_
    · have hones := ones_le_of_lt (show i < 2 ^ 31 by omega)
      omega
    · rw [Nat.sub_add_cancel (Nat.two_pow_pos 31)]
      omega
    · rw [fileMax] at hle
      omega
  · have hlt : i < 2 ^ 31 := Nat.lt_of_not_le fun hge => by
      have hmono := start_mono (w := 8) (B := cfg.blockSize) hge
      omega
    have hpointers := Room.of_lt (w := 8) hlt (Nat.le_refl (8 * 31)) i (Nat.le_refl i)
    omega

/-- The blocks `addr 0` to `addr n` are a list that holds the bytes. -/
structure Lists (cfg : Config) (view : Nat → ByteImage.Image) (content : List UInt8) (n : Nat)
    (addr : Nat → Nat) : Prop where
  list : CtzList (cfg.disk view) n addr
  byte : ∀ i pos off, Holds 8 cfg.blockSize i pos off → ∀ h : pos < content.length,
    view (addr i) off = content[pos]

variable {cfg : Config} {w : World} {A : File → (Nat → ByteImage.Image) → Prop}
  {Q : Nat → Prop} {content : List UInt8} {view view' : Nat → ByteImage.Image} {addr : Nat → Nat}
  {n k i block off : Nat} {s s' s'' : State}

/-- Where the content ends in block `k`. -/
structure EndsAt (cfg : Config) (length k off : Nat) : Prop where
  place : length + 8 * pointers k = start 8 cfg.blockSize k + off
  low : 8 * pointers k ≤ off
  high : off ≤ cfg.blockSize

/-- Behind the last byte. -/
theorem EndsAt.of_holds (h : Holds 8 cfg.blockSize k (n - 1) off) (hn : 0 < n)
    (hoff : off < cfg.blockSize) : EndsAt cfg n k (off + 1) ∧ 8 * pointers k < off + 1 := by
  have hle := h.le
  have heq := h.off_eq
  exact ⟨⟨by omega, by omega, hoff⟩, by omega⟩

theorem EndsAt.lt_off (H : EndsAt cfg length k off) (h : Holds 8 cfg.blockSize i pos x)
    (hpos : pos < length) : i ≤ k ∧ (i = k → x < off) := by
  obtain ⟨hplace, hlow, hhigh⟩ := H
  refine ⟨h.index_le ?_, fun hi => ?_⟩
  · rw [start_add_one]
    omega
  · subst hi
    have hoff := h.off_eq
    have hle := h.le
    omega

theorem EndsAt.start_le (H : EndsAt cfg length k off) : start 8 cfg.blockSize k ≤ length := by
  have hplace := H.place
  have hlow := H.low
  omega

/-- The byte behind the content, while the block is not full. -/
theorem EndsAt.holds (H : EndsAt cfg length k off) (h : off < cfg.blockSize) :
    Holds 8 cfg.blockSize k length off := by
  obtain ⟨hplace, hlow, -⟩ := H
  refine ⟨by omega, ?_, by omega⟩
  rw [start_add_one]
  omega

/-- The last byte, unless the block has none. -/
theorem EndsAt.holds_last (H : EndsAt cfg length k off) (h : 8 * pointers k < off) :
    Holds 8 cfg.blockSize k (length - 1) (off - 1) := by
  obtain ⟨hplace, hlow, hhigh⟩ := H
  refine ⟨by omega, ?_, by omega⟩
  rw [start_add_one]
  omega

theorem EndsAt.add (H : EndsAt cfg length k off) (h : off + n ≤ cfg.blockSize) :
    EndsAt cfg (length + n) k (off + n) := by
  obtain ⟨hplace, hlow, -⟩ := H
  exact ⟨by omega, by omega, h⟩

/-- What was added is behind the pointers. -/
theorem EndsAt.lt_of_append (H : EndsAt cfg content.length k off)
    (H' : EndsAt cfg (content ++ bytes).length k off') (h : 0 < bytes.length) :
    8 * pointers k < off' := by
  have hplace := H'.place
  rw [List.length_append] at hplace
  have := H.place
  have := H.low
  omega

/-- The bytes that the list does not use may change. -/
theorem Lists.congr (H : Lists cfg view content n addr) (hend : EndsAt cfg content.length n off)
    (holder : ∀ i < n, ∀ x, view' (addr i) x = view (addr i) x)
    (hlast : ∀ x < off, view' (addr n) x = view (addr n) x) :
    Lists cfg view' content n addr where
  list :=
    { count_le := H.list.count_le
      lt := H.list.lt
      readable := fun _ _ => rfl
      room := H.list.room
      pointer := fun i hi hne j hj => by
        refine Eq.trans (read_congr fun x hlo hhi => ?_) (H.list.pointer i hi hne j hj)
        rcases Nat.eq_or_lt_of_le hi with rfl | hlt
        · refine hlast x ?_
          have hlow := hend.low
          rw [pointers, if_neg hne] at hlow
          omega
        · exact holder i hlt x }
  byte i pos x hholds h := by
    refine Eq.trans ?_ (H.byte i pos x hholds h)
    obtain ⟨hle, hx⟩ := hend.lt_off hholds h
    rcases Nat.eq_or_lt_of_le hle with rfl | hlt
    · exact hlast x (hx rfl)
    · exact holder i hlt x

/-- The blocks are as before. -/
theorem Lists.of_eq (H : Lists cfg view content n addr) (hend : EndsAt cfg content.length n off)
    (h : ∀ i ≤ n, view' (addr i) = view (addr i)) : Lists cfg view' content n addr :=
  H.congr hend (fun i hi x => by rw [h i (Nat.le_of_lt hi)]) fun x _ => by rw [h n (Nat.le_refl n)]

/-- The first bytes of a list are in its first blocks. -/
theorem Lists.take (H : Lists cfg view content n addr) (hk : k ≤ n) (m : Nat) :
    Lists cfg view (content.take m) k addr where
  list :=
    { count_le := H.list.count_le
      lt := fun i hi => H.list.lt i (hi.trans hk)
      readable := fun _ _ => rfl
      room := H.list.room.mono hk
      pointer := fun i hi => H.list.pointer i (hi.trans hk) }
  byte i pos x hholds h := by
    rw [List.length_take] at h
    rw [List.getElem_take]
    exact H.byte i pos x hholds (by omega)

/-- Bytes that are put behind the content. -/
theorem Lists.append (H : Lists cfg view content n addr) (hend : EndsAt cfg content.length n off)
    {bytes : List UInt8} (hfits : off + bytes.length ≤ cfg.blockSize)
    (hplaced : ∀ i (h : i < bytes.length), view (addr n) (off + i) = bytes[i]) :
    Lists cfg view (content ++ bytes) n addr where
  list := H.list
  byte i pos x hholds h := by
    rw [List.length_append] at h
    rcases Nat.lt_or_ge pos content.length with hlt | hge
    · rw [List.getElem_append_left hlt]
      exact H.byte i pos x hholds hlt
    · have hlt : pos - content.length < bytes.length := by omega
      have hend' := hend.add (show off + (pos - content.length) ≤ cfg.blockSize by omega)
      rw [Nat.add_sub_cancel' hge] at hend'
      obtain ⟨rfl, rfl⟩ := hholds.unique (hend'.holds (by omega))
      rw [List.getElem_append_right hge]
      exact hplaced _ hlt

/-- The last block is replaced by one with the same bytes. -/
theorem Lists.replace (H : Lists cfg view content n addr)
    (hend : EndsAt cfg content.length n off) (hblock : block < cfg.blockCount)
    (holder : ∀ i < n, ∀ x, view' (addr i) x = view (addr i) x)
    (hlast : ∀ x < off, view' block x = view (addr n) x) :
    Lists cfg view' content n (Function.update addr n block) where
  list :=
    { count_le := H.list.count_le
      lt := fun i hi => by
        rcases Nat.eq_or_lt_of_le hi with rfl | hlt
        · rw [Function.update_self]
          exact hblock
        · rw [Function.update_of_ne (Nat.ne_of_lt hlt)]
          exact H.list.lt i hi
      readable := fun _ _ => rfl
      room := H.list.room
      pointer := fun i hi hne j hj => by
        have hpos := Nat.two_pow_pos j
        rw [Function.update_of_ne (show i - 2 ^ j ≠ n by omega)]
        refine Eq.trans (read_congr fun x hlo hhi => ?_) (H.list.pointer i hi hne j hj)
        rcases Nat.eq_or_lt_of_le hi with rfl | hlt
        · rw [Function.update_self]
          refine hlast x ?_
          have hlow := hend.low
          rw [pointers, if_neg hne] at hlow
          omega
        · rw [Function.update_of_ne (Nat.ne_of_lt hlt)]
          exact holder i hlt x }
  byte i pos x hholds h := by
    refine Eq.trans ?_ (H.byte i pos x hholds h)
    obtain ⟨hle, hx⟩ := hend.lt_off hholds h
    rcases Nat.eq_or_lt_of_le hle with rfl | hlt
    · rw [Function.update_self]
      exact hlast x (hx rfl)
    · rw [Function.update_of_ne (Nat.ne_of_lt hlt)]
      exact holder i hlt x

/-- A block with the pointers behind a full one. -/
theorem Lists.extend (H : Lists cfg view content n addr)
    (hend : EndsAt cfg content.length n cfg.blockSize) (hblock : block < cfg.blockCount)
    (hroom : 8 * pointers (n + 1) ≤ cfg.blockSize)
    (holder : ∀ i ≤ n, ∀ x, view' (addr i) x = view (addr i) x)
    (hpointer : ∀ j ≤ zeros (n + 1),
      ByteImage.read (view' block) (8 * j) 8 = toLe 8 (addr (n + 1 - 2 ^ j))) :
    Lists cfg view' content (n + 1) (Function.update addr (n + 1) block) where
  list :=
    { count_le := H.list.count_le
      lt := fun i hi => by
        rcases Nat.eq_or_lt_of_le hi with rfl | hlt
        · rw [Function.update_self]
          exact hblock
        · rw [Function.update_of_ne (Nat.ne_of_lt hlt)]
          exact H.list.lt i (Nat.le_of_lt_succ hlt)
      readable := fun _ _ => rfl
      room := fun i hi => by
        rcases Nat.eq_or_lt_of_le hi with rfl | hlt
        · exact hroom
        · exact H.list.room i (Nat.le_of_lt_succ hlt)
      pointer := fun i hi hne j hj => by
        have hpos := Nat.two_pow_pos j
        rw [Function.update_of_ne (show i - 2 ^ j ≠ n + 1 by omega)]
        rcases Nat.eq_or_lt_of_le hi with rfl | hlt
        · rw [Function.update_self]
          exact hpointer j hj
        · rw [Function.update_of_ne (Nat.ne_of_lt hlt)]
          refine Eq.trans (read_congr fun x _ _ => holder i (Nat.le_of_lt_succ hlt) x) ?_
          exact H.list.pointer i (Nat.le_of_lt_succ hlt) hne j hj }
  byte i pos x hholds h := by
    obtain ⟨hle, -⟩ := hend.lt_off hholds h
    rw [Function.update_of_ne (show i ≠ n + 1 by omega)]
    exact (holder i hle x).trans (H.byte i pos x hholds h)

theorem EndsAt.next (H : EndsAt cfg length n cfg.blockSize)
    (hroom : 8 * pointers (n + 1) ≤ cfg.blockSize) :
    EndsAt cfg length (n + 1) (8 * pointers (n + 1)) := by
  obtain ⟨hplace, hlow, -⟩ := H
  refine ⟨?_, Nat.le_refl _, hroom⟩
  rw [start_add_one]
  omega

/-- No byte is before the content of the first block. -/
theorem EndsAt.of_zero (H : EndsAt cfg 0 k off) (hB : 0 < cfg.blockSize) : k = 0 ∧ off = 0 := by
  obtain ⟨hplace, hlow, -⟩ := H
  obtain rfl : k = 0 := by
    cases k with
    | zero => rfl
    | succ k =>
      have hfirst : start 8 cfg.blockSize (0 + 1) ≤ start 8 cfg.blockSize (k + 1) :=
        start_mono (by omega)
      have hzero : start 8 cfg.blockSize (0 + 1) = cfg.blockSize := by
        rw [start_add_one, pointers, if_pos rfl, start]
        omega
      omega
  rw [start, pointers, if_pos rfl] at hplace
  exact ⟨rfl, by omega⟩

/-! ## The calls of `lfs_alloc` -/

/-- The blocks that pointer 0 leads to, from a block of index `n` on. -/
def chainBack (view : Nat → ByteImage.Image) : (n block : Nat) → List Nat
  | 0, block => [block]
  | n + 1, block => block :: chainBack view n (fromLe (ByteImage.read (view block) 0 8))

/-- The block that is written to has only pointers so far: `file->pos` is at the end of the block
before it. -/
def File.OnlyPointers (cfg : Config) (f : File) : Prop :=
  (ctzIndex cfg.blockSize (f.pos - 1)).2 + 1 = cfg.blockSize ∧ f.offset ≠ cfg.blockSize

instance (cfg : Config) (f : File) : Decidable (f.OnlyPointers cfg) :=
  inferInstanceAs (Decidable (_ ∧ _))

/-- The index of the block that is written to. -/
def File.lastIndex (cfg : Config) (f : File) : Nat :=
  if f.OnlyPointers cfg then (ctzIndex cfg.blockSize (f.pos - 1)).1 + 1
  else (ctzIndex cfg.blockSize (f.pos - 1)).1

/-- The blocks of a handle that no directory entry has yet: those of its list after a flush, and
those that are written to. -/
def State.uncommitted (cfg : Config) (s : State) : List Nat :=
  (if s.file.dirty ∧ s.file.isInline = false ∧ s.file.size ≠ 0 then
    chainBack (s.seen .file) (ctzIndex cfg.blockSize (s.file.size - 1)).1 s.file.head else []) ++
  if s.file.writing ∧ s.file.isInline = false ∧ s.file.pos ≠ 0 then
    chainBack (s.seen .file) (s.file.lastIndex cfg) s.file.block else []

/-- `lfs_ctz_traverse` finds a list of `size` bytes behind the block. -/
def Traversable (cfg : Config) (view : Nat → ByteImage.Image) (block size : Nat) : Prop :=
  ∃ addr, CtzList (cfg.disk view) (ctzIndex cfg.blockSize (size - 1)).1 addr ∧
    addr (ctzIndex cfg.blockSize (size - 1)).1 = block

/-- Through the cache of the file, `lfs_fs_rawtraverse` finds the lists of the handle. -/
structure SeesLists (cfg : Config) (f : File) (d : Nat → ByteImage.Image) : Prop where
  dirty : f.dirty → f.isInline = false → f.size ≠ 0 →
    Traversable cfg (seenThrough (some f.cache) d) f.head f.size
  writing : f.writing → f.isInline = false → f.pos ≠ 0 → ¬ f.OnlyPointers cfg →
    Traversable cfg (seenThrough (some f.cache) d) f.block f.pos

theorem chainBack_eq (H : CtzList (cfg.disk view) n addr) (hk : k ≤ n) :
    chainBack view k (addr k) = (List.range (k + 1)).reverse.map addr := by
  induction k with
  | zero => rfl
  | succ k ih =>
    have hread := H.pointer (k + 1) hk k.succ_ne_zero 0 (Nat.zero_le _)
    have hpointer : ByteImage.read (view (addr (k + 1))) 0 8 = toLe 8 (addr k) := hread
    rw [CtzList.reverse_range_succ, chainBack, hpointer, H.fromLe_addr (by omega), ih (by omega)]

theorem mem_chainBack (H : CtzList (cfg.disk view) k addr) (hi : i ≤ k) :
    addr i ∈ chainBack view k (addr k) := by
  rw [chainBack_eq H (Nat.le_refl k), List.mem_map]
  exact ⟨i, by simpa using Nat.lt_succ_of_le hi, rfl⟩

/-- What `lfs_alloc` returns and leaves of `lfs->read_cache`. -/
structure World.Allocates (w : World) (cfg : Config) (P : Nat → Prop) : Prop where
  block : ∀ clock s b, (w.alloc clock s).1 = .ok b →
    b < cfg.blockCount ∧ ¬ P b ∧ b ∉ s.uncommitted cfg
  cache : ∀ clock s, (w.alloc clock s).2 = s.readCache ∨
    (w.alloc clock s).2.block ≠ none ∧ (w.alloc clock s).2.Agrees s.disk

/-- In this state `lfs_alloc` is called as `A` asks, and returns no block of `Q`. -/
structure MayAlloc (cfg : Config) (w : World) (A : File → (Nat → ByteImage.Image) → Prop)
    (Q : Nat → Prop) (s : State) : Prop where
  met : A s.file s.disk
  block : ∀ b, (w.alloc s.clock s).1 = .ok b → b < cfg.blockCount ∧ ¬ Q b
  cache : (w.alloc s.clock s).2 = s.readCache ∨
    (w.alloc s.clock s).2.block ≠ none ∧ (w.alloc s.clock s).2.Agrees s.disk

theorem alloc_spec (H : MayAlloc cfg w A Q s) :
    Keeps (Allocs A) (alloc w) s fun res s' => Loaded s s' ∧
      (∀ b, res = .ok b → b < cfg.blockCount ∧ ¬ Q b) ∧
        ∀ e : DeviceError, res = .error e → e.code < 0 := by
  refine ⟨fun HA => ⟨fun f d he => ?_, ⟨⟨rfl, rfl, rfl⟩, H.cache⟩, fun b hb => H.block b hb,
    fun e _ => e.neg⟩⟩
  rcases List.mem_cons.mp he with heq | he
  · cases heq
    exact H.met
  · exact HA f d he

/-! ## Attempts -/

/-- How an attempt ends: with what `D` says, with an error, or so that another block is tried from a
state with `F`. -/
def Attempt.Ends (a : Attempt α) (D : α → Prop) (F : Prop) : Prop :=
  match a with
  | .done r => D r
  | .failed err => err < 0
  | .relocate => F

theorem Attempt.Ends.ofWrite {D : α → Prop} {F : Prop} (H : Code err) (h : err ≠ errOk) (hF : F) :
    (Attempt.ofWrite err : Attempt α).Ends D F := by
  rw [Attempt.ofWrite]
  split
  · exact hF
  · exact H.neg h

/-- What an attempt leaves that writes to the block through one of the caches. -/
structure Frame (cfg : Config) (slot : Slot) (block : Nat) (s s' : State) : Prop where
  sameBut : SameBut slot s s'
  kept : Kept (· ≠ block) s s'
  cache : s'.cache slot = s.cache slot ∨ (s'.cache slot).block = none ∨
    (s'.cache slot).block = some block
  reloads : 256 < cfg.cacheSize → Reloads s s'

variable {slot : Slot}

theorem Wrote.frame (H : Wrote cfg slot block off bytes s err s') (hblock : block < cfg.blockCount)
    (hend : off + bytes.length ≤ cfg.blockSize) : Frame cfg slot block s s' :=
  ⟨H.sameBut, H.kept, H.cache.imp And.right id, fun hlong => H.reloads hlong hblock hend⟩

theorem Frame.trans (h : Frame cfg slot block s s') (h' : Frame cfg slot block s' s'') :
    Frame cfg slot block s s'' := by
  refine ⟨h.sameBut.trans h'.sameBut, h.kept.trans h'.kept, ?_, fun hlong =>
    (h.reloads hlong).trans (h'.reloads hlong)⟩
  rcases h'.cache with heq | h'
  · rw [heq]
    exact h.cache
  · exact .inr h'

theorem Loaded.frame (h : Loaded s s') (slot : Slot) (block : Nat) : Frame cfg slot block s s' :=
  ⟨h.onlyReads.same.sameBut slot, h.kept _, .inl (h.cache slot), fun _ => h.reloads⟩

/-- An erase, also one that fails. -/
theorem bdErase_spec (cfg : Config) (slot : Slot) (block : Nat) :
    Keeps (Allocs A) (bdErase w block) s fun err s' =>
      Frame cfg slot block s s' ∧ Same s s' ∧ Code err := by
  refine ⟨fun HA => ⟨HA.cons rfl (fun h => by cases h), ⟨?_, ⟨fun b hb => ?_, .inl rfl⟩, ?_,
    fun _ => .inl rfl⟩, ⟨rfl, rfl⟩, code_resultOf _⟩⟩
  · cases slot <;> exact ⟨rfl, rfl⟩
  · exact Function.update_of_ne hb _ _
  · cases slot <;> exact .inl rfl

/-- Nothing of the block is in the cache. -/
theorem Filling.start (h : (s.cache slot).block ≠ some block) : Filling cfg slot block 0 s :=
  ⟨fun hblock => absurd hblock h, fun _ => ⟨Nat.dvd_zero _, .inl rfl⟩⟩

theorem Filling.kept (H : Filling cfg slot block off s) (h : Kept Q s s') (hQ : Q block)
    (hcache : s'.cache slot = s.cache slot) : Filling cfg slot block off s' := by
  refine ⟨fun hblock => ?_, fun hblock => ?_⟩ <;> rw [hcache] at hblock
  · obtain ⟨hdvd, hsum, hlt, hbelow⟩ := H.held hblock
    rw [hcache]
    exact ⟨hdvd, hsum, hlt, h.agreesBelow hQ hbelow⟩
  · exact (H.loose hblock).imp id (.imp id (h.agreesOn hQ))

theorem Filling.of_loaded (h : Loaded s s') (H : Filling cfg slot block off s) :
    Filling cfg slot block off s' := H.kept (h.kept fun _ => True) trivial (h.cache slot)

/-! ## The list of a file -/

/-- The content before the offset `off` of the current block is a list: the blocks before the
current one are on the device, and of that one the cache may have what is not there yet. -/
structure Chain (cfg : Config) (content : List UInt8) (k off : Nat) (addr : Nat → Nat)
    (s : State) : Prop where
  lists : Lists cfg (s.seen .file) content k addr
  ends : EndsAt cfg content.length k off
  room : ∀ i ≤ k, 8 * pointers i < cfg.blockSize
  fresh : ∀ i < k, addr i ≠ addr k
  older : ∀ i < k, AgreesBelow cfg.blockSize (addr i) s
  cache : s.file.cache.block = none ∨ s.file.cache.block = some (addr k)
  readable : Readable .file (addr k) off s

theorem Chain.not_has (H : Chain cfg content k off addr s) (hb : b ≠ addr k) :
    ¬ (s.cache .file).Has b x := fun hhas => by
  rcases H.cache with hnone | hblock
  · exact absurd (hnone.symm.trans hhas.1) (fun h => by cases h)
  · exact hb (Option.some.inj (hhas.1.symm.trans hblock))

theorem Chain.seen (H : Chain cfg content k off addr s) (hb : b ≠ addr k) :
    s.seen .file b = s.disk b := funext fun _ => seen_of_not_has (H.not_has hb)

/-- A list without bytes. -/
theorem Chain.nil (Hcfg : cfg.Fits) (hblock : addr 0 < cfg.blockCount)
    (hcache : s.file.cache.block = none ∨ s.file.cache.block = some (addr 0)) :
    Chain cfg [] 0 0 addr s where
  lists :=
    { list :=
        { count_le := Hcfg.count.trans (by decide)
          lt := fun i hi => by
            obtain rfl := Nat.le_zero.mp hi
            exact hblock
          readable := fun _ _ => rfl
          room := fun i hi => by
            obtain rfl := Nat.le_zero.mp hi
            exact Nat.zero_le _
          pointer := fun i hi hne => absurd (Nat.le_zero.mp hi) hne }
      byte := fun _ pos _ _ h => absurd h (Nat.not_lt_zero pos) }
  ends := ⟨rfl, Nat.zero_le _, Nat.zero_le _⟩
  room i hi := by
    obtain rfl := Nat.le_zero.mp hi
    exact Nat.lt_of_le_of_lt (Nat.zero_le _) Hcfg.blockSize
  fresh i hi := absurd hi (Nat.not_lt_zero i)
  older i hi := absurd hi (Nat.not_lt_zero i)
  cache := hcache
  readable x _ hx := absurd hx (by omega)

theorem Readable.kept (H : Readable .file block off s) (h : Kept Q s s') (hQ : Q block)
    (hcache : s'.file.cache = s.file.cache) : Readable .file block off s' := by
  rcases h.readCache with heq | hagrees
  · intro x hlo hx hhas hnot
    rw [State.cache, hcache] at hnot
    rw [heq, h.disk block hQ]
    rw [heq] at hhas
    exact H x hlo hx hhas hnot
  · exact fun x _ _ hhas _ => hagrees block hQ (x + 1) x (Nat.lt_succ_self x) hhas

/-- Nothing has happened to the blocks of the list. -/
theorem Chain.kept (Hcfg : cfg.Fits) (H : Chain cfg content k off addr s) (h : Kept Q s s')
    (hcache : s'.file.cache = s.file.cache) (hQ : content ≠ [] → ∀ i ≤ k, Q (addr i)) :
    Chain cfg content k off addr s' := by
  by_cases hnil : content = []
  · subst hnil
    obtain ⟨rfl, rfl⟩ := H.ends.of_zero (Nat.lt_of_le_of_lt (Nat.zero_le _) Hcfg.blockSize)
    exact .nil Hcfg (H.lists.list.lt 0 (Nat.le_refl 0)) (by rw [hcache]; exact H.cache)
  · have hQ := hQ hnil
    have hseen : ∀ i ≤ k, s'.seen .file (addr i) = s.seen .file (addr i) := fun i hi => by
      funext x
      rw [State.seen, State.cache, hcache, seenThrough, h.disk _ (hQ i hi)]
      rfl
    exact {
      lists := H.lists.of_eq H.ends hseen
      ends := H.ends
      room := H.room
      fresh := H.fresh
      older := fun i hi => h.agreesBelow (hQ i (Nat.le_of_lt hi)) (H.older i hi)
      cache := by rw [hcache]; exact H.cache
      readable := H.readable.kept h (hQ k (Nat.le_refl k)) hcache }

/-! ## The extension -/

/-- The list that is extended is on the device. -/
structure Source (cfg : Config) (content : List UInt8) (k off : Nat) (addr : Nat → Nat)
    (s : State) : Prop where
  lists : Lists cfg s.disk content k addr
  ends : EndsAt cfg content.length k off
  agrees : ∀ i ≤ k, AgreesBelow cfg.blockSize (addr i) s

theorem Source.kept (H : Source cfg content k off addr s) (h : Kept Q s s')
    (hQ : ∀ i ≤ k, Q (addr i)) : Source cfg content k off addr s' where
  lists := H.lists.of_eq H.ends fun i hi => h.disk _ (hQ i hi)
  ends := H.ends
  agrees i hi := h.agreesBelow (hQ i hi) (H.agrees i hi)

/-- The copy of an incomplete last block. -/
theorem extendCopy_spec (Hcfg : cfg.Fits) (hw : w.ProgramsLocal) (hblock : block < cfg.blockCount)
    (hne : head ≠ block) (hagrees : AgreesBelow cfg.blockSize head s)
    (hend : idx + n ≤ cfg.blockSize)
    (H : Filling cfg .file block idx s) :
    Keeps (Allocs A) (extendCopy cfg w head block noff n idx) s fun a s' =>
      a.Ends (fun r => r = (block, noff) ∧
        Wrote cfg .file block idx (ByteImage.read (s.disk head) idx n) s errOk s')
      (Frame cfg .file block s s') := by
  have hinline : block ≠ blockInline := Nat.ne_of_lt (hblock.trans_le Hcfg.count)
  induction n generalizing s idx with
  | zero => exact .pure ⟨rfl, .nil H⟩
  | succ n ih =>
    refine .bind (sharedRead_spec ..) fun res s₁ h => ?_
    obtain ⟨honly, hread, hfails⟩ := h
    cases res with
    | error err => exact .pure (hfails _ rfl)
    | ok data =>
      have hloaded := Loaded.of_read honly hread
      have hdata : data = ByteImage.read (s.disk head) idx 1 :=
        hread.bytes data rfl fun x _ hx hhas _ => hagrees x (by omega) hhas
      have hlen : data.length = 1 := by rw [hdata, ByteImage.length_read]
      refine .bind (bdWrite_spec hw Hcfg.read Hcfg.cache .file hinline data (H.of_loaded hloaded))
        fun err s₂ W => ?_
      have W := W.of_loaded hloaded
      have hframe := W.frame hblock (by omega)
      refine .ite (fun herr => .pure (.ofWrite W.code herr hframe)) fun herr => ?_
      obtain rfl : err = errOk := not_not.mp herr
      have hfilling := (W.done rfl).1
      rw [hlen] at hfilling
      refine .mono (ih (hframe.kept.agreesBelow hne hagrees) (by omega) hfilling) fun a s₃ h => ?_
      cases a with
      | done r =>
        obtain ⟨rfl, W'⟩ := h
        refine ⟨rfl, ?_⟩
        rw [Nat.add_comm n 1, ByteImage.read_append, ← hdata]
        rw [hframe.kept.disk head hne] at W'
        exact W.append (by rwa [hlen])
      | failed err => exact h
      | relocate => exact hframe.trans h

theorem getElem_read {m : ByteImage.Image} (h : i < (ByteImage.read m off n).length) :
    (ByteImage.read m off n)[i] = m (off + i) := by
  simp only [ByteImage.read, List.getElem_map, List.getElem_range]

theorem Wrote.read (W : Wrote cfg slot block off bytes s errOk s') :
    ByteImage.read (s'.seen slot block) off bytes.length = bytes := by
  refine List.ext_getElem (ByteImage.length_read ..) fun i hi hi' => ?_
  rw [getElem_read]
  exact (W.done rfl).2 i hi'

/-- The pointers of a block behind the list. -/
theorem extendPointers_spec (Hcfg : cfg.Fits) (hw : w.ProgramsLocal)
    (hblock : block < cfg.blockCount) (Hs : Source cfg content k off addr s)
    (hne : ∀ i ≤ k, addr i ≠ block) (hn : idx + n = zeros (k + 1) + 1)
    (hroom : 8 * pointers (k + 1) ≤ cfg.blockSize) (hnhead : 0 < n → nhead = addr (k + 1 - 2 ^ idx))
    (H : Filling cfg .file block (8 * idx) s) :
    Keeps (Allocs A) (extendPointers cfg w block (zeros (k + 1) + 1) n idx nhead) s fun a s' =>
      a.Ends (fun r => r = (block, 8 * (zeros (k + 1) + 1)) ∧ ∃ bytes, bytes.length = 8 * n ∧
        Wrote cfg .file block (8 * idx) bytes s errOk s' ∧ ∀ j, idx ≤ j → j < idx + n →
          ByteImage.read (s'.seen .file block) (8 * j) 8 = toLe 8 (addr (k + 1 - 2 ^ j)))
      (Frame cfg .file block s s') := by
  have hinline : block ≠ blockInline := Nat.ne_of_lt (hblock.trans_le Hcfg.count)
  induction n generalizing s idx nhead with
  | zero =>
    exact .pure ⟨rfl, [], rfl, .nil H, fun j hlo hhi => absurd hlo (by omega)⟩
  | succ n ih =>
    obtain rfl := hnhead n.succ_pos
    have hlen : (toLe 8 (addr (k + 1 - 2 ^ idx))).length = 8 := length_toLe ..
    rw [pointers_succ] at hroom
    refine .bind (bdWrite_spec hw Hcfg.read Hcfg.cache .file hinline _ H) fun err s₁ W => ?_
    have hframe := W.frame hblock (by omega)
    refine .ite (fun herr => .pure (.ofWrite W.code herr hframe)) fun herr => ?_
    obtain rfl : err = errOk := not_not.mp herr
    have Hs₁ := Hs.kept hframe.kept hne
    have hplaced := W.read
    have hfilling := (W.done rfl).1
    rw [hlen] at hplaced hfilling
    -- what the rest of the loop adds
    have hrest : ∀ {s₂ s₃ : State} {a : Attempt (Nat × Nat)}, Loaded s₁ s₂ →
        a.Ends (fun r => r = (block, 8 * (zeros (k + 1) + 1)) ∧ ∃ bytes, bytes.length = 8 * n ∧
          Wrote cfg .file block (8 * (idx + 1)) bytes s₂ errOk s₃ ∧
            ∀ j, idx + 1 ≤ j → j < idx + 1 + n →
              ByteImage.read (s₃.seen .file block) (8 * j) 8 = toLe 8 (addr (k + 1 - 2 ^ j)))
          (Frame cfg .file block s₂ s₃) →
        a.Ends (fun r => r = (block, 8 * (zeros (k + 1) + 1)) ∧
          ∃ bytes, bytes.length = 8 * (n + 1) ∧
            Wrote cfg .file block (8 * idx) bytes s errOk s₃ ∧ ∀ j, idx ≤ j → j < idx + (n + 1) →
              ByteImage.read (s₃.seen .file block) (8 * j) 8 = toLe 8 (addr (k + 1 - 2 ^ j)))
          (Frame cfg .file block s s₃) := by
      intro s₂ s₃ a hloaded h
      cases a with
      | done r =>
        obtain ⟨rfl, bytes, hlength, W', hbytes⟩ := h
        have W' := W'.of_loaded hloaded
        refine ⟨rfl, _, ?_, W.append (by rwa [hlen]), fun j hlo hhi => ?_⟩
        · rw [List.length_append, hlen, hlength]
          omega
        · rcases Nat.eq_or_lt_of_le hlo with rfl | hlt
          · exact (read_congr fun x _ hx => W'.before x (by omega)).trans hplaced
          · exact hbytes j hlt (by omega)
      | failed err => exact h
      | relocate => exact hframe.trans ((hloaded.frame _ _).trans h)
    refine .ite (fun hlast => ?_) fun hlast => ?_
    · -- the block that the last pointer leads to has the pointer that leads to the next one
      obtain ⟨hzeros, hlt⟩ := le_zeros_sub k.succ_ne_zero (show idx < zeros (k + 1) by omega)
      have hpow : 2 ^ (idx + 1) = 2 ^ idx + 2 ^ idx := by rw [Nat.pow_succ, Nat.mul_two]
      have hpos := Nat.two_pow_pos idx
      refine .bind (sharedRead_spec ..) fun res s₂ h => ?_
      obtain ⟨honly, hread, hfails⟩ := h
      cases res with
      | error err => exact .pure (hfails _ rfl)
      | ok bytes =>
        have hloaded := Loaded.of_read honly hread
        have hbytes : fromLe bytes = addr (k + 1 - 2 ^ (idx + 1)) := by
          rw [hread.bytes bytes rfl fun x _ hx hhas _ =>
            Hs₁.agrees _ (by omega) x (by omega) hhas]
          have hpointer := Hs₁.lists.list.pointer (k + 1 - 2 ^ idx) (by omega) (by omega) idx hzeros
          have hpointer : ByteImage.read (seenThrough none s₁.disk (addr (k + 1 - 2 ^ idx)))
            (8 * idx) 8 = _ := hpointer
          rw [hpointer, Hs₁.lists.list.fromLe_addr (by omega), hpow, Nat.sub_sub]
        refine .mono (ih (Hs₁.kept (hloaded.kept (· ≠ block)) hne) (by omega) (fun _ => hbytes)
          (.of_loaded hloaded hfilling)) fun a s₃ h => hrest hloaded h
    · refine .mono (ih Hs₁ (by omega) (fun hn => by omega) hfilling) fun a s₃ h =>
        hrest (.refl s₁) h

/-- Blocks whose bytes are on the device are seen there. -/
theorem Wrote.seen_of_ne (W : Wrote cfg slot block off bytes s err s') (hbytes : bytes ≠ [])
    (hne : b ≠ block) : s'.seen slot b = s.disk b := by
  funext x
  rw [seen_of_not_has fun hhas => ?_, W.kept.disk b hne]
  rcases W.cache with ⟨h, -⟩ | hnone | hblock
  · exact absurd h hbytes
  · exact absurd (hnone.symm.trans hhas.1) (fun h => by cases h)
  · exact hne (Option.some.inj (hhas.1.symm.trans hblock))

/-- The last block is copied. -/
theorem Source.copied (Hs : Source cfg content k off addr s) (hblock : block < cfg.blockCount)
    (hroom : ∀ i ≤ k, 8 * pointers i < cfg.blockSize) (hlow : 8 * pointers k < off)
    (hne : ∀ i ≤ k, addr i ≠ block)
    (W : Wrote cfg .file block 0 (ByteImage.read (s.disk (addr k)) 0 off) s errOk s') :
    Chain cfg content k off (Function.update addr k block) s' := by
  have hlen : (ByteImage.read (s.disk (addr k)) 0 off).length = off := ByteImage.length_read ..
  have hbytes : ByteImage.read (s.disk (addr k)) 0 off ≠ [] :=
    List.ne_nil_of_length_pos (by omega)
  have hupdate : ∀ i < k, Function.update addr k block i = addr i := fun i hi =>
    Function.update_of_ne (Nat.ne_of_lt hi) ..
  have hlast : Function.update addr k block k = block := Function.update_self ..
  refine ⟨Hs.lists.replace Hs.ends hblock (fun i hi x => ?_) fun x hx => ?_, Hs.ends,
    hroom, fun i hi => ?_, fun i hi => ?_, ?_, ?_⟩
  · rw [W.seen_of_ne hbytes (hne i (Nat.le_of_lt hi))]
  · have hplaced := (W.done rfl).2 x (by rwa [hlen])
    rw [Nat.zero_add] at hplaced
    rw [hplaced, getElem_read, Nat.zero_add]
  · rw [hupdate i hi, hlast]
    exact hne i (Nat.le_of_lt hi)
  · rw [hupdate i hi]
    exact W.kept.agreesBelow (hne i (Nat.le_of_lt hi)) (Hs.agrees i (Nat.le_of_lt hi))
  · rw [hlast]
    exact W.cache.resolve_left fun h => hbytes h.1
  · rw [hlast]
    have hreadable := (W.done rfl).1.readable
    rwa [hlen, Nat.zero_add] at hreadable

/-- A block is put behind the last one. -/
theorem Source.extended (Hs : Source cfg content k cfg.blockSize addr s)
    (hblock : block < cfg.blockCount) (hroom : ∀ i ≤ k + 1, 8 * pointers i < cfg.blockSize)
    (hne : ∀ i ≤ k, addr i ≠ block) (hlen : bytes.length = 8 * (zeros (k + 1) + 1))
    (W : Wrote cfg .file block 0 bytes s errOk s') (hpointer : ∀ j ≤ zeros (k + 1),
      ByteImage.read (s'.seen .file block) (8 * j) 8 = toLe 8 (addr (k + 1 - 2 ^ j))) :
    Chain cfg content (k + 1) (8 * pointers (k + 1)) (Function.update addr (k + 1) block) s' := by
  have hbytes : bytes ≠ [] := List.ne_nil_of_length_pos (by omega)
  have hupdate : ∀ i < k + 1, Function.update addr (k + 1) block i = addr i := fun i hi =>
    Function.update_of_ne (Nat.ne_of_lt hi) ..
  have hlast : Function.update addr (k + 1) block (k + 1) = block := Function.update_self ..
  have hroom' := Nat.le_of_lt (hroom (k + 1) (Nat.le_refl _))
  refine ⟨Hs.lists.extend Hs.ends hblock hroom' (fun i hi x => ?_) hpointer,
    Hs.ends.next hroom', hroom, fun i hi => ?_, fun i hi => ?_, ?_, ?_⟩
  · rw [W.seen_of_ne hbytes (hne i hi)]
  · rw [hupdate i hi, hlast]
    exact hne i (Nat.le_of_lt_succ hi)
  · rw [hupdate i hi]
    exact W.kept.agreesBelow (hne i (Nat.le_of_lt_succ hi)) (Hs.agrees i (Nat.le_of_lt_succ hi))
  · rw [hlast]
    exact W.cache.resolve_left fun h => hbytes h.1
  · rw [hlast, pointers_succ]
    have hreadable := (W.done rfl).1.readable
    rwa [hlen, Nat.zero_add] at hreadable

/-- What `lfs_ctz_extend` is called on: the blocks before a position that are on the device. -/
structure Extends (cfg : Config) (content : List UInt8) (k off : Nat) (addr : Nat → Nat)
    (head : Nat)
    (s : State) : Prop where
  length : cfg.Indexes (content.length + 1)
  source : content ≠ [] → Source cfg content k off addr s ∧ addr k = head ∧ 8 * pointers k < off
  cache : content = [] → s.file.cache.block = none

/-- What it returns: a new last block, filled up to the offset. -/
def Extended (cfg : Config) (content : List UInt8) (s : State) (r : Nat × Nat) : Prop :=
  ∃ k addr, addr k = r.1 ∧ Chain cfg content k r.2 addr s ∧ Filling cfg .file r.1 r.2 s ∧
    r.2 < cfg.blockSize

theorem extendTo_spec (Hcfg : cfg.Fits) (hw : w.ProgramsLocal) (hblock : block < cfg.blockCount)
    (He : Extends cfg content k off addr head s) (hne : content ≠ [] → ∀ i ≤ k, addr i ≠ block)
    (hcache : s.file.cache.block ≠ some block) :
    Keeps (Allocs A) (extendTo cfg w head content.length block) s fun a s' =>
      a.Ends (fun r => Extended cfg content s' r ∧ Frame cfg .file block s s' ∧ r.1 = block)
        (Frame cfg .file block s s') := by
  refine .bind (bdErase_spec cfg .file block) fun err s₁ h => ?_
  obtain ⟨hframe, hsame, hcode⟩ := h
  have hsame : s₁.file.cache = s.file.cache := hsame.cache .file
  refine .ite (fun herr => .pure (.ofWrite hcode herr hframe)) fun _ => .ite (fun hzero => ?_)
    fun hsize => ?_
  · obtain rfl := List.length_eq_zero_iff.mp hzero
    have hnone := He.cache rfl
    have hchain : Chain cfg [] 0 0 (fun _ => block) s₁ :=
      .nil Hcfg hblock (.inl (by rw [hsame]; exact hnone))
    refine .pure ⟨⟨0, fun _ => block, rfl, hchain, .start ?_, ?_⟩, hframe, rfl⟩
    · rw [State.cache, hsame]
      exact hcache
    · exact Nat.lt_of_le_of_lt (Nat.zero_le _) Hcfg.blockSize
  · have hnil : content ≠ [] := fun h => hsize (List.length_eq_zero_iff.mpr h)
    obtain ⟨Hs, rfl, hlow⟩ := He.source hnil
    have hne := hne hnil
    have hlength := He.length
    have hlast := Hs.ends.holds_last hlow
    obtain ⟨hindex, hoff⟩ := (hlength.exact (content.length - 1) (by omega)).unique hlast
    have Hs₁ := Hs.kept hframe.kept hne
    have hhigh := Hs.ends.high
    have hstart : Filling cfg .file block 0 s₁ := .start (by rw [State.cache, hsame]; exact hcache)
    dsimp only
    rw [hindex, hoff, Nat.sub_add_cancel (by omega)]
    refine .ite (fun hcopy => ?_) fun hfull => ?_
    · refine .mono (extendCopy_spec Hcfg hw hblock (hne k (Nat.le_refl k))
        (Hs₁.agrees k (Nat.le_refl k)) (by omega) hstart) fun a s₂ h => ?_
      cases a with
      | done r =>
        obtain ⟨rfl, W⟩ := h
        have hlen : (ByteImage.read (s₁.disk (addr k)) 0 off).length = off :=
          ByteImage.length_read ..
        have hfilling := (W.done rfl).1
        rw [hlen, Nat.zero_add] at hfilling
        have hroom : ∀ i ≤ k, 8 * pointers i < cfg.blockSize := fun i hi =>
          hlength.room i (((start_mono hi).trans Hs.ends.start_le).trans_lt (Nat.lt_succ_self _))
        exact ⟨⟨k, _, Function.update_self .., Hs₁.copied hblock hroom hlow hne W, hfilling,
          Nat.lt_of_le_of_ne hhigh hcopy⟩, hframe.trans (W.frame hblock (by omega)), rfl⟩
      | failed err => exact h
      | relocate => exact hframe.trans h
    · obtain rfl : off = cfg.blockSize := not_not.mp hfull
      have hnext := hlast.succ_start (Nat.sub_add_cancel (by omega))
      have hrooms : ∀ i ≤ k + 1, 8 * pointers i < cfg.blockSize := fun i hi =>
        hlength.room i ((start_mono hi).trans_lt (by rw [← hnext]; omega))
      have hroom := hrooms (k + 1) (Nat.le_refl _)
      have hk : k + 1 < 2 ^ 64 := by
        have hle := hlast.index_le_pos Hcfg.blockSize Hs.lists.list.room
        have hmax := hlength.le.trans Hcfg.maxSize
        rw [fileMax] at hmax
        omega
      have hskips : ctz64 (k + 1) = zeros (k + 1) := ctz64_eq k.succ_ne_zero hk
      rw [Nat.mod_eq_of_lt hk, hskips]
      refine .mono (extendPointers_spec Hcfg hw hblock Hs₁ hne (Nat.zero_add _)
        (Nat.le_of_lt hroom) (fun _ => rfl) hstart) fun a s₂ h => ?_
      cases a with
      | done r =>
        obtain ⟨rfl, bytes, hlen, W, hpointers⟩ := h
        have hfilling := (W.done rfl).1
        have Hc := Hs₁.extended hblock hrooms hne hlen W fun j hj =>
          hpointers j (Nat.zero_le j) (by omega)
        rw [hlen, Nat.mul_zero, Nat.zero_add] at hfilling
        rw [pointers_succ] at hroom Hc
        exact ⟨⟨k + 1, _, Function.update_self .., Hc, hfilling, hroom⟩,
          hframe.trans (W.frame hblock (by omega)), rfl⟩
      | failed err => exact h
      | relocate => exact hframe.trans h

/-! ## Bad blocks -/

/-- What is left by calls that write through one of the caches, to blocks outside of `Q` only. -/
structure Aside (cfg : Config) (Q : Nat → Prop) (slot : Slot) (s s' : State) : Prop where
  sameBut : SameBut slot s s'
  kept : Kept Q s s'
  reloads : 256 < cfg.cacheSize → Reloads s s'

theorem Aside.refl (cfg : Config) (Q : Nat → Prop) (slot : Slot) (s : State) :
    Aside cfg Q slot s s :=
  ⟨(Same.refl s).sameBut slot, .refl Q s, fun _ => .inl rfl⟩

theorem Aside.trans (h : Aside cfg Q slot s s') (h' : Aside cfg Q slot s' s'') :
    Aside cfg Q slot s s'' :=
  ⟨h.sameBut.trans h'.sameBut, h.kept.trans h'.kept,
    fun hlong => (h.reloads hlong).trans (h'.reloads hlong)⟩

theorem Frame.aside (h : Frame cfg slot block s s') (hQ : ¬ Q block) : Aside cfg Q slot s s' :=
  ⟨h.sameBut, h.kept.mono fun _ hb heq => hQ (heq ▸ hb), h.reloads⟩

theorem Loaded.aside (h : Loaded s s') (cfg : Config) (Q : Nat → Prop) (slot : Slot) :
    Aside cfg Q slot s s' :=
  ⟨h.onlyReads.same.sameBut slot, h.kept Q, fun _ => h.reloads⟩

theorem aside_setCache (cfg : Config) (Q : Nat → Prop) (s : State) (c : WriteCache) (slot : Slot) :
    Aside cfg Q slot s (s.setCache c slot) :=
  ⟨.setCache .., kept_setCache .., fun _ => .inl (by cases slot <;> rfl)⟩

theorem Extends.of_aside (He : Extends cfg content k off addr head s) (h : Aside cfg Q slot s s')
    (hQ : content ≠ [] → ∀ i ≤ k, Q (addr i))
    (hcache : s'.file.cache.block = s.file.cache.block ∨ s'.file.cache.block = none) :
    Extends cfg content k off addr head s' where
  length := He.length
  source hnil := by
    obtain ⟨Hs, hhead, hlow⟩ := He.source hnil
    exact ⟨Hs.kept h.kept (hQ hnil), hhead, hlow⟩
  cache hnil := hcache.elim (·.trans (He.cache hnil)) id

/-- **The extension of a list**, until a block takes its contents. -/
theorem ctzExtend_spec (Hcfg : cfg.Fits) (hw : w.ProgramsLocal)
    (He : Extends cfg content k off addr head s) (hQ : content ≠ [] → ∀ i ≤ k, Q (addr i))
    (hcache : ∀ b, s.file.cache.block = some b → Q b)
    (hfresh : ∀ s₁, Aside cfg Q .file s s₁ →
      s₁.file.cache = s.file.cache ∨ s₁.file.cache.block = none → MayAlloc cfg w A Q s₁)
    (fuel : Nat) :
    Keeps (Allocs A) (ctzExtend cfg w head content.length fuel) s fun res s' => Fails res ∧
      ∀ r, res = .ok r → Extended cfg content s' r ∧ Aside cfg Q .file s s' ∧ ¬ Q r.1 := by
  induction fuel generalizing s with
  | zero => exact .stop
  | succ fuel ih =>
    refine .bind (alloc_spec (hfresh s (.refl ..) (.inl rfl))) fun res s₁ h => ?_
    obtain ⟨hloaded, hok, herror⟩ := h
    cases res with
    | error err => exact .pure ⟨.error (herror _ rfl), fun _ h => by cases h⟩
    | ok block =>
      obtain ⟨hblock, hnot⟩ := hok block rfl
      have hcache₁ : s₁.file.cache = s.file.cache := hloaded.cache .file
      have haside := hloaded.aside cfg Q .file
      refine .bind (extendTo_spec Hcfg hw hblock
        (He.of_aside haside hQ (.inl (congrArg _ hcache₁)))
        (fun hnil i hi heq => hnot (heq ▸ hQ hnil i hi))
        (by rw [hcache₁]; exact fun h => hnot (hcache _ h))) fun a s₂ h => ?_
      cases a with
      | done r =>
        obtain ⟨hext, hframe, rfl⟩ := h
        refine .pure ⟨.ok _, fun r' hr => ?_⟩
        cases hr
        exact ⟨hext, haside.trans (hframe.aside hnot), hnot⟩
      | failed err => exact .pure ⟨.error h, fun _ h => by cases h⟩
      | relocate =>
        have h₂ := haside.trans (h.aside hnot)
        refine .modify_bind (fun HA => HA.of_events rfl) ?_
        have h₃ := h₂.trans (aside_setCache cfg Q s₂ s₂.file.cache.drop .file)
        refine .mono (ih (He.of_aside h₃ hQ (.inr rfl)) (fun b hb => by cases hb)
          fun s₄ h₄ hc => hfresh s₄ (h₃.trans h₄) (.inr ?_)) fun res s' H =>
            ⟨H.1, fun r hr => (H.2 r hr).imp id fun h => ⟨h₃.trans h.1, h.2⟩⟩
        rcases hc with hc | hc
        · rw [hc]
          rfl
        · exact hc

/-! ## Relocation -/

/-- A byte of the block that is copied over. -/
theorem relocateRead_spec (hinline : s.file.isInline = false)
    (hreadable : Readable .file s.file.block off s) (hi : i < off) (hint : Nat) :
    Keeps (Allocs A) (relocateRead cfg w hint i) s fun res s' => Fails res ∧
      ∀ data, res = .ok data → Loaded s s' ∧
        data = ByteImage.read (s.seen .file s.file.block) i 1 := by
  refine .get_bind (.ite (fun h => ?_) fun _ => ?_)
  · rw [hinline] at h
    cases h
  · refine .mono (sharedRead_spec ..) fun res s' h => ⟨h.2.2, fun data hdata => ?_⟩
    subst hdata
    refine ⟨.of_read h.1 h.2.1, h.2.1.bytes data rfl fun x _ hx hhas hnot => ?_⟩
    exact hreadable x (Nat.zero_le x) (by omega) hhas hnot

theorem relocateCopy_spec (Hcfg : cfg.Fits) (hw : w.ProgramsLocal)
    (hblock : block < cfg.blockCount) (hinline : s.file.isInline = false)
    (hreadable : Readable .file s.file.block (i + n) s) (hne : n ≠ 0 → s.file.block ≠ block)
    (hend : i + n ≤ cfg.blockSize) (H : Filling cfg .shared block i s) :
    Keeps (Allocs A) (relocateCopy cfg w block n i) s fun a s' =>
      a.Ends (fun _ => Wrote cfg .shared block i
          (ByteImage.read (s.seen .file s.file.block) i n) s errOk s')
        (Frame cfg .shared block s s') := by
  have hinline' : block ≠ blockInline := Nat.ne_of_lt (hblock.trans_le Hcfg.count)
  induction n generalizing s i with
  | zero => exact .pure (.nil H)
  | succ n ih =>
    have hne := hne n.succ_ne_zero
    refine .bind (relocateRead_spec hinline hreadable (by omega) (n + 1)) fun res s₁ h => ?_
    obtain ⟨hfails, hok⟩ := h
    cases res with
    | error err => exact .pure (hfails _ rfl)
    | ok data =>
      obtain ⟨hloaded, hdata⟩ := hok data rfl
      have hlen : data.length = 1 := by rw [hdata, ByteImage.length_read]
      refine .bind (bdWrite_spec hw Hcfg.read Hcfg.cache .shared hinline' data
        (H.of_loaded hloaded)) fun err s₂ W => ?_
      have W := W.of_loaded hloaded
      have hframe := W.frame hblock (by omega)
      refine .ite (fun herr => .pure (.ofWrite W.code herr hframe)) fun herr => ?_
      obtain rfl : err = errOk := not_not.mp herr
      have hfilling := (W.done rfl).1
      rw [hlen] at hfilling
      have hfile : s₂.file = s.file := W.sameBut.file
      have hseen : s₂.seen .file s.file.block = s.seen .file s.file.block := by
        funext x
        rw [State.seen, State.cache, hfile, seenThrough, W.kept.disk _ hne]
        rfl
      have hreadable₂ := hreadable.kept W.kept hne (congrArg _ hfile)
      refine .mono
        (ih (s := s₂) (by rw [hfile]; exact hinline) ?_ (by rw [hfile]; exact fun _ => hne)
        (by omega) hfilling) fun a s₃ h => ?_
      · rw [hfile, Nat.add_assoc, Nat.add_comm 1 n]
        exact hreadable₂
      cases a with
      | done r =>
        rw [hfile, hseen] at h
        change Wrote ..
        rw [Nat.add_comm n 1, ByteImage.read_append, ← hdata]
        exact W.append (by rw [hlen]; exact h)
      | failed err => exact h
      | relocate => exact hframe.trans h

/-- What is left of the file when its current block is replaced. -/
structure Relocated (cfg : Config) (Q : Nat → Prop) (content : List UInt8) (k off : Nat)
    (s s' : State) : Prop where
  file : s'.file =
    { s.file with cache := s'.file.cache, block := s'.file.block, writing := true }
  shared : s'.writeCache.block = none
  kept : Kept Q s s'
  reloads : 256 < cfg.cacheSize → Reloads s s'
  fresh : ¬ Q s'.file.block
  chain : ∃ addr, addr k = s'.file.block ∧ Chain cfg content k off addr s'
  filling : Filling cfg .file s'.file.block off s'

/-- The copy takes the place of the current block. -/
theorem Chain.relocated (Hcfg : cfg.Fits) (H : Chain cfg content k off addr s)
    (hblock : block < cfg.blockCount) (hne : content ≠ [] → ∀ i ≤ k, addr i ≠ block)
    (hshared : s.writeCache.block = none)
    (W : Wrote cfg .shared block 0 (ByteImage.read (s.seen .file (addr k)) 0 off) s errOk s') :
    Chain cfg content k off (Function.update addr k block) (s'.relocated block) ∧
      Filling cfg .file block off (s'.relocated block) := by
  have hlen : (ByteImage.read (s.seen .file (addr k)) 0 off).length = off :=
    ByteImage.length_read ..
  have hfilling := (W.done rfl).1
  rw [hlen, Nat.zero_add] at hfilling
  refine ⟨?_, hfilling.held, hfilling.loose⟩
  have hlast : Function.update addr k block k = block := Function.update_self ..
  by_cases hnil : content = []
  · subst hnil
    obtain ⟨rfl, rfl⟩ := H.ends.of_zero (Nat.lt_of_le_of_lt (Nat.zero_le _) Hcfg.blockSize)
    refine .nil Hcfg (by rwa [hlast]) ?_
    rw [hlast]
    rcases W.cache with ⟨-, hsame⟩ | hcache
    · exact .inl ((congrArg _ hsame).trans hshared)
    · exact hcache
  have hne := hne hnil
  have hoff : 0 < off := by
    refine Nat.pos_of_ne_zero fun hzero => hnil (List.length_eq_zero_iff.mp ?_)
    obtain ⟨hplace, hlow, -⟩ := H.ends
    have hstart := H.ends.start_le
    cases k with
    | zero =>
      rw [start, pointers, if_pos rfl] at hplace
      omega
    | succ k =>
      rw [pointers_succ] at hlow
      omega
  have hbytes : ByteImage.read (s.seen .file (addr k)) 0 off ≠ [] :=
    List.ne_nil_of_length_pos (by omega)
  have hupdate : ∀ i < k, Function.update addr k block i = addr i := fun i hi =>
    Function.update_of_ne (Nat.ne_of_lt hi) ..
  refine ⟨H.lists.replace H.ends hblock (fun i hi x => ?_) fun x hx => ?_, H.ends, H.room,
    fun i hi => ?_, fun i hi => ?_, ?_, ?_⟩
  · refine Eq.trans ?_ (congrFun (H.seen (H.fresh i hi)) x).symm
    exact congrFun (W.seen_of_ne hbytes (hne i (Nat.le_of_lt hi))) x
  · have hplaced := (W.done rfl).2 x (by rwa [hlen])
    rw [Nat.zero_add, getElem_read, Nat.zero_add] at hplaced
    exact hplaced
  · rw [hupdate i hi, hlast]
    exact hne i (Nat.le_of_lt hi)
  · rw [hupdate i hi]
    exact W.kept.agreesBelow (hne i (Nat.le_of_lt hi)) (H.older i hi)
  · rw [hlast]
    exact W.cache.resolve_left fun h => hbytes h.1
  · rw [hlast]
    exact hfilling.readable

theorem relocateTo_spec (Hcfg : cfg.Fits) (hw : w.ProgramsLocal)
    (H : Chain cfg content k off addr s) (hinline : s.file.isInline = false)
    (hhead : addr k = s.file.block) (hoff : s.file.offset = off) (hblock : block < cfg.blockCount)
    (hne : content ≠ [] → ∀ i ≤ k, addr i ≠ block) (hshared : s.writeCache.block = none) :
    Keeps (Allocs A) (relocateTo cfg w block) s fun a s' =>
      a.Ends (fun _ => Frame cfg .shared block s s' ∧
          Chain cfg content k off (Function.update addr k block) (s'.relocated block) ∧
          Filling cfg .file block off (s'.relocated block))
        (Frame cfg .shared block s s') := by
  refine .bind (bdErase_spec cfg .shared block) fun err s₁ h => ?_
  obtain ⟨hframe, hsame, hcode⟩ := h
  refine .ite (fun herr => .pure (.ofWrite hcode herr hframe)) fun _ => .get_bind ?_
  have H₁ := H.kept Hcfg hframe.kept (hsame.cache .file) hne
  have hshared₁ : s₁.writeCache.block = none := by rw [hsame.writeCache]; exact hshared
  have hstart : Filling cfg .shared block 0 s₁ := .start (by
    rw [State.cache, hshared₁]
    exact fun h => by cases h)
  have hzero : off ≠ 0 → content ≠ [] := fun hoff hnil => by
    subst hnil
    exact hoff (H.ends.of_zero (Nat.lt_of_le_of_lt (Nat.zero_le _) Hcfg.blockSize)).2
  have hhigh := H.ends.high
  rw [← hsame.file] at hinline hhead hoff
  rw [hoff]
  refine .mono (relocateCopy_spec Hcfg hw hblock hinline
    (by rw [Nat.zero_add, ← hhead]; exact H₁.readable)
    (fun hpos => by rw [← hhead]; exact hne (hzero hpos) k (Nat.le_refl k)) (by omega) hstart)
    fun a s₂ h => ?_
  cases a with
  | done r =>
    have W : Wrote .. := h
    have hlen : (ByteImage.read (s₁.seen .file s₁.file.block) 0 off).length = off :=
      ByteImage.length_read ..
    rw [← hhead] at W hlen
    exact ⟨hframe.trans (W.frame hblock (by omega)), H₁.relocated Hcfg hblock hne hshared₁ W⟩
  | failed err => exact h
  | relocate => exact hframe.trans h

/-- **The relocation of the current block**, until a block takes its contents. -/
theorem relocate_spec (Hcfg : cfg.Fits) (hw : w.ProgramsLocal) (H : Chain cfg content k off addr s)
    (hinline : s.file.isInline = false) (hhead : addr k = s.file.block)
    (hoff : s.file.offset = off) (hQ : content ≠ [] → ∀ i ≤ k, Q (addr i))
    (hshared : s.writeCache.block = none)
    (hfresh : ∀ s₁, Aside cfg Q .shared s s₁ → MayAlloc cfg w A Q s₁) (fuel : Nat) :
    Keeps (Allocs A) (relocate cfg w fuel) s fun err s' => Code err ∧
      (err = errOk → Relocated cfg Q content k off s s') := by
  induction fuel generalizing s with
  | zero => exact .stop
  | succ fuel ih =>
    refine .bind (alloc_spec (hfresh s (.refl ..))) fun res s₁ h => ?_
    obtain ⟨hloaded, hok, herror⟩ := h
    cases res with
    | error err =>
      have hneg := herror _ rfl
      exact .pure ⟨.of_neg hneg, fun h => absurd h (Int.ne_of_lt hneg)⟩
    | ok block =>
      obtain ⟨hblock, hnot⟩ := hok block rfl
      have hne : content ≠ [] → ∀ i ≤ k, addr i ≠ block := fun hnil i hi heq =>
        hnot (heq ▸ hQ hnil i hi)
      have hfile : s₁.file = s.file := hloaded.onlyReads.file
      have haside := hloaded.aside cfg Q .shared
      have H₁ := H.kept Hcfg (hloaded.kept Q) (congrArg _ hfile) hQ
      refine .bind (relocateTo_spec Hcfg hw H₁ (by rwa [hfile]) (by rwa [hfile]) (by rwa [hfile])
        hblock hne (by rwa [hloaded.onlyReads.writeCache])) fun a s₂ h => ?_
      cases a with
      | done r =>
        obtain ⟨hframe, hchain, hfilling⟩ := h
        have h₂ := haside.trans (hframe.aside hnot)
        have hfile₂ : s₂.file = s.file := h₂.sameBut.file
        refine .modify_bind (fun HA => HA.of_events rfl) (.pure ⟨.ok, fun _ => ?_⟩)
        exact {
          file := by rw [State.relocated, hfile₂]
          shared := rfl
          kept := ⟨h₂.kept.disk, h₂.kept.readCache⟩
          reloads := h₂.reloads
          fresh := hnot
          chain := ⟨_, Function.update_self .., hchain⟩
          filling := hfilling }
      | failed err => exact .pure ⟨.of_neg h, fun he => absurd he (Int.ne_of_lt h)⟩
      | relocate =>
        have h₂ := haside.trans (h.aside hnot)
        have h₃ := h₂.trans (aside_setCache cfg Q s₂ s₂.writeCache.drop .shared)
        have hfile₃ : s₂.file = s.file := h₂.sameBut.file
        refine .modify_bind (fun HA => HA.of_events rfl) ?_
        refine .mono (ih (s := { s₂ with writeCache := s₂.writeCache.drop })
          (H.kept Hcfg h₃.kept (congrArg _ hfile₃) hQ) ?_ ?_ ?_ rfl
          fun s₄ h₄ => hfresh s₄ (h₃.trans h₄)) fun err s' R => ⟨R.1, fun herr => ?_⟩
        · exact hfile₃ ▸ hinline
        · exact hfile₃ ▸ hhead
        · exact hfile₃ ▸ hoff
        · obtain ⟨hfile', hshared', hkept', hreloads', hfresh', hchain', hfilling'⟩ := R.2 herr
          refine ⟨?_, hshared', h₃.kept.trans hkept', fun hlong =>
            (h₃.reloads hlong).trans (hreloads' hlong), hfresh', hchain', hfilling'⟩
          rw [hfile']
          dsimp only
          rw [hfile₃]

end FileIo

end LittleFs
