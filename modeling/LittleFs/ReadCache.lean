import LittleFs.RawDevice
import LittleFs.WriteCache

/-! `lfs_bd_read`: a read from a block goes through the write cache, in which the newest bytes are,
and the read cache, which it fills on the way. -/

namespace LittleFs

/-! ## Caches -/

structure ReadConfig extends CacheConfig where
  readSize : Nat
  deriving DecidableEq, Repr

/-- What `lfs_init` asks of the sizes. -/
structure ReadConfig.Ok (cfg : ReadConfig) : Prop where
  readSize : 0 < cfg.readSize
  cacheSize : 0 < cfg.cacheSize
  readSize_dvd : cfg.readSize ∣ cfg.cacheSize
  cacheSize_dvd : cfg.cacheSize ∣ cfg.blockSize

/-- What a cache has of a request: its first bytes, or none of so many bytes. -/
inductive CacheLookup where
  | hit (bytes : List UInt8)
  | miss (diff : Nat)

/-- The check of a cache for `diff` bytes from `offset` on. -/
def WriteCache.lookup (c : WriteCache) (block offset diff : Nat) : CacheLookup :=
  if c.block = some block ∧ offset < c.offset + c.size then
    if c.offset ≤ offset then
      .hit (ByteImage.read c.buffer (offset - c.offset) (min diff (c.size - (offset - c.offset))))
    -- the cache takes priority
    else .miss (min diff (c.offset - offset))
  else .miss diff

/-- The check of the write cache, where there is one. -/
def writtenLookup (w : Option WriteCache) (block offset size : Nat) : CacheLookup :=
  match w with
  | some w => w.lookup block offset size
  | none => .miss size

/-- The window that is loaded for a read. -/
def WriteCache.window (cfg : ReadConfig) (r : WriteCache) (hint block offset : Nat) : WriteCache :=
  let start := offset - offset % cfg.readSize
  { r with
    block := some block
    offset := start
    size := min
      ((min (alignup64 ((offset + hint) % 2 ^ 64) cfg.readSize) cfg.blockSize + 2 ^ 64 - start)
        % 2 ^ 64)
      cfg.cacheSize }

def WriteCache.fill (r : WriteCache) (bytes : List UInt8) : WriteCache :=
  { r with buffer := ByteImage.write r.buffer 0 bytes }

/-- How one round of the loop of `lfs_bd_read` ends. -/
inductive ReadRound where
  | failed (err : Int) (r : WriteCache)
  | copied (bytes : List UInt8) (r : WriteCache)
  | loaded (r : WriteCache)

/-- The load of the window, which is in place before the device is read. -/
def loadCache (rawread : RawRead) (block : Nat) (r : WriteCache) : ReadRound :=
  match rawread block r.offset r.size with
  | .error (err, bytes) => .failed err (r.fill bytes)
  | .ok bytes => .loaded (r.fill bytes)

/-- One round of the loop, for `size` bytes that are left. -/
def readRound (cfg : ReadConfig) (rawread : RawRead) (w : Option WriteCache)
    (hint block offset size : Nat) (r : WriteCache) : ReadRound :=
  match writtenLookup w block offset size with
  | .hit bytes => .copied bytes r
  | .miss diff =>
    match r.lookup block offset diff with
    | .hit bytes => .copied bytes r
    | .miss diff =>
      if hint ≤ size ∧ offset % cfg.readSize = 0 ∧ cfg.readSize ≤ size then
        -- bypass cache?
        match rawread block offset (diff - diff % cfg.readSize) with
        | .error (err, _) => .failed err r
        | .ok bytes => .copied bytes r
      else
        -- load to cache, first condition can no longer fail
        loadCache rawread block (r.window cfg hint block offset)

/-- The loop of `lfs_bd_read`; `none` when the fuel does not last. -/
def readLoop (cfg : ReadConfig) (rawread : RawRead) (w : Option WriteCache) (hint block : Nat) :
    (fuel offset size : Nat) → WriteCache → Option (Except Int (List UInt8) × WriteCache)
  | 0, _, _, _ => none
  | fuel + 1, offset, size, r =>
    if size = 0 then some (.ok [], r)
    else match readRound cfg rawread w hint block offset size r with
      | .failed err r => some (.error err, r)
      | .loaded r => readLoop cfg rawread w hint block fuel offset size r
      | .copied bytes r =>
        (readLoop cfg rawread w hint block fuel (offset + bytes.length) (size - bytes.length) r).map
          fun (rest, r) => (rest.map (bytes ++ ·), r)

/-- `lfs_bd_read`. -/
def cachedRead (cfg : ReadConfig) (rawread : RawRead) (w : Option WriteCache)
    (hint block fuel offset size : Nat) (r : WriteCache) :
    Option (Except Int (List UInt8) × WriteCache) :=
  if block ≥ cfg.blockCount ∨ offset + size > cfg.blockSize then some (.error errCorrupt, r)
  else readLoop cfg rawread w hint block fuel offset size r

/-! ## What a lookup finds -/

/-- The cache has the byte. -/
def WriteCache.Has (c : WriteCache) (block i : Nat) : Prop :=
  c.block = some block ∧ c.offset ≤ i ∧ i < c.offset + c.size

instance (c : WriteCache) : Decidable (c.Has block i) := inferInstanceAs (Decidable (_ ∧ _))

/-- The bytes of a block when a cache takes priority over the device. -/
def seenThrough (w : Option WriteCache) (content : Nat → ByteImage.Image) (block : Nat) :
    ByteImage.Image := fun i =>
  match w with
  | some w => if w.Has block i then w.buffer (i - w.offset) else content block i
  | none => content block i

variable {cfg : ReadConfig} {rawread : RawRead} {content : Nat → ByteImage.Image}
  {w : Option WriteCache} {hint block offset size diff : Nat} {r : WriteCache}

theorem WriteCache.lookup_hit {c : WriteCache} (h : c.lookup block offset diff = .hit bytes)
    (hpos : 0 < diff) :
    0 < bytes.length ∧ bytes.length ≤ diff ∧
      bytes = ByteImage.read c.buffer (offset - c.offset) bytes.length ∧
      ∀ i, offset ≤ i → i < offset + bytes.length → c.Has block i := by
  rw [WriteCache.lookup] at h
  split at h
  · rename_i hblock
    split at h
    · rename_i hle
      cases h
      rw [ByteImage.length_read]
      refine ⟨by omega, by omega, rfl, fun i hlo hhi => ⟨hblock.1, by omega, by omega⟩⟩
    · cases h
  · cases h

theorem WriteCache.lookup_miss {c : WriteCache} (h : c.lookup block offset diff = .miss diff')
    (hpos : 0 < diff) :
    0 < diff' ∧ diff' ≤ diff ∧
      (diff' = diff ∨ c.block = some block ∧ offset + diff' = c.offset) ∧
      ∀ i, offset ≤ i → i < offset + diff' → ¬ c.Has block i := by
  rw [WriteCache.lookup] at h
  split at h
  · rename_i hblock
    split at h
    · cases h
    · cases h
      refine ⟨by omega, by omega, ?_, fun i hlo hhi hhas => ?_⟩
      · rcases Nat.le_total diff (c.offset - offset) with hle | hle
        · exact .inl (Nat.min_eq_left hle)
        · exact .inr ⟨hblock.1, by omega⟩
      have hge := hhas.2.1
      omega
  · rename_i hout
    cases h
    refine ⟨hpos, Nat.le_refl _, .inl rfl, fun i hlo hhi hhas => hout ⟨hhas.1, ?_⟩⟩
    have hlt := hhas.2.2
    omega

/-! ## The rounds -/

/-- The cache holds bytes of the device. -/
def WriteCache.Agrees (content : Nat → ByteImage.Image) (r : WriteCache) : Prop :=
  ∀ block i, r.Has block i → r.buffer (i - r.offset) = content block i

/-- What the device returns is what it holds. -/
def Faithful (rawread : RawRead) (content : Nat → ByteImage.Image) : Prop :=
  ∀ block off size bytes, rawread block off size = .ok bytes →
    bytes = ByteImage.read (content block) off size

theorem read_congr {m m' : ByteImage.Image} (h : ∀ i, off ≤ i → i < off + size → m i = m' i) :
    ByteImage.read m off size = ByteImage.read m' off size := by
  refine List.map_congr_left fun i hi => h _ (Nat.le_add_right ..) ?_
  have := List.mem_range.mp hi
  omega

theorem seenThrough_of_not_has (hnot : ∀ c ∈ w, ¬ c.Has block i) :
    seenThrough w content block i = content block i := by
  cases w with
  | none => rfl
  | some c => exact if_neg (hnot c rfl)

theorem WriteCache.Agrees.fill (hfaithful : Faithful rawread content)
    (h : rawread block r.offset r.size = .ok bytes) (hblock : r.block = some block) :
    (r.fill bytes).Agrees content := by
  rintro block' i ⟨hblock', hle, hlt⟩
  obtain rfl : block = block' := Option.some.inj (hblock.symm.trans hblock')
  obtain rfl := hfaithful _ _ _ _ h
  have hread := congrArg (·[i - r.offset]?) (ByteImage.read_write r.buffer 0
    (ByteImage.read (content block) r.offset r.size))
  simp only [ByteImage.length_read, ByteImage.getElem?_read, Nat.zero_add] at hread
  change i < r.offset + r.size at hlt
  change r.offset ≤ i at hle
  rw [if_pos (by omega), if_pos (by omega), Nat.add_sub_cancel' hle] at hread
  exact Option.some.inj hread

/-- The round fills the cache. -/
def Fills (cfg : ReadConfig) (w : Option WriteCache) (hint block offset size : Nat)
    (r : WriteCache) : Prop :=
  (∀ c ∈ w, ¬ c.Has block offset) ∧ ¬ r.Has block offset ∧
    ¬ (hint ≤ size ∧ offset % cfg.readSize = 0 ∧ cfg.readSize ≤ size)

theorem WriteCache.lookup_of_not_has {c : WriteCache} (h : ¬ c.Has block offset) (diff : Nat) :
    ∃ diff', c.lookup block offset diff = .miss diff' := by
  rw [WriteCache.lookup]
  split
  · rw [if_neg fun hle => h ⟨by tauto, hle, by tauto⟩]
    exact ⟨_, rfl⟩
  · exact ⟨_, rfl⟩

theorem writtenLookup_of_not_has (h : ∀ c ∈ w, ¬ c.Has block offset) (size : Nat) :
    ∃ diff, writtenLookup w block offset size = .miss diff := by
  cases w with
  | none => exact ⟨_, rfl⟩
  | some c => exact WriteCache.lookup_of_not_has (h c rfl) size

/-- The round that fills the cache. -/
theorem Fills.round (H : Fills cfg w hint block offset size r) (rawread : RawRead) :
    readRound cfg rawread w hint block offset size r =
      loadCache rawread block (r.window cfg hint block offset) := by
  obtain ⟨hw, hr, hdirect⟩ := H
  obtain ⟨diff, hdiff⟩ := writtenLookup_of_not_has hw size
  obtain ⟨diff', hdiff'⟩ := WriteCache.lookup_of_not_has hr diff
  unfold readRound
  rw [hdiff]
  dsimp only
  rw [hdiff']
  dsimp only
  rw [if_neg hdirect]

/-- The cases of a round: the bytes come from a cache or from the device, or a cache is filled. -/
inductive RoundKind (cfg : ReadConfig) (rawread : RawRead) (w : Option WriteCache)
    (hint block offset size : Nat) (r : WriteCache) : ReadRound → Prop
  | written (hw : w = some c) (hhit : c.lookup block offset size = .hit bytes) :
      RoundKind cfg rawread w hint block offset size r (.copied bytes r)
  | cached {diff : Nat} (hdiff : 0 < diff ∧ diff ≤ size)
      (hnot : ∀ c ∈ w, ∀ i, offset ≤ i → i < offset + diff → ¬ c.Has block i)
      (hhit : r.lookup block offset diff = .hit bytes) :
      RoundKind cfg rawread w hint block offset size r (.copied bytes r)
  | direct {diff : Nat} (hdiff : 0 < diff ∧ diff ≤ size)
      (hnot : ∀ c ∈ w, ∀ i, offset ≤ i → i < offset + diff → ¬ c.Has block i)
      (hends : diff = size ∨ ∃ c : WriteCache, (c ∈ w ∨ c = r) ∧ c.block = some block ∧
        offset + diff = c.offset)
      (haligned : offset % cfg.readSize = 0 ∧ cfg.readSize ≤ size)
      (hread : rawread block offset (diff - diff % cfg.readSize) = .ok bytes) :
      RoundKind cfg rawread w hint block offset size r (.copied bytes r)
  | directFailed {diff : Nat} (hdiff : 0 < diff ∧ diff ≤ size)
      (hread : rawread block offset (diff - diff % cfg.readSize) = .error (err, bytes)) :
      RoundKind cfg rawread w hint block offset size r (.failed err r)
  | filled (hfills : Fills cfg w hint block offset size r)
      (hread : rawread block (r.window cfg hint block offset).offset
        (r.window cfg hint block offset).size = .ok bytes) :
      RoundKind cfg rawread w hint block offset size r
        (.loaded ((r.window cfg hint block offset).fill bytes))
  | fillFailed (hfills : Fills cfg w hint block offset size r)
      (hread : rawread block (r.window cfg hint block offset).offset
        (r.window cfg hint block offset).size = .error (err, bytes)) :
      RoundKind cfg rawread w hint block offset size r
        (.failed err ((r.window cfg hint block offset).fill bytes))

/-- What the write cache leaves of a request. -/
theorem written_miss (hsize : 0 < size)
    (h : writtenLookup w block offset size = .miss diff) :
    (0 < diff ∧ diff ≤ size) ∧
      (diff = size ∨ ∃ c ∈ w, c.block = some block ∧ offset + diff = c.offset) ∧
      ∀ c ∈ w, ∀ i, offset ≤ i → i < offset + diff → ¬ c.Has block i := by
  cases w with
  | none =>
    cases h
    exact ⟨⟨hsize, Nat.le_refl _⟩, .inl rfl, fun c hc => by cases hc⟩
  | some c =>
    obtain ⟨hpos, hle, hends, hnot⟩ := WriteCache.lookup_miss h hsize
    refine ⟨⟨hpos, hle⟩, hends.imp_right fun h => ⟨c, rfl, h⟩, fun c' hc' => ?_⟩
    cases hc'
    exact hnot

theorem readRound_kind (cfg : ReadConfig) (rawread : RawRead) (w : Option WriteCache)
    (hint block offset : Nat) (r : WriteCache) (hsize : 0 < size) :
    RoundKind cfg rawread w hint block offset size r
      (readRound cfg rawread w hint block offset size r) := by
  unfold readRound
  split
  · rename_i bytes hwritten
    cases w with
    | none => cases hwritten
    | some c => exact .written rfl hwritten
  · rename_i diff hwritten
    obtain ⟨hdiff, hends, hnot⟩ := written_miss hsize hwritten
    split
    · exact .cached hdiff hnot ‹_›
    · rename_i diff' hcached
      obtain ⟨hpos, hle, hends', hnot'⟩ := WriteCache.lookup_miss hcached hdiff.1
      split
      · rename_i hdirect
        split
        · exact .directFailed ⟨hpos, hle.trans hdiff.2⟩ ‹_›
        · refine .direct ⟨hpos, hle.trans hdiff.2⟩
            (fun c hc i hlo hhi => hnot c hc i hlo (by omega))
            ?_ hdirect.2 ‹_›
          rcases hends' with rfl | h
          · exact hends.imp_right fun ⟨c, hc, h⟩ => ⟨c, .inl hc, h⟩
          · exact .inr ⟨r, .inr rfl, h⟩
      · rename_i hdirect
        have hfills : Fills cfg w hint block offset size r :=
          ⟨fun c hc => hnot c hc offset (Nat.le_refl _) (by omega),
            hnot' offset (Nat.le_refl _) (by omega), hdirect⟩
        rw [loadCache]
        split
        · exact .fillFailed hfills ‹_›
        · exact .filled hfills ‹_›

/-! ## What a read returns -/

/-- Bytes of a buffer under their offsets in the block. -/
theorem WriteCache.read_buffer {c : WriteCache} {m : ByteImage.Image} {n : Nat}
    (h : ∀ i, offset ≤ i → i < offset + n → c.offset ≤ i ∧ c.buffer (i - c.offset) = m i) :
    ByteImage.read c.buffer (offset - c.offset) n = ByteImage.read m offset n := by
  refine List.map_congr_left fun i hi => ?_
  have hlt := List.mem_range.mp hi
  have hle := (h offset (Nat.le_refl _) (by omega)).1
  rw [← (h (offset + i) (Nat.le_add_right ..) (by omega)).2, Nat.sub_add_comm hle]

/-- A round that copies takes the newest bytes. -/
theorem readRound_copied (hfaithful : Faithful rawread content) (H : r.Agrees content)
    (hsize : 0 < size) (h : readRound cfg rawread w hint block offset size r = .copied bytes r') :
    r' = r ∧ bytes.length ≤ size ∧
      bytes = ByteImage.read (seenThrough w content block) offset bytes.length := by
  have hkind := readRound_kind cfg rawread w hint block offset r hsize
  rw [h] at hkind
  cases hkind with
  | @written c _ hw hhit =>
    obtain ⟨-, hle, hbytes, hhas⟩ := WriteCache.lookup_hit hhit hsize
    refine ⟨rfl, hle, hbytes.trans (WriteCache.read_buffer fun i hlo hhi => ?_)⟩
    have hhas := hhas i hlo hhi
    rw [hw]
    exact ⟨hhas.2.1, (if_pos hhas).symm⟩
  | cached hdiff hnot hhit =>
    obtain ⟨-, hle, hbytes, hhas⟩ := WriteCache.lookup_hit hhit hdiff.1
    refine ⟨rfl, hle.trans hdiff.2, hbytes.trans (WriteCache.read_buffer fun i hlo hhi => ?_)⟩
    have hhas := hhas i hlo hhi
    rw [seenThrough_of_not_has fun c hc => hnot c hc i hlo (by omega)]
    exact ⟨hhas.2.1, H block i hhas⟩
  | direct hdiff hnot hends haligned hread =>
    have hbytes := hfaithful _ _ _ _ hread
    have hlength := congrArg List.length hbytes
    rw [ByteImage.length_read] at hlength
    refine ⟨rfl, by omega, ?_⟩
    rw [hlength]
    refine hbytes.trans (read_congr fun i hlo hhi => ?_)
    exact (seenThrough_of_not_has fun c hc => hnot c hc i hlo (by omega)).symm

theorem readRound_loaded (hfaithful : Faithful rawread content) (hsize : 0 < size)
    (h : readRound cfg rawread w hint block offset size r = .loaded r') : r'.Agrees content := by
  have hkind := readRound_kind cfg rawread w hint block offset r hsize
  rw [h] at hkind
  cases hkind with
  | filled hfills hread => exact WriteCache.Agrees.fill hfaithful hread rfl

/-- **A read from an agreeing cache.** When it succeeds it returns the newest bytes, and the cache
agrees with the device. -/
theorem readLoop_newest (hfaithful : Faithful rawread content) (H : r.Agrees content)
    (h : readLoop cfg rawread w hint block fuel offset size r = some (.ok bytes, r')) :
    bytes = ByteImage.read (seenThrough w content block) offset size ∧ r'.Agrees content := by
  induction fuel generalizing offset size r bytes with
  | zero => cases h
  | succ fuel ih =>
    rw [readLoop] at h
    split at h
    · subst size
      cases h
      exact ⟨rfl, H⟩
    · rename_i hne
      have hsize := Nat.pos_of_ne_zero hne
      split at h
      · cases h
      · rename_i r₁ hround
        exact ih (readRound_loaded hfaithful hsize hround) h
      · rename_i copied r₁ hround
        obtain ⟨rfl, hle, hcopied⟩ := readRound_copied hfaithful H hsize hround
        obtain ⟨⟨res, r₂⟩, hrest, heq⟩ := Option.map_eq_some_iff.mp h
        cases res with
        | error err => cases heq
        | ok rest =>
          cases heq
          obtain ⟨hbytes, H'⟩ := ih H hrest
          refine ⟨?_, H'⟩
          rw [← Nat.add_sub_cancel' hle, ByteImage.read_append, ← hbytes, ← hcopied]

/-! ## Reads without errors -/

/-- The window of the cache starts at a multiple of the read size. -/
def WriteCache.Aligned (cfg : ReadConfig) (c : WriteCache) : Prop :=
  ∀ block, c.block = some block → cfg.readSize ∣ c.offset

/-- A read of whole read units within a block succeeds. -/
def Answers (cfg : ReadConfig) (rawread : RawRead) : Prop :=
  ∀ block off size, block < cfg.blockCount → off + size ≤ cfg.blockSize →
    size % cfg.readSize = 0 → ∃ bytes, rawread block off size = .ok bytes

theorem alignup64_spec (h : 0 < alignment) (hlt : a + alignment ≤ 2 ^ 64) :
    a ≤ alignup64 a alignment ∧ alignment ∣ alignup64 a alignment ∧
      alignup64 a alignment < 2 ^ 64 := by
  have hmod : (a + alignment + (2 ^ 64 - 1)) % 2 ^ 64 = a + alignment - 1 := by omega
  rw [alignup64, hmod]
  have hlt' := Nat.mod_lt (a + alignment - 1) h
  refine ⟨by omega, ⟨(a + alignment - 1) / alignment, ?_⟩, by omega⟩
  have := Nat.div_add_mod (a + alignment - 1) alignment
  omega

theorem sub_wrap {W : Nat} (h : a ≤ b) (hlt : b < W) : (b + W - a) % W = b - a := by
  rw [Nat.sub_add_comm h, Nat.add_mod_right, Nat.mod_eq_of_lt (by omega)]

theorem dvd_min {a b : Nat} (ha : k ∣ a) (hb : k ∣ b) : k ∣ min a b := by
  rcases Nat.le_total a b with h | h
  · rwa [Nat.min_eq_left h]
  · rwa [Nat.min_eq_right h]

/-- A window of whole units around an offset, cut to a block and a cache. -/
theorem clip_spec {unit stop limit most : Nat} (hunit : 0 < unit) (hmost : 0 < most)
    (hmostdvd : unit ∣ most) (hlimitdvd : unit ∣ limit) (hstopdvd : unit ∣ stop)
    (hstop : offset < stop) (hlimit : offset < limit)
    (hstart : start = offset - offset % unit) (hsize : size = min (min stop limit - start) most) :
    unit ∣ start ∧ unit ∣ size ∧ start ≤ offset ∧ offset < start + size ∧ start + size ≤ limit := by
  have hstartdvd : unit ∣ start := by
    rw [hstart]
    exact Nat.dvd_sub_mod offset
  have hsizedvd : unit ∣ size := by
    rw [hsize]
    exact dvd_min (Nat.dvd_sub (dvd_min hstopdvd hlimitdvd) hstartdvd) hmostdvd
  have hoff := Nat.mod_lt offset hunit
  have hoffle := Nat.mod_le offset unit
  have hle := Nat.le_of_dvd (by omega) hsizedvd
  exact ⟨hstartdvd, hsizedvd, by omega, by omega, by omega⟩

theorem WriteCache.window_spec (hcfg : cfg.Ok) (hhint : 0 < hint)
    (hlt : offset + hint + cfg.readSize ≤ 2 ^ 64) (hin : offset < cfg.blockSize)
    (r : WriteCache) (block : Nat) :
    (r.window cfg hint block offset).Has block offset ∧
      (r.window cfg hint block offset).Aligned cfg ∧
      (r.window cfg hint block offset).offset + (r.window cfg hint block offset).size ≤
        cfg.blockSize ∧
      (r.window cfg hint block offset).size % cfg.readSize = 0 := by
  obtain ⟨hle, hdvd, hlt64⟩ := alignup64_spec hcfg.readSize hlt
  have hmod : (offset + hint) % 2 ^ 64 = offset + hint := Nat.mod_eq_of_lt (by omega)
  obtain ⟨stop, hstop⟩ : ∃ stop, alignup64 (offset + hint) cfg.readSize = stop := ⟨_, rfl⟩
  rw [hstop] at hle hdvd hlt64
  have hlttop : min stop cfg.blockSize < 2 ^ 64 := Nat.lt_of_le_of_lt (Nat.min_le_left ..) hlt64
  have hstart : offset - offset % cfg.readSize ≤ min stop cfg.blockSize :=
    (Nat.sub_le ..).trans (Nat.le_min.mpr ⟨by omega, by omega⟩)
  have hsize : (r.window cfg hint block offset).size =
      min (min stop cfg.blockSize - (offset - offset % cfg.readSize)) cfg.cacheSize := by
    rw [WriteCache.window, hmod, hstop, sub_wrap hstart hlttop]
  obtain ⟨hstartdvd, hsizedvd, hlo, hhi, htop⟩ := clip_spec hcfg.readSize hcfg.cacheSize
    hcfg.readSize_dvd (hcfg.readSize_dvd.trans hcfg.cacheSize_dvd) hdvd (by omega) hin rfl hsize
  exact ⟨⟨rfl, hlo, hhi⟩, fun _ _ => hstartdvd, htop, Nat.mod_eq_zero_of_dvd hsizedvd⟩

/-- What a round does when the device answers: it copies bytes, or it fills the cache with the byte
that is read next. -/
theorem readRound_answers (hcfg : cfg.Ok) (hanswers : Answers cfg rawread)
    (hfaithful : Faithful rawread content) (hw : ∀ c ∈ w, c.Aligned cfg) (hr : r.Aligned cfg)
    (hblock : block < cfg.blockCount) (hin : offset + size ≤ cfg.blockSize) (hhint : 0 < hint)
    (hlt : offset + hint + cfg.readSize ≤ 2 ^ 64) (hsize : 0 < size) :
    (∃ bytes, readRound cfg rawread w hint block offset size r = .copied bytes r ∧
      0 < bytes.length ∧ bytes.length ≤ size) ∨
    ∃ r', readRound cfg rawread w hint block offset size r = .loaded r' ∧ r'.Aligned cfg ∧
      r'.Has block offset := by
  have hread := hcfg.readSize
  have hkind := readRound_kind cfg rawread w hint block offset r hsize
  obtain ⟨result, hresult⟩ : ∃ result, readRound cfg rawread w hint block offset size r = result :=
    ⟨_, rfl⟩
  rw [hresult] at hkind ⊢
  obtain ⟨hhas, haligned, hwin, hunit⟩ :=
    WriteCache.window_spec hcfg hhint hlt (by omega : offset < cfg.blockSize) r block
  cases hkind with
  | written hw hhit =>
    obtain ⟨hpos, hle, -⟩ := WriteCache.lookup_hit hhit hsize
    exact .inl ⟨_, rfl, hpos, hle⟩
  | cached hdiff hnot hhit =>
    obtain ⟨hpos, hle, -⟩ := WriteCache.lookup_hit hhit hdiff.1
    exact .inl ⟨_, rfl, hpos, hle.trans hdiff.2⟩
  | @direct bytes diff hdiff hnot hends haligned hdirect =>
    have hlength := congrArg List.length (hfaithful _ _ _ _ hdirect)
    rw [ByteImage.length_read] at hlength
    have hdvd : cfg.readSize ∣ offset := Nat.dvd_of_mod_eq_zero haligned.1
    -- the request is as long as a read unit, or ends at a window
    have hge : cfg.readSize ≤ diff := by
      rcases hends with rfl | ⟨c, hc, hc_block, hend⟩
      · exact haligned.2
      · have hcdvd : cfg.readSize ∣ c.offset := by
          rcases hc with hc | rfl
          · exact hw c hc block hc_block
          · exact hr block hc_block
        refine Nat.le_of_dvd hdiff.1 ((Nat.dvd_add_right hdvd).mp ?_)
        rwa [hend]
    have hunits := Nat.mod_lt diff hread
    exact .inl ⟨_, rfl, by omega, by omega⟩
  | @directFailed _ _ diff hdiff hfailed =>
    have hunits : (diff - diff % cfg.readSize) % cfg.readSize = 0 :=
      Nat.mod_eq_zero_of_dvd (Nat.dvd_sub_mod diff)
    obtain ⟨bytes, hok⟩ := hanswers block offset _ hblock (by omega) hunits
    cases hfailed.symm.trans hok
  | filled hfills hload => exact .inr ⟨_, rfl, haligned, hhas⟩
  | fillFailed hfills hfailed =>
    obtain ⟨bytes, hok⟩ := hanswers _ _ _ hblock hwin hunit
    cases hfailed.symm.trans hok

theorem readLoop_copied (hsize : 0 < size)
    (hround : readRound cfg rawread w hint block offset size r = .copied bytes r')
    (h : readLoop cfg rawread w hint block fuel (offset + bytes.length) (size - bytes.length) r' =
      some (.ok rest, r'')) :
    readLoop cfg rawread w hint block (fuel + 1) offset size r =
      some (.ok (bytes ++ rest), r'') := by
  rw [readLoop, if_neg (Nat.ne_of_gt hsize), hround]
  dsimp only
  rw [h]
  rfl

theorem readLoop_loaded (hsize : 0 < size)
    (hround : readRound cfg rawread w hint block offset size r = .loaded r') :
    readLoop cfg rawread w hint block (fuel + 1) offset size r =
      readLoop cfg rawread w hint block fuel offset size r' := by
  rw [readLoop, if_neg (Nat.ne_of_gt hsize), hround]

theorem readRound_loaded_fills (hsize : 0 < size)
    (h : readRound cfg rawread w hint block offset size r = .loaded r') :
    Fills cfg w hint block offset size r := by
  have hkind := readRound_kind cfg rawread w hint block offset r hsize
  rw [h] at hkind
  cases hkind with
  | filled hfills => exact hfills

/-- The loop ends: a round that fills the cache is followed by one that copies from it. -/
theorem readLoop_answers (hcfg : cfg.Ok) (hanswers : Answers cfg rawread)
    (hfaithful : Faithful rawread content) (hw : ∀ c ∈ w, c.Aligned cfg) (hr : r.Aligned cfg)
    (hblock : block < cfg.blockCount) (hin : offset + size ≤ cfg.blockSize) (hhint : 0 < hint)
    (hlt : offset + size + hint + cfg.readSize ≤ 2 ^ 64) (hfuel : 2 * size < fuel) :
    ∃ bytes r', readLoop cfg rawread w hint block fuel offset size r = some (.ok bytes, r') ∧
      r'.Aligned cfg := by
  induction size using Nat.strong_induction_on generalizing fuel offset r with
  | _ size ih =>
    obtain ⟨fuel, rfl⟩ := Nat.exists_eq_add_of_lt hfuel
    rcases Nat.eq_zero_or_pos size with rfl | hsize
    · exact ⟨[], r, by rw [readLoop, if_pos rfl], hr⟩
    · -- from a round that copies on, the induction goes on
      have hcopied : ∀ fuel r bytes, r.Aligned cfg → 2 * size < fuel + 2 →
          readRound cfg rawread w hint block offset size r = .copied bytes r →
          0 < bytes.length → bytes.length ≤ size →
          ∃ bytes r', readLoop cfg rawread w hint block (fuel + 1) offset size r =
            some (.ok bytes, r') ∧ r'.Aligned cfg := by
        intro fuel r bytes hr hfuel hround hpos hle
        have hin' : offset + bytes.length + (size - bytes.length) ≤ cfg.blockSize := by omega
        have hlt' : offset + bytes.length + (size - bytes.length) + hint + cfg.readSize ≤
          2 ^ 64 := by
          omega
        have hfuel' : 2 * (size - bytes.length) < fuel := by omega
        obtain ⟨rest, r', hrest, hr'⟩ := ih _ (by omega) hr hin' hlt' hfuel'
        exact ⟨_, r', readLoop_copied hsize hround hrest, hr'⟩
      rcases readRound_answers hcfg hanswers hfaithful hw hr hblock hin hhint (by omega) hsize with
        ⟨bytes, hround, hpos, hle⟩ | ⟨r₁, hround, hr₁, hhas⟩
      · exact hcopied (2 * size + fuel) r bytes hr (by omega) hround hpos hle
      · obtain ⟨fuel', hfuel'⟩ : ∃ fuel', 2 * size + fuel = fuel' + 1 :=
          ⟨2 * size + fuel - 1, by omega⟩
        rw [readLoop_loaded hsize hround, hfuel']
        rcases readRound_answers hcfg hanswers hfaithful hw hr₁ hblock hin hhint (by omega) hsize
          with ⟨bytes, hround₁, hpos, hle⟩ | ⟨r₂, hround₁, -⟩
        · exact hcopied fuel' r₁ bytes hr₁ (by omega) hround₁ hpos hle
        · exact absurd hhas (readRound_loaded_fills hsize hround₁).2.1

/-- **The newest bytes.** A read within a block from aligned caches and a device without errors ends
with the device's bytes under those of the write cache, and with a read cache that agrees with the
device again. -/
theorem cachedRead_newest (hcfg : cfg.Ok) (hanswers : Answers cfg rawread)
    (hfaithful : Faithful rawread content) (hw : ∀ c ∈ w, c.Aligned cfg) (hr : r.Aligned cfg)
    (H : r.Agrees content) (hblock : block < cfg.blockCount) (hin : offset + size ≤ cfg.blockSize)
    (hhint : 0 < hint) (hlt : offset + size + hint + cfg.readSize ≤ 2 ^ 64)
    (hfuel : 2 * size < fuel) :
    ∃ r', cachedRead cfg rawread w hint block fuel offset size r =
        some (.ok (ByteImage.read (seenThrough w content block) offset size), r') ∧
      r'.Agrees content ∧ r'.Aligned cfg := by
  rw [cachedRead, if_neg (by omega)]
  obtain ⟨bytes, r', hloop, hr'⟩ :=
    readLoop_answers hcfg hanswers hfaithful hw hr hblock hin hhint hlt hfuel
  obtain ⟨rfl, H'⟩ := readLoop_newest hfaithful H hloop
  exact ⟨r', hloop, H', hr'⟩

/-! ## Over erase blocks -/

section EraseBlocks

variable {g : Geometry} (hg : g.Ok) (hone : g.eraseSize = g.blockSize) (d : EraseBlocks)
include hg hone

theorem EraseBlocks.faithful : Faithful (d.rawread g) d := by
  intro block off size bytes h
  by_cases hok : block < g.blockCount ∧ off + size ≤ g.blockSize ∧ size % g.readSize = 0
  · rw [EraseBlocks.rawread_eq hg hone d hok.1 hok.2.1 hok.2.2] at h
    cases h
    rfl
  · rw [EraseBlocks.rawread, bdRawread, if_neg hok] at h
    cases h

theorem EraseBlocks.answers (hcount : cfg.blockCount = g.blockCount)
    (hblockSize : cfg.blockSize = g.blockSize) (hread : cfg.readSize = g.readSize) :
    Answers cfg (d.rawread g) := by
  intro block off size hblock hin hunit
  rw [hcount] at hblock
  rw [hblockSize] at hin
  rw [hread] at hunit
  exact ⟨_, EraseBlocks.rawread_eq hg hone d hblock hin hunit⟩

end EraseBlocks

/-! ## Small blocks -/

/-- Blocks of 16 bytes that are read in units of 4. -/
def smallReads : ReadConfig := ⟨⟨⟨16, 3, 4, 0⟩, 8⟩, 4⟩

theorem smallReads_ok : smallReads.Ok := ⟨by decide, by decide, by decide, by decide⟩

/-- A device of ones. -/
def ones : EraseBlocks := fun _ _ => 1

def smallGeometry : Geometry := ⟨4, 4, 8, 16, 16, 3⟩

theorem smallGeometry_ok : smallGeometry.Ok :=
  ⟨by decide, by decide, by decide, by decide, by decide, by decide, by decide, by decide⟩

theorem cachedRead_newest_small :
    ∃ r', cachedRead smallReads (ones.rawread smallGeometry) (some ⟨some 1, 4, 2, fun _ => 7⟩) 5 1 9
        3 4 {} =
      some (.ok (ByteImage.read (seenThrough (some ⟨some 1, 4, 2, fun _ => 7⟩) ones 1) 3 4), r') ∧
      r'.Agrees ones ∧ r'.Aligned smallReads := by
  refine cachedRead_newest smallReads_ok
    (EraseBlocks.answers smallGeometry_ok rfl ones rfl rfl rfl)
    (EraseBlocks.faithful smallGeometry_ok rfl ones) (fun c hc => ?_) (fun _ h => by cases h)
    (fun _ _ h => by cases h.1) (by decide) (by decide) (by decide) (by decide) (by decide)
  cases hc
  exact fun _ _ => by decide

/-- The read ends and returns the newest bytes. -/
def ReadsNewest (cfg : ReadConfig) (rawread : RawRead) (content : Nat → ByteImage.Image)
    (w : Option WriteCache) (hint block offset size : Nat) (r : WriteCache) : Prop :=
  ∃ fuel r', cachedRead cfg rawread w hint block fuel offset size r =
    some (.ok (ByteImage.read (seenThrough w content block) offset size), r') ∧ r'.Agrees content

/-- A round that leaves everything as it is. -/
theorem readLoop_stuck (hsize : 0 < size)
    (h : readRound cfg rawread w hint block offset size r = .copied [] r ∨
      readRound cfg rawread w hint block offset size r = .loaded r) (fuel : Nat) :
    readLoop cfg rawread w hint block fuel offset size r = none := by
  induction fuel with
  | zero => rfl
  | succ fuel ih =>
    rcases h with h | h
    · rw [readLoop, if_neg (Nat.ne_of_gt hsize), h]
      dsimp only [List.length_nil]
      rw [Nat.add_zero, Nat.sub_zero, ih]
      rfl
    · rw [readLoop_loaded hsize h, ih]

theorem not_readsNewest_of_stuck (hblock : block < cfg.blockCount)
    (hin : offset + size ≤ cfg.blockSize)
    (h : ∀ fuel, readLoop cfg rawread w hint block fuel offset size r = none) :
    ¬ ReadsNewest cfg rawread content w hint block offset size r := by
  rintro ⟨fuel, r', hread, -⟩
  rw [cachedRead, if_neg (by omega), h] at hread
  cases hread

/-- A read cache that starts between two read units, and a hint that wraps around: the loop goes on
for ever. -/
theorem cachedRead_stuck :
    (¬ ∀ (cfg : ReadConfig) rawread content w r hint block offset size, cfg.Ok →
      Answers cfg rawread → Faithful rawread content → (∀ c ∈ w, c.Aligned cfg) →
      r.Agrees content → block < cfg.blockCount → offset + size ≤ cfg.blockSize → 0 < hint →
      offset + size + hint + cfg.readSize ≤ 2 ^ 64 →
      ReadsNewest cfg rawread content w hint block offset size r) ∧
    ¬ ∀ (cfg : ReadConfig) rawread content w r hint block offset size, cfg.Ok →
      Answers cfg rawread → Faithful rawread content → (∀ c ∈ w, c.Aligned cfg) →
      r.Agrees content → r.Aligned cfg → block < cfg.blockCount → offset + size ≤ cfg.blockSize →
      0 < hint → hint < 2 ^ 64 → ReadsNewest cfg rawread content w hint block offset size r := by
  have hanswers : Answers smallReads (ones.rawread smallGeometry) :=
    EraseBlocks.answers smallGeometry_ok rfl ones rfl rfl rfl
  have hfaithful := EraseBlocks.faithful smallGeometry_ok rfl ones
  constructor
  · intro h
    refine not_readsNewest_of_stuck (by decide) (by decide) (readLoop_stuck (by decide) (.inl rfl))
      (h smallReads _ _ none ⟨some 0, 2, 2, fun _ => 1⟩ 1 0 0 4 smallReads_ok hanswers hfaithful
        (fun _ hc => by cases hc) (fun _ _ _ => rfl) (by decide) (by decide) (by decide)
          (by decide))
  · intro h
    refine not_readsNewest_of_stuck (by decide) (by decide) (readLoop_stuck (by decide) (.inr ?_))
      (h smallReads _ _ none ⟨some 0, 0, 0, fun _ => 1⟩ (2 ^ 64 - 1) 0 0 1 smallReads_ok hanswers
        hfaithful (fun _ hc => by cases hc) (fun _ _ _ => rfl) (fun _ _ => ⟨0, rfl⟩) (by decide)
        (by decide) (by decide) (by decide))
    have hwindow : WriteCache.window smallReads ⟨some 0, 0, 0, fun _ => 1⟩ (2 ^ 64 - 1) 0 0 =
        ⟨some 0, 0, 0, fun _ => 1⟩ := by
      have hsize : (WriteCache.window smallReads ⟨some 0, 0, 0, fun _ => 1⟩ (2 ^ 64 - 1) 0 0).size =
        0 := by decide +kernel
      rw [WriteCache.window] at hsize ⊢
      exact congrArg (fun size => WriteCache.mk (some 0) 0 size fun _ => 1) hsize
    have hfills : Fills smallReads none (2 ^ 64 - 1) 0 0 1 ⟨some 0, 0, 0, fun _ => 1⟩ :=
      ⟨fun _ hc => (by cases hc), by decide, by decide⟩
    rw [hfills.round, hwindow]
    exact congrArg ReadRound.loaded
      (congrArg (WriteCache.mk (some 0) 0 0) (ByteImage.write_nil (fun _ => 1) 0))

/-! ## Failed reads -/

/-- The loop of a request comes to a number of bytes that are left from an offset on, with a read
cache. -/
inductive ReadReaches (cfg : ReadConfig) (rawread : RawRead) (w : Option WriteCache)
    (hint block offset size : Nat) (r : WriteCache) : Nat → Nat → WriteCache → Prop
  | start : ReadReaches cfg rawread w hint block offset size r offset size r
  | copied (h : ReadReaches cfg rawread w hint block offset size r off left r₁) (hleft : 0 < left)
      (hround : readRound cfg rawread w hint block off left r₁ = .copied bytes r₂) :
      ReadReaches cfg rawread w hint block offset size r
        (off + bytes.length) (left - bytes.length) r₂
  | loaded (h : ReadReaches cfg rawread w hint block offset size r off left r₁) (hleft : 0 < left)
      (hround : readRound cfg rawread w hint block off left r₁ = .loaded r₂) :
      ReadReaches cfg rawread w hint block offset size r off left r₂

/-- Where a fill of the cache fails, what it has left in the buffer is what the device holds. -/
def FillsSafely (cfg : ReadConfig) (rawread : RawRead) (content : Nat → ByteImage.Image)
    (w : Option WriteCache) (hint block offset size : Nat) (r : WriteCache) : Prop :=
  ∀ off left r₁, ReadReaches cfg rawread w hint block offset size r off left r₁ → 0 < left →
    Fills cfg w hint block off left r₁ →
    ∀ err bytes, rawread block (r₁.window cfg hint block off).offset
        (r₁.window cfg hint block off).size = .error (err, bytes) →
      ((r₁.window cfg hint block off).fill bytes).Agrees content

theorem ReadReaches.agrees (h : ReadReaches cfg rawread w hint block offset size r off left r₁)
    (hfaithful : Faithful rawread content) (H : r.Agrees content) : r₁.Agrees content := by
  induction h with
  | start => exact H
  | copied _ hleft hround ih => rw [(readRound_copied hfaithful ih hleft hround).1]; exact ih
  | loaded _ hleft hround => exact readRound_loaded hfaithful hleft hround

/-- The whole loop fails where a part of it does. -/
theorem ReadReaches.failed (h : ReadReaches cfg rawread w hint block offset size r off left r₁)
    (hfailed : readLoop cfg rawread w hint block fuel off left r₁ = some (.error err, r')) :
    ∃ fuel, readLoop cfg rawread w hint block fuel offset size r = some (.error err, r') := by
  induction h generalizing fuel with
  | start => exact ⟨fuel, hfailed⟩
  | copied _ hleft hround ih =>
    refine @ih (fuel + 1) ?_
    rw [readLoop, if_neg (Nat.ne_of_gt hleft), hround]
    dsimp only
    rw [hfailed]
    rfl
  | loaded _ hleft hround ih =>
    refine @ih (fuel + 1) ?_
    rw [readLoop, if_neg (Nat.ne_of_gt hleft), hround]
    exact hfailed

theorem FillsSafely.agrees (hsafe : FillsSafely cfg rawread content w hint block offset size r)
    (hfaithful : Faithful rawread content) (H : r.Agrees content)
    (hreach : ReadReaches cfg rawread w hint block offset size r off left r₁)
    (h : readLoop cfg rawread w hint block fuel off left r₁ = some (.error err, r')) :
    r'.Agrees content := by
  induction fuel generalizing off left r₁ with
  | zero => cases h
  | succ fuel ih =>
    rw [readLoop] at h
    split at h
    · cases h
    · rename_i hne
      have hleft := Nat.pos_of_ne_zero hne
      have hkind := readRound_kind cfg rawread w hint block off r₁ hleft
      split at h
      · rename_i err' r₂ hround
        cases h
        rw [hround] at hkind
        cases hkind with
        | directFailed => exact hreach.agrees hfaithful H
        | fillFailed hfills hread => exact hsafe off left r₁ hreach hleft hfills _ _ hread
      · exact ih (hreach.loaded hleft ‹_›) h
      · obtain ⟨⟨res, r₂⟩, hrest, heq⟩ := Option.map_eq_some_iff.mp h
        cases res with
        | error err' =>
          cases heq
          exact ih (hreach.copied hleft ‹_›) hrest
        | ok rest => cases heq

/-- Each read that succeeds returns the newest bytes, whatever device reads still fail. -/
def ReadsTrue (cfg : ReadConfig) (content : Nat → ByteImage.Image) (r : WriteCache) : Prop :=
  ∀ rawread, Faithful rawread content → ∀ w hint block fuel offset size bytes r',
    cachedRead cfg rawread w hint block fuel offset size r = some (.ok bytes, r') →
      bytes = ByteImage.read (seenThrough w content block) offset size

theorem WriteCache.Agrees.readsTrue (H : r.Agrees content) : ReadsTrue cfg content r := by
  intro rawread hfaithful w hint block fuel offset size bytes r' h
  rw [cachedRead] at h
  split at h
  · cases h
  · exact (readLoop_newest hfaithful H h).1

/-- **What a failed read leaves.** After each error the read cache agrees with the device and later
reads are true, exactly when no fill of the cache fails, or leaves what the device holds. -/
theorem cachedRead_failed_iff (hfaithful : Faithful rawread content) (H : r.Agrees content) :
    (∀ fuel err r', cachedRead cfg rawread w hint block fuel offset size r = some (.error err, r') →
      r'.Agrees content ∧ ReadsTrue cfg content r') ↔
    (block < cfg.blockCount → offset + size ≤ cfg.blockSize →
      FillsSafely cfg rawread content w hint block offset size r) := by
  constructor
  · intro h hblock hsize off left r₁ hreach hleft hfills err bytes hread
    have hone : readLoop cfg rawread w hint block 1 off left r₁ =
        some (.error err, (r₁.window cfg hint block off).fill bytes) := by
      rw [readLoop, if_neg (Nat.ne_of_gt hleft), hfills.round, loadCache, hread]
    obtain ⟨fuel, hfailed⟩ := hreach.failed hone
    refine (h fuel err _ ?_).1
    rw [cachedRead, if_neg (by omega), hfailed]
  · intro h fuel err r' hfailed
    suffices r'.Agrees content from ⟨this, this.readsTrue⟩
    rw [cachedRead] at hfailed
    split at hfailed
    · cases hfailed
      exact H
    · exact (h (by omega) (by omega)).agrees hfaithful H .start hfailed

theorem cachedRead_failed_small :
    Faithful ones.read ones ∧ ∀ fuel err r', cachedRead smallReads ones.read none 1 0 fuel 1 3 {} =
      some (.error err, r') → r'.Agrees ones ∧ ReadsTrue smallReads ones r' := by
  have hfaithful : Faithful ones.read ones := by
    intro block off size bytes h
    cases h
    rfl
  refine ⟨hfaithful, (cachedRead_failed_iff hfaithful ?_).mpr ?_⟩
  · exact fun _ _ h => by cases h.1
  · exact fun _ _ _ _ _ _ _ _ _ _ h => by cases h

/-- A read of one byte whose device read fails, and the same read again: it returns what the buffer
held. -/
theorem cachedRead_poisoned : ¬ ∀ (cfg : ReadConfig) rawread content w hint block offset size r,
    cfg.Ok → Faithful rawread content → r.Agrees content → ∀ fuel err r', err < 0 →
      cachedRead cfg rawread w hint block fuel offset size r = some (.error err, r') →
      r'.Agrees content ∧ ReadsTrue cfg content r' := by
  intro h
  obtain ⟨-, htrue⟩ := h smallReads (fun _ _ _ => .error (errIo, [])) ones none 1 0 0 1 {}
    smallReads_ok (fun _ _ _ _ h => by cases h) (fun _ _ h => by cases h.1) 2 errIo _ (by decide)
    rfl
  have hbytes := htrue ones.read (fun _ _ _ _ h => by cases h; rfl) none 1 0 2 0 1 [0xff] _ rfl
  revert hbytes
  decide

end LittleFs
