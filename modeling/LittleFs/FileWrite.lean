import LittleFs.FileChain

/-! What `lfs_file_flushedwrite` makes of a file that is not inline: the bytes before its position
are copied on write into a list of fresh blocks, whatever blocks turn out to be bad on the way.

Meanwhile the handle keeps the head of the old list, whose other bytes `lfs_file_flush` still
needs. -/

namespace LittleFs

open BitCount SkipList
open StateLogic StateLogic.Prog

namespace FileIo

/-! ## The states of a handle -/

/-- The handle as its reads see it, but for its cache. -/
def File.reader (f : File) : FileReader :=
  { head := f.head, size := f.size, pos := f.pos, offset := f.offset, block := some f.block,
    reading := f.reading }

/-- Where the last byte of a file is. -/
def Config.lastByte (cfg : Config) (content : List UInt8) : Nat × Nat :=
  ctzIndex cfg.blockSize (content.length - 1)

/-- The blocks of a list that is not empty. -/
def ListBlock (cfg : Config) (content : List UInt8) (addr : Nat → Nat) (block : Nat) : Prop :=
  content ≠ [] ∧ ∃ i ≤ (cfg.lastByte content).1, addr i = block

/-- The list of the handle as of its last flush: its blocks are committed, or the handle is
dirty. -/
structure Stored (cfg : Config) (P : Nat → Prop) (full : List UInt8) (old : Nat → Nat) (s : State) :
    Prop where
  size : s.file.size = full.length
  head : full ≠ [] → old (cfg.lastByte full).1 = s.file.head
  lists : full ≠ [] → Lists cfg s.disk full (cfg.lastByte full).1 old
  length : cfg.Indexes full.length
  agrees : ∀ b, ListBlock cfg full old b → AgreesBelow cfg.blockSize b s
  visible : (∀ b, ListBlock cfg full old b → P b) ∨ s.file.dirty = true

/-- A cache has nothing of the blocks of `Q` but what is on the device. -/
def CacheOn (cfg : Config) (Q : Nat → Prop) (content : Nat → ByteImage.Image) (c : WriteCache) :
    Prop :=
  ∀ b, Q b → AgreesFor content none b 0 cfg.blockSize c

/-- Where the block and the offset of a handle are that is read from; at the end of the file the
offset does not matter. -/
inductive PlacedAt (cfg : Config) (old : Nat → Nat) (size pos offset block : Nat) : Prop
  | inBlock {i : Nat} (hi : i ≤ (ctzIndex cfg.blockSize (size - 1)).1)
      (hindex : (ctzIndex cfg.blockSize pos).1 = i) (hblock : block = old i)
      (hoffset : pos < size → (ctzIndex cfg.blockSize pos).2 = offset)
  | atEnd (hoffset : offset = cfg.blockSize) (hpos : pos < size)
  | behind (hpos : size ≤ pos)
      (hindex : (ctzIndex cfg.blockSize (size - 1)).1 < (ctzIndex cfg.blockSize pos).1)

def File.Placed (cfg : Config) (old : Nat → Nat) (f : File) : Prop :=
  PlacedAt cfg old f.size f.pos f.offset f.block

/-- Nothing was written since the last flush. -/
structure Idle (cfg : Config) (P : Nat → Prop) (full : List UInt8) (old : Nat → Nat) (s : State) :
    Prop where
  writing : s.file.writing = false
  isInline : s.file.isInline = false
  shared : s.writeCache.block = none
  stored : Stored cfg P full old s
  cache : CacheOn cfg (ListBlock cfg full old) s.disk s.file.cache
  dropped : s.file.reading = false → s.file.cache.block = none
  placed : s.file.reading = true → s.file.Placed cfg old

/-- A handle whose position is behind `content`. -/
structure Writer (cfg : Config) (P : Nat → Prop) (full : List UInt8) (old : Nat → Nat)
    (content : List UInt8) (s : State) : Prop where
  isInline : s.file.isInline = false
  reading : s.file.reading = false
  stored : Stored cfg P full old s
  append : s.file.append = true → s.file.size ≤ s.file.pos
  pos : s.file.pos = content.length
  length : cfg.Indexes content.length

/-- The handle is about to be written to, at a position of its list. -/
structure Starting (cfg : Config) (P : Nat → Prop) (full : List UInt8) (old : Nat → Nat)
    (content : List UInt8) (s : State) : Prop extends Writer cfg P full old content s where
  writing : s.file.writing = false
  shared : s.writeCache.block = none
  cache : s.file.cache.block = none
  content : content = full.take content.length

/-- The handle is written to: `content` is in a list of its own. -/
structure Linked (cfg : Config) (P : Nat → Prop) (full : List UInt8) (old : Nat → Nat)
    (content : List UInt8) (k : Nat) (addr : Nat → Nat) (s : State) : Prop
    extends Writer cfg P full old content s where
  writing : s.file.writing = true
  head : addr k = s.file.block
  chain : Chain cfg content k s.file.offset addr s
  apart : ¬ ListBlock cfg full old (addr k)

/-- The next bytes can be written. -/
structure Busy (cfg : Config) (P : Nat → Prop) (full : List UInt8) (old : Nat → Nat)
    (content : List UInt8) (k : Nat) (addr : Nat → Nat) (s : State) : Prop
    extends Linked cfg P full old content k addr s where
  shared : s.writeCache.block = none
  filling : Filling cfg .file (addr k) s.file.offset s

/-- The position is behind `content`, before the first write or after some of them. -/
inductive Writes (cfg : Config) (P : Nat → Prop) (full : List UInt8) (old : Nat → Nat)
    (content : List UInt8) (s : State) : Prop
  | starting (H : Starting cfg P full old content s)
  | busy (k : Nat) (addr : Nat → Nat) (H : Busy cfg P full old content k addr s)
      (hlast : 8 * pointers k < s.file.offset)

/-- The blocks of the old list and of the new one. -/
def InUse (cfg : Config) (full : List UInt8) (old : Nat → Nat) (content : List UInt8) (k : Nat)
    (addr : Nat → Nat) (block : Nat) : Prop :=
  ListBlock cfg full old block ∨ content ≠ [] ∧ ∃ i ≤ k, addr i = block

variable {cfg : Config} {w : World} {A : File → (Nat → ByteImage.Image) → Prop}
  {P Q Q' : Nat → Prop} {full content content' bytes : List UInt8} {old addr : Nat → Nat}
  {i k off : Nat} {s s' s'' : State} {f : File}

theorem lastByte_spec (hlength : cfg.Indexes content.length)
    (hnil : content ≠ []) (hroom : Room 8 cfg.blockSize (cfg.lastByte content).1) :
    ∃ off, EndsAt cfg content.length (cfg.lastByte content).1 off ∧
      8 * pointers (cfg.lastByte content).1 < off := by
  have hpos := List.length_pos_iff.mpr hnil
  have hlast := hlength.exact (content.length - 1) (by omega)
  rw [CtzExact] at hlast
  rw [Config.lastByte] at hroom ⊢
  obtain ⟨⟨n, o⟩, hindex⟩ : ∃ at_, ctzIndex cfg.blockSize (content.length - 1) = at_ := ⟨_, rfl⟩
  rw [hindex] at hlast hroom ⊢
  dsimp only at hlast hroom ⊢
  exact ⟨o + 1, EndsAt.of_holds hlast hpos (hlast.off_lt (hroom n (Nat.le_refl n)))⟩

theorem Stored.ends (H : Stored cfg P full old s) (h : full ≠ []) :
    ∃ off, EndsAt cfg full.length (cfg.lastByte full).1 off ∧
      8 * pointers (cfg.lastByte full).1 < off :=
  lastByte_spec H.length h (H.lists h).list.room

/-- The list stays while its blocks are kept. -/
theorem Stored.kept (H : Stored cfg P full old s) (h : Kept Q s s')
    (hQ : ∀ b, ListBlock cfg full old b → Q b) (hhead : s'.file.head = s.file.head)
    (hsize : s'.file.size = s.file.size) (hdirty : s'.file.dirty = s.file.dirty) :
    Stored cfg P full old s' where
  size := hsize.trans H.size
  head hnil := (H.head hnil).trans hhead.symm
  lists hnil := by
    obtain ⟨off, hends, -⟩ := H.ends hnil
    exact (H.lists hnil).of_eq hends fun i hi => h.disk _ (hQ _ ⟨hnil, i, hi, rfl⟩)
  length := H.length
  agrees b hb := h.agreesBelow (hQ b hb) (H.agrees b hb)
  visible := by
    rw [hdirty]
    exact H.visible

/-! ## What `lfs_alloc` sees -/

/-- `lfs_fs_rawtraverse` finds the lists of the handle, and each block of `Q` is committed or among
them. -/
structure Visible (cfg : Config) (P Q : Nat → Prop) (s : State) : Prop where
  sees : SeesLists cfg s.file s.disk
  covers : ∀ b, Q b → P b ∨ b ∈ s.uncommitted cfg

theorem Visible.mayAlloc (H : Visible cfg P Q s) (hw : w.Allocates cfg P) :
    MayAlloc cfg w (SeesLists cfg) Q s where
  met := H.sees
  block b hb := by
    obtain ⟨hlt, hnot, hfresh⟩ := hw.block s.clock s b hb
    exact ⟨hlt, fun hQ => (H.covers b hQ).elim hnot hfresh⟩
  cache := hw.cache s.clock s

/-- The block that is written to has its index by the position and the offset. -/
theorem lastIndex_spec (hpos : f.pos = n) (hoff : f.offset = off)
    (H : EndsAt cfg n k off) (hroom : ∀ i ≤ k, 8 * pointers i < cfg.blockSize) (hn : 0 < n)
    (hle : cfg.Indexes n) :
    f.lastIndex cfg = k ∧
      (¬ f.OnlyPointers cfg → (ctzIndex cfg.blockSize (f.pos - 1)).1 = k) := by
  have hexact := hle.exact (n - 1) (by omega)
  subst hpos hoff
  by_cases hlow : 8 * pointers k < f.offset
  · obtain ⟨hindex, hat⟩ := hexact.unique (H.holds_last hlow)
    have hnot : ¬ f.OnlyPointers cfg := fun ⟨hend, hoff⟩ => by
      rw [hat] at hend
      omega
    rw [File.lastIndex, if_neg hnot]
    exact ⟨hindex, fun _ => hindex⟩
  · obtain ⟨hplace, hge, -⟩ := H
    cases k with
    | zero =>
      rw [start, pointers, if_pos rfl] at hplace
      rw [pointers, if_pos rfl] at hlow
      omega
    | succ k =>
      have hk := hroom k (Nat.le_succ k)
      have hlast := hroom (k + 1) (Nat.le_refl _)
      have hstart := start_add_one 8 cfg.blockSize k
      have hholds : Holds 8 cfg.blockSize k (f.pos - 1) (cfg.blockSize - 1) :=
        ⟨by omega, by omega, by omega⟩
      obtain ⟨hindex, hat⟩ := hexact.unique hholds
      have honly : f.OnlyPointers cfg := ⟨by rw [hat]; omega, by omega⟩
      rw [File.lastIndex, if_pos honly, hindex]
      exact ⟨rfl, fun hnot => absurd honly hnot⟩

theorem Stored.traversable (H : Stored cfg P full old s)
    (hseen : ∀ b, ListBlock cfg full old b → s.seen .file b = s.disk b) (hsize : s.file.size ≠ 0) :
    Traversable cfg (s.seen .file) s.file.head s.file.size ∧
      ∀ b, ListBlock cfg full old b → b ∈
        chainBack (s.seen .file) (ctzIndex cfg.blockSize (s.file.size - 1)).1 s.file.head := by
  have hnil : full ≠ [] := fun h => hsize (H.size.trans (List.length_eq_zero_iff.mpr h))
  obtain ⟨off, hends, -⟩ := H.ends hnil
  have Hl := (H.lists hnil).of_eq hends fun i hi => hseen (old i) ⟨hnil, i, hi, rfl⟩
  have hindex : ctzIndex cfg.blockSize (s.file.size - 1) = cfg.lastByte full := by
    rw [H.size, Config.lastByte]
  rw [Traversable, hindex, ← H.head hnil]
  refine ⟨⟨old, Hl.list, rfl⟩, fun b hb => ?_⟩
  obtain ⟨-, i, hi, rfl⟩ := hb
  exact mem_chainBack Hl.list hi

theorem Stored.covers (H : Stored cfg P full old s)
    (hseen : ∀ b, ListBlock cfg full old b → s.seen .file b = s.disk b)
    (hinline : s.file.isInline = false) (hb : ListBlock cfg full old b) :
    P b ∨ b ∈ s.uncommitted cfg := by
  rcases H.visible with hP | hdirty
  · exact .inl (hP b hb)
  · have hsize : s.file.size ≠ 0 := fun h =>
      hb.1 (List.length_eq_zero_iff.mp (H.size.symm.trans h))
    refine .inr (List.mem_append_left _ ?_)
    rw [if_pos ⟨hdirty, hinline, hsize⟩]
    exact (H.traversable hseen hsize).2 b hb

/-- Of a handle to which nothing was written, and whose cache is empty. -/
theorem Stored.visible_idle (H : Stored cfg P full old s)
    (hcache : s.file.cache.block = none) (hwriting : s.file.writing = false)
    (hinline : s.file.isInline = false) : Visible cfg P (ListBlock cfg full old) s := by
  have hseen : ∀ b, ListBlock cfg full old b → s.seen .file b = s.disk b := fun b _ =>
    funext fun x => seen_of_not_has fun hhas => by
      cases hcache.symm.trans hhas.1
  refine ⟨⟨fun _ _ hsize => (H.traversable hseen hsize).1, fun h => ?_⟩,
    fun b hb => H.covers hseen hinline hb⟩
  rw [hwriting] at h
  cases h

/-- Of a handle that is written to. -/
theorem Stored.visible_busy (H : Stored cfg P full old s)
    (hseen : ∀ b, ListBlock cfg full old b → s.seen .file b = s.disk b)
    (hinline : s.file.isInline = false) (hwriting : s.file.writing = true)
    (Hl : Lists cfg (s.seen .file) content k addr)
    (hends : EndsAt cfg content.length k s.file.offset)
    (hroom : ∀ i ≤ k, 8 * pointers i < cfg.blockSize) (hhead : addr k = s.file.block)
    (hpos : s.file.pos = content.length) (hlength : cfg.Indexes content.length) :
    Visible cfg P (InUse cfg full old content k addr) s := by
  refine ⟨⟨fun _ _ hsize => (H.traversable hseen hsize).1, fun _ _ hzero hnot => ?_⟩,
    fun b hb => ?_⟩
  · obtain ⟨-, hindex⟩ := lastIndex_spec hpos rfl hends hroom (by omega) hlength
    rw [Traversable, hindex hnot]
    exact ⟨addr, Hl.list, hhead⟩
  · rcases hb with hb | ⟨hnil, i, hi, rfl⟩
    · exact H.covers hseen hinline hb
    · have hzero := List.length_pos_iff.mpr hnil
      obtain ⟨hindex, -⟩ := lastIndex_spec hpos rfl hends hroom hzero hlength
      refine .inr (List.mem_append_right _ ?_)
      rw [if_pos ⟨hwriting, hinline, by omega⟩, hindex, ← hhead]
      exact mem_chainBack Hl.list hi

/-! ## The search for a block -/

theorem CacheOn.empty {content : Nat → ByteImage.Image} {c : WriteCache} (h : c.block = none) :
    CacheOn cfg Q content c := fun b _ x _ _ hhas => by cases h.symm.trans hhas.1

/-- A read of a block of `Q`. -/
theorem CacheOn.read {content : Nat → ByteImage.Image} {r r' : WriteCache}
    (h : CacheOn cfg Q content r)
    (H : ReadInto cfg.toReadConfig content none hint block offset size r (.ok bytes) r')
    (hQ : Q block) (hin : offset + size ≤ cfg.blockSize) :
    CacheOn cfg Q content r' ∧ bytes = ByteImage.read (content block) offset size := by
  refine ⟨?_, H.bytes bytes rfl ((h block hQ).mono (Nat.zero_le offset) (by omega))⟩
  rcases H.agrees bytes rfl with rfl | hagrees
  · exact h
  · exact fun _ _ => hagrees.agreesFor

/-- Only the time has gone on. -/
structure OnlyTime (s s' : State) : Prop where
  onlyReads : OnlyReads s s'
  readCache : s'.readCache = s.readCache

theorem OnlyTime.refl (s : State) : OnlyTime s s := ⟨.refl s, rfl⟩

theorem OnlyTime.tick (s : State) : OnlyTime s s.tick := ⟨⟨rfl, rfl, rfl⟩, rfl⟩

theorem OnlyTime.trans (h : OnlyTime s s') (h' : OnlyTime s' s'') : OnlyTime s s'' :=
  ⟨h.onlyReads.trans h'.onlyReads, h'.readCache.trans h.readCache⟩

theorem OnlyTime.kept (h : OnlyTime s s') (Q : Nat → Prop) : Kept Q s s' :=
  ⟨fun b _ => congrFun h.onlyReads.disk b, .inl h.readCache⟩

theorem findLoop_spec {cache : WriteCache} (H : CtzList (cfg.disk s.disk) n addr)
    (hn : n < 2 ^ 64) (hle : target ≤ current) (hcurrent : current ≤ n)
    (hQ : ∀ i ≤ n, Q (addr i)) (hcache : CacheOn cfg Q s.disk cache) :
    Keeps (Allocs A) (findLoop cfg w target current (addr current) cache) s fun r s' =>
      OnlyTime s s' ∧ Fails r.1 ∧
        ∀ b, r.1 = .ok b → b = addr target ∧ CacheOn cfg Q s.disk r.2 := by
  induction current using Nat.strongRecOn generalizing s cache with
  | ind current ih =>
    rw [findLoop]
    refine .ite (fun hlt => ?_) fun hnot => ?_
    · have hne : current ≠ 0 := by omega
      have hskip : min (npw2_64 (current - target + 1) - 1) (ctz64 current) =
        hop current target := by
        rw [npw2_64_succ (by omega) (by omega), ctz64_eq hne (by omega), hop]
      have hhop := two_pow_hop_le hlt
      have hpos := Nat.two_pow_pos (hop current target)
      dsimp only
      rw [hskip]
      refine .bind (bdRead_spec ..) fun r s' h => ?_
      obtain ⟨res, cache'⟩ := r
      obtain ⟨rfl, hread, hfails⟩ := h
      cases res with
      | error err => exact .pure ⟨.tick s, .error (hfails _ rfl), fun _ h => by cases h⟩
      | ok bytes =>
        have hroom : 8 * pointers current ≤ cfg.blockSize := H.room current hcurrent
        have hzeros := hop_le_zeros current target
        rw [pointers, if_neg hne] at hroom
        obtain ⟨hcache', hbytes⟩ := hcache.read hread (hQ current hcurrent) (by omega)
        have hpointer : ByteImage.read (s.disk (addr current)) (8 * hop current target) 8 = _ :=
          H.pointer current hcurrent hne _ (hop_le_zeros current target)
        dsimp only
        rw [hbytes, hpointer, H.fromLe_addr (by omega)]
        refine .mono (ih _ (by omega) (s := s.tick) H (by omega) (by omega) hcache')
          fun r s' h => ⟨(OnlyTime.tick s).trans h.1, h.2⟩
    · obtain rfl : target = current := Nat.le_antisymm hle (Nat.le_of_not_lt hnot)
      exact .pure ⟨.refl s, .ok _, fun b h => ⟨(Except.ok.inj h).symm, hcache⟩⟩

/-- The search for a byte of the file. -/
theorem ctzFind_spec {cache : WriteCache} (H : Stored cfg P full old s)
    (hpos : pos < full.length) (hcache : CacheOn cfg (ListBlock cfg full old) s.disk cache) :
    Keeps (Allocs A) (ctzFind cfg w s.file.head s.file.size pos cache) s fun r s' =>
      OnlyTime s s' ∧ Fails r.1 ∧ ∀ b off, r.1 = .ok (b, off) →
        (∃ i ≤ (cfg.lastByte full).1, b = old i ∧ ctzIndex cfg.blockSize pos = (i, off)) ∧
          CacheOn cfg (ListBlock cfg full old) s.disk r.2 := by
  have hnil : full ≠ [] := List.ne_nil_of_length_pos (by omega)
  have hlength := H.length
  have hsize := H.size
  have hexact := hlength.exact pos (by omega)
  obtain ⟨end_, hends, -⟩ := H.ends hnil
  have hlast : (cfg.lastByte full).1 < 2 ^ 64 := by
    rw [Config.lastByte]
    exact ctzIndex_fst_lt ..
  have hindex : ctzIndex cfg.blockSize (s.file.size - 1) = cfg.lastByte full := by
    rw [hsize, Config.lastByte]
  rw [CtzExact] at hexact
  rw [ctzFind, hindex, ← H.head hnil]
  obtain ⟨⟨target, at_⟩, htarget⟩ : ∃ place, ctzIndex cfg.blockSize pos = place := ⟨_, rfl⟩
  rw [htarget] at hexact ⊢
  have hle := (hends.lt_off hexact hpos).1
  refine .ite (fun hzero => by omega) fun _ => ?_
  refine .bind (findLoop_spec (H.lists hnil).list hlast hle (Nat.le_refl _)
    (fun i hi => ⟨hnil, i, hi, rfl⟩) hcache) fun r s' h => ?_
  obtain ⟨res, cache'⟩ := r
  obtain ⟨htime, hfails, hok⟩ := h
  cases res with
  | error err => exact .pure ⟨htime, .error (hfails _ rfl), fun _ _ h => by cases h⟩
  | ok b =>
    obtain ⟨rfl, hcache'⟩ := hok b rfl
    refine .pure ⟨htime, .ok _, fun b off h => ?_⟩
    cases h
    exact ⟨⟨_, hle, rfl, rfl⟩, hcache'⟩

/-! ## A new block -/

/-- The file has a new last block, filled up to its offset. -/
structure Fresh (cfg : Config) (Q : Nat → Prop) (content : List UInt8) (s s' : State) : Prop where
  file : s'.file = { s.file with
    cache := s'.file.cache, block := s'.file.block, offset := s'.file.offset }
  shared : s'.writeCache = s.writeCache
  kept : Kept Q s s'
  reloads : 256 < cfg.cacheSize → Reloads s s'
  fresh : ¬ Q s'.file.block
  chain : ∃ k addr, addr k = s'.file.block ∧ Chain cfg content k s'.file.offset addr s'
  filling : Filling cfg .file s'.file.block s'.file.offset s'
  room : s'.file.offset < cfg.blockSize

theorem extendFile_spec (Hcfg : cfg.Fits) (hw : w.ProgramsLocal)
    (He : Extends cfg content k off addr s.file.block s) (hpos : s.file.pos = content.length)
    (hQ : content ≠ [] → ∀ i ≤ k, Q (addr i)) (hcache : ∀ b, s.file.cache.block = some b → Q b)
    (hfresh : ∀ s₁, Aside cfg Q .file s s₁ →
      s₁.file.cache = s.file.cache ∨ s₁.file.cache.block = none → MayAlloc cfg w A Q s₁) :
    Keeps (Allocs A) (extendFile cfg w) s fun err s' => Code err ∧
      (err = errOk → Fresh cfg Q content s s') := by
  refine .get_bind ?_
  rw [hpos]
  refine .bind (ctzExtend_spec Hcfg hw He hQ hcache hfresh _) fun res s₁ h => ?_
  obtain ⟨hfails, hok⟩ := h
  cases res with
  | error err =>
    have hneg := hfails _ rfl
    exact .pure ⟨.of_neg hneg, fun h => absurd h (Int.ne_of_lt hneg)⟩
  | ok r =>
    obtain ⟨⟨k', addr', hhead, hchain, hfilling, hroom⟩, haside, hnot⟩ := hok r rfl
    obtain ⟨hbut, hkept, hreloads⟩ := haside
    refine .modify_bind (fun HA => HA.of_events rfl) (.pure ⟨.ok, fun _ => ?_⟩)
    exact {
      file := by
        have hfile : s₁.file = { s.file with cache := s₁.file.cache } := hbut.file
        rw [State.modFile, State.setFile, hfile]
      shared := hbut.writeCache
      kept := ⟨hkept.disk, hkept.readCache⟩
      reloads := hreloads
      fresh := hnot
      chain := ⟨k', addr', hhead, ⟨hchain.lists, hchain.ends, hchain.room, hchain.fresh,
        hchain.older, hchain.cache, hchain.readable⟩⟩
      filling := ⟨hfilling.held, hfilling.loose⟩
      room := hroom }

/-- The list up to the position is found. -/
structure Located (cfg : Config) (full : List UInt8) (old : Nat → Nat) (content : List UInt8)
    (s s' : State) : Prop where
  file : s'.file = { s.file with cache := s'.file.cache, block := s'.file.block }
  cache : s'.file.cache.block = none
  shared : s'.writeCache = s.writeCache
  disk : s'.disk = s.disk
  readCache : s'.readCache = s.readCache
  place : ∃ k off, (content ≠ [] → full ≠ [] ∧ k ≤ (cfg.lastByte full).1) ∧
    Extends cfg content k off old s'.file.block s'

theorem Located.kept (H : Located cfg full old content s s') (Q : Nat → Prop) : Kept Q s s' :=
  ⟨fun b _ => congrFun H.disk b, .inl H.readCache⟩

/-- The block of the last byte before the position. -/
theorem findLast_spec (H : Starting cfg P full old content s)
    (hpos : 0 < s.file.pos) (hmax : cfg.Indexes (content.length + 1)) :
    Keeps (Allocs A) (findLast cfg w) s fun err s' => Code err ∧
      (err = errOk → Located cfg full old content s s') := by
  have hlength : content.length ≤ full.length := by
    have h := congrArg List.length H.content
    rw [List.length_take] at h
    omega
  have hnil : full ≠ [] := List.ne_nil_of_length_pos (by rw [H.pos] at hpos; omega)
  have hmax' := H.stored.length
  have hat := H.pos
  refine .get_bind (.bind (ctzFind_spec H.stored (by omega) (.empty H.cache))
    fun r s₁ h => ?_)
  obtain ⟨res, cache⟩ := r
  obtain ⟨htime, hfails, hok⟩ := h
  refine .modify_bind (fun HA => HA.of_events rfl) ?_
  cases res with
  | error err =>
    have hneg := hfails _ rfl
    exact .pure ⟨.of_neg hneg, fun h => absurd h (Int.ne_of_lt hneg)⟩
  | ok r =>
    obtain ⟨block, o⟩ := r
    obtain ⟨⟨i, hi, rfl, hindex⟩, -⟩ := hok block o rfl
    have hexact := hmax'.exact (s.file.pos - 1) (by omega)
    rw [CtzExact, hindex] at hexact
    dsimp only at hexact
    have hfile := htime.onlyReads.file
    refine .modify_bind (fun HA => HA.of_events rfl) (.pure ⟨.ok, fun _ => ⟨?_, rfl,
      htime.onlyReads.writeCache, htime.onlyReads.disk, htime.readCache, i, o + 1,
      fun _ => ⟨hnil, hi⟩, ?_⟩⟩)
    · simp only [State.modFile, State.setFile, State.setCache, hfile]
    · have hroom := (H.stored.lists hnil).list.room i hi
      obtain ⟨hends, hlow⟩ := EndsAt.of_holds hexact hpos (hexact.off_lt hroom)
      rw [hat] at hends
      have Hl := (H.stored.lists hnil).take hi content.length
      rw [← H.content, ← htime.onlyReads.disk] at Hl
      refine ⟨hmax, fun _ => ⟨⟨Hl, hends, fun j hj => ?_⟩, rfl, hlow⟩, fun _ => rfl⟩
      exact (htime.kept fun _ => True).agreesBelow trivial
        (H.stored.agrees _ ⟨hnil, j, hj.trans hi, rfl⟩)

/-- What writes leave of the handle and of its old list. -/
structure Onward (cfg : Config) (Q : Nat → Prop) (s s' : State) : Prop where
  file : s'.file = { s.file with
    pos := s'.file.pos, offset := s'.file.offset, block := s'.file.block, cache := s'.file.cache,
    writing := s'.file.writing }
  writing : s.file.writing = true → s'.file.writing = true
  kept : Kept Q s s'
  reloads : 256 < cfg.cacheSize → Reloads s s'

theorem Onward.refl (cfg : Config) (Q : Nat → Prop) (s : State) : Onward cfg Q s s :=
  ⟨rfl, id, .refl Q s, fun _ => .inl rfl⟩

theorem Onward.trans (h : Onward cfg Q s s') (h' : Onward cfg Q s' s'') : Onward cfg Q s s'' :=
  ⟨by rw [h'.file, h.file], h'.writing ∘ h.writing, h.kept.trans h'.kept,
    fun hlong => (h.reloads hlong).trans (h'.reloads hlong)⟩

theorem Stored.onward (H : Stored cfg P full old s)
    (h : Onward cfg (ListBlock cfg full old) s s') : Stored cfg P full old s' :=
  H.kept h.kept (fun _ hb => hb) (by rw [h.file]) (by rw [h.file]) (by rw [h.file])

theorem Writer.onward (H : Writer cfg P full old content s)
    (h : Onward cfg (ListBlock cfg full old) s s') (hpos : s'.file.pos = content'.length)
    (hge : content.length ≤ content'.length) (hlength : cfg.Indexes content'.length) :
    Writer cfg P full old content' s' where
  isInline := by
    rw [h.file]
    exact H.isInline
  reading := by
    rw [h.file]
    exact H.reading
  stored := H.stored.onward h
  append happend := by
    rw [h.file] at happend
    have hsize := H.append happend
    have hpos' := H.pos
    rw [hpos, h.file]
    dsimp only
    omega
  pos := hpos
  length := hlength

theorem Fresh.onward (H : Fresh cfg Q content s s') (hQ : ∀ b, Q' b → Q b) :
    Onward cfg Q' s (s'.modFile fun f => { f with writing := true }) where
  file := by
    rw [State.modFile, State.setFile, H.file]
  writing _ := rfl
  kept := ⟨(H.kept.mono hQ).disk, (H.kept.mono hQ).readCache⟩
  reloads := H.reloads

/-- The new block is written to. -/
theorem Writer.busy (H : Writer cfg P full old content s)
    (hshared : s.writeCache.block = none) (h : Fresh cfg Q content s s')
    (hQ : ∀ b, ListBlock cfg full old b → Q b) :
    ∃ k addr, Busy cfg P full old content k addr
      (s'.modFile fun f => { f with writing := true }) := by
  obtain ⟨k, addr, hhead, hchain⟩ := h.chain
  have hfilling := h.filling
  rw [← hhead] at hfilling
  exact ⟨k, addr, {
    toWriter := H.onward (h.onward hQ) ((congrArg File.pos h.file).trans H.pos)
      (Nat.le_refl _) H.length
    writing := rfl
    head := hhead
    chain := ⟨hchain.lists, hchain.ends, hchain.room, hchain.fresh, hchain.older, hchain.cache,
      hchain.readable⟩
    apart := fun hb => h.fresh (hQ _ (hhead ▸ hb))
    shared := (congrArg WriteCache.block h.shared).trans hshared
    filling := ⟨hfilling.held, hfilling.loose⟩ }⟩

theorem Located.stored (h : Located cfg full old content s s') (H : Stored cfg P full old s) :
    Stored cfg P full old s' := by
  refine H.kept (h.kept fun _ => True) (fun _ _ => trivial) ?_ ?_ ?_ <;> rw [h.file]

/-- The first block. -/
theorem Starting.newBlock (H : Starting cfg P full old content s) (Hcfg : cfg.Fits)
    (hw : w.ProgramsLocal) (ha : w.Allocates cfg P) (hmax : cfg.Indexes (content.length + 1)) :
    Keeps (Allocs (SeesLists cfg)) (newBlock cfg w) s fun err s' => Code err ∧
      (err = errOk → Fresh cfg (ListBlock cfg full old) content s s') := by
  refine .get_bind (.ite (fun h => ?_) fun _ => ?_)
  · rw [H.isInline] at h
    cases h
  refine .bind (Q := fun err s' => Code err ∧ (err = errOk → Located cfg full old content s s'))
    (.ite (fun hpos => findLast_spec H hpos.2 hmax) fun hzero => ?_) fun err s₁ h => ?_
  · have hzero : s.file.pos = 0 := Nat.eq_zero_of_not_pos fun hpos => hzero ⟨H.writing, hpos⟩
    obtain rfl : content = [] := List.length_eq_zero_iff.mp (H.pos.symm.trans hzero)
    exact .pure ⟨.ok, fun _ => ⟨rfl, H.cache, rfl, rfl, rfl, 0, 0, fun h => absurd rfl h,
      hmax, fun h => absurd rfl h, fun _ => H.cache⟩⟩
  obtain ⟨hcode, hok⟩ := h
  refine .ite (fun herr => .pure ⟨hcode, fun h => absurd h herr⟩) fun herr => ?_
  have Hl := hok (not_not.mp herr)
  obtain ⟨k, off, hk, He⟩ := Hl.place
  have hpos : s₁.file.pos = content.length := (congrArg File.pos Hl.file).trans H.pos
  refine .mono (extendFile_spec (Q := ListBlock cfg full old) Hcfg hw He hpos
    (fun hnil i hi => ⟨(hk hnil).1, i, hi.trans (hk hnil).2, rfl⟩)
    (fun b hb => by cases Hl.cache.symm.trans hb) fun s₂ h hcache => ?_)
    fun err s₂ h => ⟨h.1, fun herr => ?_⟩
  · -- what `lfs_alloc` sees
    have hfile : s₂.file = { s₁.file with cache := s₂.file.cache } := h.sameBut.file
    have hstored := (Hl.stored H.stored).kept h.kept (fun _ hb => hb)
      (by rw [hfile]) (by rw [hfile]) (by rw [hfile])
    refine (hstored.visible_idle ?_ ?_ ?_).mayAlloc ha
    · rcases hcache with hsame | hnone
      · rw [hsame]
        exact Hl.cache
      · exact hnone
    · rw [hfile, Hl.file]
      exact H.writing
    · rw [hfile, Hl.file]
      exact H.isInline
  · obtain ⟨hfile, hshared, hkept, hreloads, hfresh, hchain, hfilling, hroom⟩ := h.2 herr
    refine ⟨by rw [hfile, Hl.file], hshared.trans Hl.shared, (Hl.kept _).trans hkept,
      fun hlong => ?_, hfresh, hchain, hfilling, hroom⟩
    exact Reloads.trans (.inl Hl.readCache) (hreloads hlong)

/-- At the end of a block its last window is empty. -/
theorem Busy.window (H : Busy cfg P full old content k addr s) (Hcfg : cfg.Fits)
    (hend : s.file.offset = cfg.blockSize) (hblock : (s.cache .file).block = some (addr k)) :
    (s.cache .file).size = 0 := by
  obtain ⟨hdvd, hsum, hlt, -⟩ := H.filling.held hblock
  refine Nat.eq_zero_of_dvd_of_lt ((Nat.dvd_add_right hdvd).mp ?_) hlt
  rw [hsum, hend]
  exact Hcfg.read.cacheSize_dvd

theorem Busy.not_has (H : Busy cfg P full old content k addr s) (Hcfg : cfg.Fits)
    (hend : s.file.offset = cfg.blockSize) : ¬ (s.cache .file).Has b x := fun hhas => by
  by_cases hb : b = addr k
  · subst hb
    have hzero := H.window Hcfg hend hhas.1
    have hlo := hhas.2.1
    have hhi := hhas.2.2
    omega
  · exact H.chain.not_has hb hhas

theorem Busy.extends_ (H : Busy cfg P full old content k addr s) (Hcfg : cfg.Fits)
    (hend : s.file.offset = cfg.blockSize) (hmax : cfg.Indexes (content.length + 1)) :
    Extends cfg content k cfg.blockSize addr s.file.block s where
  length := hmax
  source _ := by
    have hends := H.chain.ends
    rw [hend] at hends
    refine ⟨⟨H.chain.lists.of_eq hends fun i _ => ?_, hends, fun i hi => ?_⟩, H.head,
      H.chain.room k (Nat.le_refl k)⟩
    · exact funext fun x => (seen_of_not_has (H.not_has Hcfg hend)).symm
    · rcases Nat.eq_or_lt_of_le hi with rfl | hlt
      · by_cases hblock : (s.cache .file).block = some (addr i)
        · obtain ⟨-, hsum, -, hagrees⟩ := H.filling.held hblock
          rw [H.window Hcfg hend hblock, Nat.add_zero, hend] at hsum
          rwa [hsum] at hagrees
        · rw [← hend]
          exact H.filling.below hblock
      · exact H.chain.older i hlt
  cache hnil := by
    subst hnil
    have hzero := (H.chain.ends.of_zero (Nat.lt_of_le_of_lt (Nat.zero_le _) Hcfg.blockSize)).2
    have hB := Hcfg.blockSize
    omega

/-- The block behind a full one. -/
theorem Busy.newBlock (H : Busy cfg P full old content k addr s) (Hcfg : cfg.Fits)
    (hw : w.ProgramsLocal) (ha : w.Allocates cfg P) (hend : s.file.offset = cfg.blockSize)
    (hmax : cfg.Indexes (content.length + 1)) :
    Keeps (Allocs (SeesLists cfg)) (newBlock cfg w) s fun err s' => Code err ∧
      (err = errOk → Fresh cfg (InUse cfg full old content k addr) content s s') := by
  have He := H.extends_ Hcfg hend hmax
  have hnil : content ≠ [] := fun hnil => by
    subst hnil
    have hzero := (H.chain.ends.of_zero (Nat.lt_of_le_of_lt (Nat.zero_le _) Hcfg.blockSize)).2
    have hB := Hcfg.blockSize
    omega
  refine .get_bind (.ite (fun h => ?_) fun _ => ?_)
  · rw [H.isInline] at h
    cases h
  refine .bind (Q := fun err s' => err = errOk ∧ s' = s) (.ite (fun h => ?_) fun _ =>
    .pure ⟨rfl, rfl⟩) fun err s₁ h => ?_
  · rw [H.writing] at h
    cases h.1
  obtain ⟨rfl, rfl⟩ := h
  refine .ite (fun h => absurd rfl h) fun _ => ?_
  refine extendFile_spec (Q := InUse cfg full old content k addr) Hcfg hw He H.pos
    (fun hnil i hi => .inr ⟨hnil, i, hi, rfl⟩) (fun b hb => ?_) fun s₂ h hcache => ?_
  · rcases H.chain.cache with hnone | hblock
    · cases hnone.symm.trans hb
    · obtain rfl : addr k = b := Option.some.inj (hblock.symm.trans hb)
      exact .inr ⟨hnil, k, Nat.le_refl k, rfl⟩
  · -- what `lfs_alloc` sees
    have hfile : s₂.file = { s₁.file with cache := s₂.file.cache } := h.sameBut.file
    have hstored := H.stored.kept h.kept (fun _ => .inl) (by rw [hfile]) (by rw [hfile])
      (by rw [hfile])
    have hseen : ∀ b, s₂.seen .file b = s₂.disk b := fun b => funext fun x =>
      seen_of_not_has fun hhas => by
        rcases hcache with hsame | hnone
        · rw [State.cache, hsame] at hhas
          exact H.not_has Hcfg hend hhas
        · cases hnone.symm.trans hhas.1
    obtain ⟨Hs, -, -⟩ := He.source hnil
    have hoffset : s₂.file.offset = cfg.blockSize := by rw [hfile]; exact hend
    refine (hstored.visible_busy (fun b _ => hseen b) ?_ ?_ (Hs.lists.of_eq Hs.ends
      fun i hi => ?_) ?_ H.chain.room ?_ ?_ H.length).mayAlloc ha
    · rw [hfile]
      exact H.isInline
    · rw [hfile]
      exact H.writing
    · rw [hseen]
      exact h.kept.disk _ (.inr ⟨hnil, i, hi, rfl⟩)
    · rw [hoffset]
      exact Hs.ends
    · rw [hfile]
      exact H.head
    · rw [hfile]
      exact H.pos

/-- The check for a new block. -/
theorem Writes.startBlock (H : Writes cfg P full old content s) (Hcfg : cfg.Fits)
    (hw : w.ProgramsLocal) (ha : w.Allocates cfg P) (hmax : cfg.Indexes (content.length + 1)) :
    Keeps (Allocs (SeesLists cfg)) (startBlock cfg w) s fun err s' => Code err ∧
      (err = errOk → ∃ k addr, Busy cfg P full old content k addr s' ∧
        s'.file.offset < cfg.blockSize ∧ Onward cfg (ListBlock cfg full old) s s') := by
  -- what follows from the new block
  have hnew : ∀ {Q : Nat → Prop} {m : FileM Int}, Writer cfg P full old content s →
      s.writeCache.block = none → (∀ b, ListBlock cfg full old b → Q b) →
      Keeps (Allocs (SeesLists cfg)) m s (fun err s' => Code err ∧
        (err = errOk → Fresh cfg Q content s s')) →
      Keeps (Allocs (SeesLists cfg)) (do
        let err ← m
        if err ≠ errOk then return err
        else do
          Prog.modify (·.modFile fun f => { f with writing := true })
          return errOk) s fun err s' => Code err ∧
            (err = errOk → ∃ k addr, Busy cfg P full old content k addr s' ∧
              s'.file.offset < cfg.blockSize ∧ Onward cfg (ListBlock cfg full old) s s') := by
    intro Q m Hw hshared hQ hm
    refine .bind hm fun err s₁ h => ?_
    obtain ⟨hcode, hok⟩ := h
    refine .ite (fun herr => .pure ⟨hcode, fun h => absurd h herr⟩) fun herr => ?_
    have Hf := hok (not_not.mp herr)
    obtain ⟨k, addr, Hb⟩ := Hw.busy hshared Hf hQ
    exact .modify_bind (fun HA => HA.of_events rfl)
      (.pure ⟨.ok, fun _ => ⟨k, addr, Hb, Hf.room, Hf.onward hQ⟩⟩)
  refine .get_bind ?_
  cases H with
  | starting H =>
    refine .ite (fun _ => hnew H.toWriter H.shared (fun _ hb => hb)
      (H.newBlock Hcfg hw ha hmax)) fun h => ?_
    exact absurd (.inl H.writing) h
  | busy k addr H hlast =>
    refine .ite (fun h => hnew H.toWriter H.shared (fun _ => .inl)
      (H.newBlock Hcfg hw ha ?_ hmax)) fun h => ?_
    · refine h.resolve_left fun h => ?_
      cases H.writing.symm.trans h
    · obtain ⟨-, hoffset⟩ := not_or.mp h
      have hhigh := H.chain.ends.high
      exact .pure ⟨.ok, fun _ => ⟨k, addr, H, Nat.lt_of_le_of_ne hhigh hoffset, .refl ..⟩⟩

/-! ## Writing out -/

/-- A write to the last block, also one that fails. -/
theorem Chain.wrote (H : Chain cfg content k off addr s)
    (W : Wrote cfg .file (addr k) off bytes s err s') : Chain cfg content k off addr s' := by
  have hcache : (s'.cache .file).block = none ∨ (s'.cache .file).block = some (addr k) := by
    rcases W.cache with ⟨-, hsame⟩ | h
    · rw [hsame]
      exact H.cache
    · exact h
  refine ⟨H.lists.congr H.ends (fun i hi x => ?_) W.before, H.ends, H.room, H.fresh,
    fun i hi => W.kept.agreesBelow (H.fresh i hi) (H.older i hi), hcache, W.readable⟩
  rw [H.seen (H.fresh i hi), seen_of_not_has fun hhas => ?_, W.kept.disk _ (H.fresh i hi)]
  rcases hcache with hnone | hblock
  · cases hnone.symm.trans hhas.1
  · exact H.fresh i hi (Option.some.inj (hhas.1.symm.trans hblock))

/-- A write that succeeds. -/
theorem Chain.append (H : Chain cfg content k off addr s)
    (W : Wrote cfg .file (addr k) off bytes s errOk s')
    (hfits : off + bytes.length ≤ cfg.blockSize) :
    Chain cfg (content ++ bytes) k (off + bytes.length) addr s' := by
  obtain ⟨hlists, hends, hroom, hfresh, holder, hcache, -⟩ := H.wrote W
  obtain ⟨hfilling, hplaced⟩ := W.done rfl
  refine ⟨hlists.append hends hfits hplaced, ?_, hroom, hfresh, holder, hcache, hfilling.readable⟩
  rw [List.length_append]
  exact hends.add hfits

/-- What `lfs_alloc` sees of a file that is written to. -/
theorem Linked.visible (H : Linked cfg P full old content k addr s) :
    Visible cfg P (InUse cfg full old content k addr) s :=
  H.stored.visible_busy (fun _ hb => H.chain.seen fun h => H.apart (h ▸ hb)) H.isInline
    H.writing H.chain.lists H.chain.ends H.chain.room H.head H.pos H.length

/-- The current block is bad. -/
theorem Linked.relocate (H : Linked cfg P full old content k addr s) (Hcfg : cfg.Fits)
    (hw : w.ProgramsLocal) (ha : w.Allocates cfg P) (hshared : s.writeCache.block = none)
    (fuel : Nat) :
    Keeps (Allocs (SeesLists cfg)) (relocate cfg w fuel) s fun err s' => Code err ∧
      (err = errOk → (∃ addr, Busy cfg P full old content k addr s') ∧
        s'.file.offset = s.file.offset ∧ Onward cfg (ListBlock cfg full old) s s') := by
  refine .mono (relocate_spec (Q := InUse cfg full old content k addr) Hcfg hw H.chain H.isInline
    H.head rfl (fun hnil i hi => .inr ⟨hnil, i, hi, rfl⟩) hshared (fun s₁ h => ?_) fuel)
    fun err s' h => ⟨h.1, fun herr => ?_⟩
  · have hfile : s₁.file = s.file := h.sameBut.file
    refine Visible.mayAlloc (Linked.visible ?_) ha
    exact {
      isInline := by rw [hfile]; exact H.isInline
      reading := by rw [hfile]; exact H.reading
      stored := H.stored.kept h.kept (fun _ => .inl) (by rw [hfile]) (by rw [hfile])
        (by rw [hfile])
      append := by rw [hfile]; exact H.append
      pos := by rw [hfile]; exact H.pos
      length := H.length
      writing := by rw [hfile]; exact H.writing
      head := by rw [hfile]; exact H.head
      chain := by
        rw [hfile]
        exact H.chain.kept Hcfg h.kept (congrArg _ hfile) fun hnil i hi => .inr ⟨hnil, i, hi, rfl⟩
      apart := H.apart }
  · obtain ⟨hfile, hshared', hkept, hreloads, hfresh, ⟨addr', hhead, hchain⟩, hfilling⟩ := h.2 herr
    have honward : Onward cfg (ListBlock cfg full old) s s' :=
      ⟨by rw [hfile], fun _ => by rw [hfile], hkept.mono fun _ => .inl, hreloads⟩
    have hoffset : s'.file.offset = s.file.offset := by rw [hfile]
    rw [← hhead] at hfilling hfresh
    refine ⟨⟨addr', {
      toWriter := H.onward honward (by rw [hfile]; exact H.pos) (Nat.le_refl _) H.length
      writing := by rw [hfile]
      head := hhead
      chain := by rw [hoffset]; exact hchain
      apart := fun hb => hfresh (.inl hb)
      shared := hshared'
      filling := by rw [hoffset]; exact hfilling }⟩, hoffset, honward⟩

/-- The file once its bytes are written out. -/
def State.advanced (s : State) (n : Nat) : State :=
  s.modFile fun f => { f with pos := f.pos + n, offset := f.offset + n }

/-- **The bytes that fit into the current block**, or into the one that replaces it. -/
theorem Busy.writeOut (H : Busy cfg P full old content k addr s) (Hcfg : cfg.Fits)
    (hw : w.ProgramsLocal) (ha : w.Allocates cfg P)
    (hfits : s.file.offset + bytes.length ≤ cfg.blockSize)
    (hmax : cfg.Indexes (content.length + bytes.length)) (fuel : Nat) :
    Keeps (Allocs (SeesLists cfg)) (writeOut cfg w bytes fuel) s fun err s' => Code err ∧
      (err = errOk →
        (∃ addr, Busy cfg P full old (content ++ bytes) k addr (s'.advanced bytes.length)) ∧
          Onward cfg (ListBlock cfg full old) s (s'.advanced bytes.length)) := by
  induction fuel generalizing s addr with
  | zero => exact .stop
  | succ fuel ih =>
    have hblock : addr k < cfg.blockCount := H.chain.lists.list.lt k (Nat.le_refl k)
    have hinline : addr k ≠ blockInline := Nat.ne_of_lt (hblock.trans_le Hcfg.count)
    refine .get_bind ?_
    rw [← H.head]
    refine .bind (bdWrite_spec hw Hcfg.read Hcfg.cache .file hinline bytes H.filling)
      fun err s₁ W => ?_
    have hfile : s₁.file = { s.file with cache := s₁.file.cache } := W.sameBut.file
    have honward : Onward cfg (ListBlock cfg full old) s s₁ :=
      ⟨by rw [hfile], fun h => by rw [hfile]; exact h,
        W.kept.mono fun _ hb heq => H.apart (heq ▸ hb),
        fun hlong => W.reloads hlong hblock hfits⟩
    have hshared : s₁.writeCache.block = none := (congrArg _ W.sameBut.writeCache).trans H.shared
    have hoffset : s₁.file.offset = s.file.offset := by rw [hfile]
    refine .ite (fun herr => ?_) fun herr => .pure ⟨W.code, fun h => ?_⟩
    · have Hl : Linked cfg P full old content k addr s₁ := {
        toWriter := H.onward honward (by rw [hfile]; exact H.pos) (Nat.le_refl _) H.length
        writing := by rw [hfile]; exact H.writing
        head := by rw [hfile]; exact H.head
        chain := by rw [hoffset]; exact H.chain.wrote W
        apart := H.apart }
      refine .bind (Hl.relocate Hcfg hw ha hshared _) fun err s₂ h => ?_
      obtain ⟨hcode, hok⟩ := h
      refine .ite (fun herr => .pure ⟨hcode, fun h => absurd h herr⟩) fun herr => ?_
      obtain ⟨⟨addr', Hb⟩, hoffset', honward'⟩ := hok (not_not.mp herr)
      refine .mono (ih Hb (by rw [hoffset', hoffset]; exact hfits)) fun err s' h =>
        ⟨h.1, fun herr => ⟨(h.2 herr).1, (honward.trans honward').trans (h.2 herr).2⟩⟩
    · subst h
      have hchain := H.chain.append W hfits
      have hfilling := (W.done rfl).1
      rw [← hoffset] at hchain hfilling
      have honward' : Onward cfg (ListBlock cfg full old) s (s₁.advanced bytes.length) :=
        ⟨by rw [State.advanced, State.modFile, State.setFile, hfile], honward.writing,
          ⟨honward.kept.disk, honward.kept.readCache⟩, honward.reloads⟩
      refine ⟨⟨addr, {
        toWriter := H.onward honward' ?_ ?_ ?_
        writing := (congrArg File.writing hfile).trans H.writing
        head := H.head.trans (congrArg File.block hfile).symm
        chain := ⟨hchain.lists, hchain.ends, hchain.room, hchain.fresh, hchain.older,
          hchain.cache, hchain.readable⟩
        apart := H.apart
        shared := hshared
        filling := ⟨hfilling.held, hfilling.loose⟩ }⟩, honward'⟩
      · change s₁.file.pos + bytes.length = _
        rw [hfile, List.length_append, ← H.pos]
      · rw [List.length_append]
        exact Nat.le_add_right ..
      · rwa [List.length_append]

/-- **The loop of `lfs_file_flushedwrite`.** -/
theorem Writes.flushedwriteLoop (H : Writes cfg P full old content s) (Hcfg : cfg.Fits)
    (hw : w.ProgramsLocal) (ha : w.Allocates cfg P)
    (hmax : cfg.Indexes (content.length + bytes.length)) (fuel : Nat) :
    Keeps (Allocs (SeesLists cfg)) (flushedwriteLoop cfg w fuel bytes) s fun err s' => Code err ∧
      (err = errOk → Writes cfg P full old (content ++ bytes) s' ∧
        Onward cfg (ListBlock cfg full old) s s') := by
  induction fuel generalizing s content bytes with
  | zero => exact .stop
  | succ fuel ih =>
    refine .ite (fun hnil => ?_) fun hnil => ?_
    · subst hnil
      exact .pure ⟨.ok, fun _ => ⟨by rwa [List.append_nil], .refl ..⟩⟩
    have hpos := List.length_pos_iff.mpr hnil
    refine .bind (H.startBlock Hcfg hw ha (hmax.mono (by omega))) fun err s₁ h => ?_
    obtain ⟨hcode, hok⟩ := h
    refine .ite (fun herr => ?_) fun herr => ?_
    · exact .modify_bind (fun HA => HA.of_events rfl) (.pure ⟨hcode, fun h => absurd h herr⟩)
    obtain ⟨k, addr, Hb, hroom, honward⟩ := hok (not_not.mp herr)
    refine .get_bind ?_
    dsimp only
    obtain ⟨n, hn⟩ : ∃ n, min bytes.length (cfg.blockSize - s₁.file.offset) = n := ⟨_, rfl⟩
    have hlen : (bytes.take n).length = n := by rw [List.length_take]; omega
    have hdrop : (bytes.drop n).length = bytes.length - n := List.length_drop
    rw [hn]
    refine .bind (Hb.writeOut Hcfg hw ha (by rw [hlen]; omega) (hmax.mono (by rw [hlen]; omega)) _)
      fun err s₂ h => ?_
    obtain ⟨hcode, hok⟩ := h
    refine .ite (fun herr => ?_) fun herr => ?_
    · exact .modify_bind (fun HA => HA.of_events rfl) (.pure ⟨hcode, fun h => absurd h herr⟩)
    obtain ⟨⟨addr', Hb'⟩, honward'⟩ := hok (not_not.mp herr)
    have hlast := Hb.chain.ends.lt_of_append Hb'.chain.ends (by omega)
    rw [hlen] at Hb' honward' hlast
    refine .modify_bind (fun HA => HA.of_events rfl) ?_
    have hmax' : cfg.Indexes ((content ++ bytes.take n).length + (bytes.drop n).length) :=
      hmax.mono (by rw [List.length_append, hlen, hdrop]; omega)
    refine .mono (ih (.busy k addr' Hb' hlast) hmax') fun err s' h => ⟨h.1, fun herr => ?_⟩
    obtain ⟨Hw, honward''⟩ := h.2 herr
    rw [List.append_assoc, List.take_append_drop] at Hw
    exact ⟨Hw, (honward.trans honward').trans honward''⟩

theorem Writes.writer (H : Writes cfg P full old content s) :
    Writer cfg P full old content s := by
  cases H with
  | starting H => exact H.toWriter
  | busy k addr H hlast => exact H.toWriter

/-- **Consecutive writes.** -/
theorem Writes.flushedwrite (H : Writes cfg P full old content s) (Hcfg : cfg.Fits)
    (hw : w.ProgramsLocal) (ha : w.Allocates cfg P)
    (hmax : cfg.Indexes (content.length + bytes.length)) :
    Keeps (Allocs (SeesLists cfg)) (flushedwrite cfg w bytes) s fun res s' => res < 0 ∨
      res = bytes.length ∧ Writes cfg P full old (content ++ bytes) s' ∧
        Onward cfg (ListBlock cfg full old) s s' := by
  refine .get_bind (.bind (Q := fun err s' => err = errOk ∧ s' = s) (.ite (fun h => ?_) fun _ =>
    .pure ⟨rfl, rfl⟩) fun err s₁ h => ?_)
  · rw [H.writer.isInline] at h
    cases h.1
  obtain ⟨rfl, rfl⟩ := h
  refine .ite (fun h => absurd rfl h) fun _ => ?_
  refine .bind (H.flushedwriteLoop Hcfg hw ha hmax _) fun err s' h => ?_
  obtain ⟨hcode, hok⟩ := h
  refine .ite (fun herr => .pure (.inl (hcode.neg herr))) fun herr => ?_
  exact .pure (.inr ⟨rfl, hok (not_not.mp herr)⟩)

end FileIo

end LittleFs
