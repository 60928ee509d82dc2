import LittleFs.FileWrite
import LittleFs.Lib.ZeroFill

/-! Whole sessions on a file that is not inline: writes, reads, seeks and flushes do to the handle
what they do to bytes and a position, although blocks turn out to be bad at any time.

A flush puts the rest of the old list behind what was written. It reads that through the buffer of
`lfs->read_cache`, which the writes use too. -/

namespace LittleFs

open BitCount SkipList ZeroFill
open StateLogic StateLogic.Prog
open FileHandle (Whence)

namespace FileIo

variable {cfg : Config} {w : World} {A : File → (Nat → ByteImage.Image) → Prop}
  {P Q : Nat → Prop} {full content bytes : List UInt8} {old addr : Nat → Nat} {i k off n : Nat}
  {s s' s'' : State} {f f' f'' : File}

/-! ## Reading -/

/-- A copy of the handle reads from the list of the last flush. -/
structure Reader (cfg : Config) (full : List UInt8) (old : Nat → Nat) (s : State) (f : File) :
    Prop where
  isInline : f.isInline = false
  head : f.head = s.file.head
  size : f.size = s.file.size
  cache : CacheOn cfg (ListBlock cfg full old) s.disk f.cache
  placed : f.reading = true → f.Placed cfg old

theorem OnlyTime.symm (h : OnlyTime s s') : OnlyTime s' s :=
  ⟨⟨h.onlyReads.file.symm, h.onlyReads.writeCache.symm, h.onlyReads.disk.symm⟩, h.readCache.symm⟩

theorem File.Placed.of_reader (h : f.reader.Placed cfg.toReadConfig old) : f.Placed cfg old := by
  cases h with
  | inBlock hi hindex hblock =>
    refine .inBlock hi ?_ (Option.some.inj hblock) fun _ => ?_
    · exact congrArg Prod.fst hindex
    · exact congrArg Prod.snd hindex
  | atEnd hoffset hpos => exact .atEnd hoffset hpos
  | behind hpos hindex => exact .behind hpos hindex

theorem Reader.of_time (H : Reader cfg full old s f) (h : OnlyTime s s') :
    Reader cfg full old s' f := by
  obtain ⟨hinline, hhead, hsize, hcache, hplaced⟩ := H
  refine ⟨hinline, ?_, ?_, ?_, hplaced⟩
  · rwa [h.onlyReads.file]
  · rwa [h.onlyReads.file]
  · rwa [h.onlyReads.disk]

theorem Stored.of_time (H : Stored cfg P full old s) (h : OnlyTime s s') :
    Stored cfg P full old s' :=
  H.kept (h.kept fun _ => True) (fun _ _ => trivial) (by rw [h.onlyReads.file])
    (by rw [h.onlyReads.file]) (by rw [h.onlyReads.file])

/-- What the reads of a handle need. -/
theorem Stored.opened (H : Stored cfg P full old s) (Hcfg : cfg.Fits)
    (hhead : f.head = s.file.head) (hsize : f.size = s.file.size) :
    f.reader.Opened cfg.toReadConfig (fun b o n => .ok (ByteImage.read (s.disk b) o n)) s.disk old
      full where
  reads := ⟨Hcfg.read, fun _ _ _ _ _ _ => ⟨_, rfl⟩, fun _ _ _ _ h => (Except.ok.inj h).symm,
    Hcfg.window⟩
  stores := by
    have hsize' : f.reader.size = full.length := hsize.trans H.size
    have hnil : 0 < f.reader.size → full ≠ [] := fun h =>
      List.ne_nil_of_length_pos (hsize' ▸ h)
    refine ⟨hsize', fun h => ?_, fun h => ?_, fun pos i off hholds h => ?_⟩
    · rw [hsize']
      exact hhead.trans (H.head (hnil h)).symm
    · rw [hsize']
      exact (H.lists (hnil h)).list
    · exact (H.lists (List.ne_nil_of_length_pos (by omega))).byte i pos off hholds h
  exact pos hpos := H.length.exact pos hpos

/-- A read moves the handle. -/
def SameEntry (f f' : File) : Prop :=
  f' = { f with
    pos := f'.pos, offset := f'.offset, block := f'.block, cache := f'.cache,
    reading := f'.reading }

theorem SameEntry.refl (f : File) : SameEntry f f := rfl

theorem SameEntry.trans (h : SameEntry f f') (h' : SameEntry f' f'') : SameEntry f f'' := by
  rw [SameEntry, h', h]

theorem SameEntry.head (h : SameEntry f f') : f'.head = f.head := by rw [h]

theorem SameEntry.size (h : SameEntry f f') : f'.size = f.size := by rw [h]

/-- What a read of `n` bytes leaves and returns. -/
structure ReadsOut (cfg : Config) (full : List UInt8) (old : Nat → Nat) (n : Nat) (f : File)
    (s : State) (r : Except Int (List UInt8) × File) (s' : State) : Prop where
  time : OnlyTime s s'
  fails : Fails r.1
  same : SameEntry f r.2
  begun : r.2.reading = true ∨ r.1 = .ok [] ∧ r.2 = f ∨ ∃ err, r.1 = .error err
  done : ∀ bytes, r.1 = .ok bytes → bytes = slice full f.pos n ∧ r.2.pos = f.pos + n ∧
    Reader cfg full old s r.2

theorem findBlock_spec (Hs : Stored cfg P full old s)
    (H : Reader cfg full old s f) (hpos : f.pos < f.size) :
    Keeps (Allocs A) (findBlock cfg w f) s fun r s' => OnlyTime s s' ∧ Code r.1 ∧
      SameEntry f r.2 ∧ (r.1 = errOk → r.2.pos = f.pos ∧ Reader cfg full old s r.2 ∧
        ∃ i, r.2.reader.AtByte cfg.toReadConfig s.disk old i) := by
  have hfull := H.size.trans Hs.size
  have hexact := Hs.length.exact f.pos (by omega)
  have hatByte : ∀ {g : File} {i}, g.reading = true → g.block = old i →
      i ≤ (ctzIndex cfg.blockSize (g.size - 1)).1 → ctzIndex cfg.blockSize f.pos = (i, g.offset) →
      g.pos = f.pos → g.reader.AtByte cfg.toReadConfig s.disk old i := by
    intro g i hreading hblock hi hindex hpos
    rw [CtzExact, hindex] at hexact
    refine ⟨hreading, congrArg some hblock, hi, ?_, fun _ _ h => ?_, fun _ h => ?_⟩
    · change Holds 8 cfg.blockSize i g.pos g.offset
      rw [hpos]
      exact hexact
    · cases h.1
    · cases h
  refine .ite (fun _ => .ite (fun h => ?_) fun _ => ?_) fun hstay => ?_
  · rw [H.isInline] at h
    cases h
  · have hlast : (cfg.lastByte full).1 = (ctzIndex cfg.blockSize (f.size - 1)).1 := by
      rw [Config.lastByte, hfull]
    have hfind := ctzFind_spec (A := A) (w := w) Hs (show f.pos < full.length by omega) H.cache
    rw [← H.head, ← H.size] at hfind
    refine .bind hfind fun r s' h => ?_
    obtain ⟨res, cache⟩ := r
    obtain ⟨htime, hfails, hok⟩ := h
    cases res with
    | error err =>
      have hneg := hfails _ rfl
      exact .pure ⟨htime, .of_neg hneg, rfl, fun h => absurd h (Int.ne_of_lt hneg)⟩
    | ok r =>
      obtain ⟨⟨i, hi, hblock, hindex⟩, hcache⟩ := hok _ _ rfl
      rw [hlast] at hi
      refine .pure ⟨htime, .ok, rfl, fun _ => ⟨rfl, ⟨H.isInline, H.head, H.size, hcache,
        fun _ => .inBlock hi ?_ hblock fun _ => ?_⟩, i, hatByte rfl hblock hi hindex rfl⟩⟩
      · rw [hindex]
      · rw [hindex]
  · obtain ⟨hreading, hoffset⟩ := not_or.mp hstay
    rw [Bool.not_eq_false] at hreading
    refine .pure ⟨.refl s, .ok, rfl, fun _ => ⟨rfl, H, ?_⟩⟩
    cases H.placed hreading with
    | inBlock hi hindex hblock hplace =>
      exact ⟨_, hatByte hreading hblock hi (Prod.ext hindex (hplace hpos)) rfl⟩
    | atEnd hend => exact absurd hend hoffset
    | behind hout => omega

/-- The bytes of one block. -/
theorem readBlock_spec (Hcfg : cfg.Fits) (Hs : Stored cfg P full old s)
    (H : Reader cfg full old s f) (Hat : f.reader.AtByte cfg.toReadConfig s.disk old i)
    (htime : OnlyTime s s') (hin : f.offset + n ≤ cfg.blockSize) (hend : f.pos + n ≤ f.size)
    (hpos : f.pos < f.size) :
    Keeps (Allocs A) (readBlock cfg w f n) s' fun r s'' => OnlyTime s s'' ∧ Fails r.1 ∧
      ∀ bytes, r.1 = .ok bytes → bytes = slice full f.pos n ∧
        Reader cfg full old s { f with
          cache := r.2, pos := f.pos + n, offset := f.offset + n } := by
  have Ho := Hs.opened Hcfg H.head H.size
  have hfull := H.size.trans Hs.size
  have hnil : full ≠ [] := List.ne_nil_of_length_pos (by omega)
  have hblock : f.block = old i := Option.some.inj Hat.block
  have hi : i ≤ (cfg.lastByte full).1 := by
    have hi : i ≤ (ctzIndex cfg.blockSize (f.size - 1)).1 := Hat.index_le
    rwa [hfull, ← Config.lastByte] at hi
  refine .ite (fun h => ?_) fun _ => ?_
  · rw [H.isInline] at h
    cases h
  refine .mono (bdRead_spec ..) fun r s'' h => ?_
  obtain ⟨res, cache⟩ := r
  obtain ⟨rfl, hread, hfails⟩ := h
  refine ⟨htime.trans (.tick s'), hfails, fun bytes h => ?_⟩
  cases h
  rw [htime.onlyReads.disk] at hread
  obtain ⟨hcache, rfl⟩ := H.cache.read hread ⟨hnil, i, hi, hblock.symm⟩ hin
  refine ⟨?_, H.isInline, H.head, H.size, hcache, ?_⟩
  · rw [hblock]
    exact Ho.chunk Hat hin hend
  · have hagrees : ({} : WriteCache).Agrees s.disk := fun _ _ h => by cases h.1
    have haligned : ({} : WriteCache).Aligned cfg.toReadConfig := fun _ h => by cases h
    exact fun h => .of_reader ((Ho.advance Hat hin hend hpos hagrees haligned).placed h)

/-- The loop of a read. -/
theorem flushedreadLoop_spec (Hcfg : cfg.Fits) (Hs : Stored cfg P full old s)
    (H : Reader cfg full old s f) (hsize : f.pos + n ≤ f.size) (fuel : Nat) :
    Keeps (Allocs A) (flushedreadLoop cfg w fuel n f) s (ReadsOut cfg full old n f s) := by
  induction fuel generalizing s n f with
  | zero => exact .stop
  | succ fuel ih =>
    refine .ite (fun hzero => ?_) fun hzero => ?_
    · subst hzero
      refine .pure ⟨.refl s, .ok _, rfl, .inr (.inl ⟨rfl, rfl⟩), fun bytes h => ?_⟩
      cases h
      exact ⟨List.take_zero.symm, rfl, H⟩
    refine .bind (findBlock_spec Hs H (by omega)) fun r s₁ h => ?_
    obtain ⟨err, f₁⟩ := r
    obtain ⟨htime, hcode, hsame, hok⟩ := h
    refine .ite (fun herr => .pure ⟨htime, .error (hcode.neg herr), hsame, .inr (.inr ⟨_, rfl⟩),
      fun _ h => ?_⟩) fun herr => ?_
    · cases h
    obtain ⟨hpos, H₁, i, Hat⟩ := hok (not_not.mp herr)
    have hpos : f₁.pos = f.pos := hpos
    have hsize₁ : f₁.size = f.size := hsame.size
    have hoff : f₁.offset < cfg.blockSize := by
      have hlist := (Hs.opened Hcfg H₁.head H₁.size).stores.list
        (show 0 < f₁.size by omega)
      exact Hat.holds.off_lt (hlist.room i Hat.index_le)
    obtain ⟨diff, hdiff⟩ : ∃ diff, min n (cfg.blockSize - f₁.offset) = diff := ⟨_, rfl⟩
    rw [hdiff]
    refine .bind (readBlock_spec (n := diff) Hcfg Hs H₁ Hat htime (by omega) (by omega) (by omega))
      fun r s₂ h => ?_
    obtain ⟨res, cache⟩ := r
    obtain ⟨htime₂, hfails, hok⟩ := h
    cases res with
    | error err =>
      refine .pure ⟨htime₂, .error (hfails _ rfl), hsame.trans rfl, .inr (.inr ⟨_, rfl⟩),
        fun _ h => ?_⟩
      cases h
    | ok bytes =>
      obtain ⟨rfl, H₂⟩ := hok _ rfl
      rw [hpos] at H₂ ⊢
      dsimp only at H₂ ⊢
      refine .bind (ih (s := s₂) (n := n - diff) (Hs.of_time htime₂) (H₂.of_time htime₂)
        (by dsimp only; omega)) fun r s' h => ?_
      obtain ⟨rest, f'⟩ := r
      obtain ⟨htime₃, hfails, hsame', hbegun, hok⟩ := h
      refine .pure ⟨htime₂.trans htime₃, fun err h => ?_, hsame.trans hsame', ?_,
        fun bytes h => ?_⟩
      · cases rest with
        | error err =>
          cases h
          exact hfails _ rfl
        | ok rest => cases h
      · rcases hbegun with hreading | ⟨-, rfl⟩ | ⟨err, rfl⟩
        · exact .inl hreading
        · exact .inl Hat.reading
        · exact .inr (.inr ⟨err, rfl⟩)
      · cases rest with
        | error err => cases h
        | ok rest =>
          obtain ⟨rfl, hpos', Hr⟩ := hok rest rfl
          have hpos' : f'.pos = f.pos + diff + (n - diff) := hpos'
          cases h
          refine ⟨?_, ?_, Hr.of_time htime₂.symm⟩
          · dsimp only
            rw [slice_append_slice, Nat.add_sub_cancel' (by omega)]
          · dsimp only
            omega

theorem slice_min : slice full off (min n (full.length - off)) = slice full off n := by
  rw [slice, slice, ← List.length_drop]
  exact (List.take_eq_take_min ..).symm

theorem flushedread_spec (Hcfg : cfg.Fits) (Hs : Stored cfg P full old s)
    (H : Reader cfg full old s f) (n : Nat) :
    Keeps (Allocs A) (flushedread cfg w n f) s
      (ReadsOut cfg full old (min n (full.length - f.pos)) f s) := by
  have hfull := H.size.trans Hs.size
  refine .ite (fun hend => .pure ⟨.refl s, .ok _, rfl, .inr (.inl ⟨rfl, rfl⟩), fun bytes h => ?_⟩)
    fun hend => ?_
  · cases h
    have hzero : min n (full.length - f.pos) = 0 := by omega
    rw [hzero]
    exact ⟨List.take_zero.symm, rfl, H⟩
  · rw [hfull]
    exact flushedreadLoop_spec Hcfg Hs H (by omega) _

/-! ## Behind what was written -/

/-- The handle that `lfs_file_flush` reads the rest of the old list with: the buffer of its cache is
that of `lfs->read_cache`, from which it has nothing else. -/
structure Orig (cfg : Config) (full : List UInt8) (old : Nat → Nat) (s : State) (orig : File) :
    Prop where
  dropped : s.readCache.block = none
  reader : Reader cfg full old s
    { orig with cache := { orig.cache with buffer := s.readCache.buffer } }

/-- All but the buffer of `lfs->read_cache` is as before, and it has nothing. -/
structure Rebuffers (s s' : State) : Prop where
  onlyReads : OnlyReads s s'
  dropped : s'.readCache.block = none

theorem Rebuffers.kept (h : Rebuffers s s') (Q : Nat → Prop) : Kept Q s s' :=
  ⟨fun b _ => congrFun h.onlyReads.disk b, .inr fun _ _ => .of_block fun hb => by
    cases h.dropped.symm.trans hb⟩

theorem readOrig_spec (Hcfg : cfg.Fits) (Hs : Stored cfg P full old s) (H : Orig cfg full old s f)
    (hpos : f.pos < full.length) :
    Keeps (Allocs A) (readOrig cfg w f) s fun r s' => Rebuffers s s' ∧ Fails r.1 ∧
      ∀ bytes, r.1 = .ok bytes → bytes = slice full f.pos 1 ∧ r.2.pos = f.pos + 1 ∧
        Orig cfg full old s' r.2 := by
  refine .get_bind (.bind (flushedread_spec Hcfg Hs H.reader 1) fun r s₁ h => ?_)
  obtain ⟨res, f₁⟩ := r
  obtain ⟨htime, hfails, hsame, -, hok⟩ := h
  have hdropped : s₁.readCache.block = none := by
    rw [htime.readCache]
    exact H.dropped
  obtain ⟨honly, -⟩ := htime
  refine .modify_bind (fun HA => HA.of_events rfl) (.pure ⟨⟨⟨honly.file, honly.writeCache,
    honly.disk⟩, hdropped⟩, hfails, fun bytes h => ?_⟩)
  obtain ⟨hbytes, hpos', Hr⟩ := hok bytes h
  have hone : min 1 (full.length - f.pos) = 1 := by omega
  rw [show min 1 (full.length - _) = _ from hone] at hbytes hpos'
  refine ⟨hbytes, hpos', hdropped, Hr.isInline, ?_, ?_, ?_, Hr.placed⟩
  · exact Hr.head.trans (congrArg File.head honly.file).symm
  · exact Hr.size.trans (congrArg File.size honly.file).symm
  · change CacheOn cfg _ s₁.disk f₁.cache
    rw [honly.disk]
    exact Hr.cache

theorem Stored.of_reads (H : Stored cfg P full old s) (h : OnlyReads s s')
    (hkept : Kept (fun _ => True) s s') : Stored cfg P full old s' :=
  H.kept hkept (fun _ _ => trivial) (by rw [h.file]) (by rw [h.file]) (by rw [h.file])

theorem Writes.of_reads (H : Writes cfg P full old content s) (Hcfg : cfg.Fits)
    (h : OnlyReads s s') (hkept : Kept (fun _ => True) s s') :
    Writes cfg P full old content s' := by
  have hfile := h.file
  have hshared := h.writeCache
  have hw : Writer cfg P full old content s' := by
    have Hs := H.writer.stored.of_reads h hkept
    obtain ⟨hinline, hreading, -, happend, hpos, hlength⟩ := H.writer
    rw [← hfile] at hinline hreading happend hpos
    exact ⟨hinline, hreading, Hs, happend, hpos, hlength⟩
  cases H with
  | starting H =>
    obtain ⟨-, hwriting, hshared', hcache, hcontent⟩ := H
    rw [← hfile] at hwriting hcache
    rw [← hshared] at hshared'
    exact .starting ⟨hw, hwriting, hshared', hcache, hcontent⟩
  | busy k addr H hlast =>
    have hcache : s'.file.cache = s.file.cache := congrArg File.cache hfile
    have Hc := H.chain.kept Hcfg hkept hcache fun _ _ _ => trivial
    have Hf := H.filling.kept hkept trivial hcache
    obtain ⟨⟨-, hwriting, hhead, -, hapart⟩, hshared', -⟩ := H
    rw [← hfile] at hwriting hhead Hc Hf hlast
    rw [← hshared] at hshared'
    exact .busy k addr ⟨⟨hw, hwriting, hhead, Hc, hapart⟩, hshared', Hf⟩ hlast

/-- What calls leave that succeed: the mode of the handle, and what its directory owes to it. -/
structure Follows (s s' : State) : Prop where
  append : s'.file.append = s.file.append
  erred : s.file.erred = false → s'.file.erred = false
  clean : s'.file.dirty = false →
    s.file.dirty = false ∧ s'.file.head = s.file.head ∧ s'.file.size = s.file.size

theorem Follows.refl (s : State) : Follows s s := ⟨rfl, id, fun h => ⟨h, rfl, rfl⟩⟩

theorem Follows.trans (h : Follows s s') (h' : Follows s' s'') : Follows s s'' :=
  ⟨h'.append.trans h.append, h'.erred ∘ h.erred, fun hclean => by
    obtain ⟨hclean, hhead, hsize⟩ := h'.clean hclean
    obtain ⟨hclean, hhead', hsize'⟩ := h.clean hclean
    exact ⟨hclean, hhead.trans hhead', hsize.trans hsize'⟩⟩

theorem Follows.of_sameEntry (h : SameEntry s.file s'.file) : Follows s s' := by
  constructor <;> rw [h]
  · exact id
  · exact fun h => ⟨h, rfl, rfl⟩

theorem Follows.of_file (h : s'.file = s.file) : Follows s s' :=
  .of_sameEntry (by rw [h]; exact .refl _)

theorem Onward.follows (h : Onward cfg Q s s') : Follows s s' := by
  constructor <;> rw [h.file]
  · exact id
  · exact fun h => ⟨h, rfl, rfl⟩

theorem SameBut.follows (h : SameBut .file s s') : Follows s s' := by
  have hfile : s'.file = { s.file with cache := s'.file.cache } := h.file
  exact .of_sameEntry (by rw [SameEntry, hfile])

/-- The buffer has not changed, or the handle is told. -/
theorem Orig.onward (H : Orig cfg full old s f)
    (h : Onward cfg (ListBlock cfg full old) s s') (hlong : 256 < cfg.cacheSize)
    (hnone : s'.readCache.block = none) : Orig cfg full old s' f := by
  have hread : s'.readCache = s.readCache := (h.reloads hlong).resolve_right (not_not.mpr hnone)
  obtain ⟨hinline, hhead, hsize, hcache, hplaced⟩ := H.reader
  refine ⟨hnone, hinline, ?_, ?_, fun b hb => ?_, hplaced⟩
  · rw [h.file]
    exact hhead
  · rw [h.file]
    exact hsize
  · rw [hread]
    intro x hlo hhi hhas hnot
    rw [h.kept.disk b hb]
    exact hcache b hb x hlo hhi hhas hnot

/-- The reference to the read cache is kept in sync. -/
theorem Orig.dropped_onward (H : Orig cfg full old s f)
    (h : Onward cfg (ListBlock cfg full old) s s') :
    Orig cfg full old (s'.setRead s'.readCache.drop) { f with cache := f.cache.drop } := by
  obtain ⟨hinline, hhead, hsize, -, hplaced⟩ := H.reader
  refine ⟨rfl, hinline, ?_, ?_, .empty rfl, hplaced⟩
  · change f.head = s'.file.head
    rw [h.file]
    exact hhead
  · change f.size = s'.file.size
    rw [h.file]
    exact hsize

theorem rebuffers_drop (s : State) : Rebuffers s (s.setRead s.readCache.drop) :=
  ⟨⟨rfl, rfl, rfl⟩, rfl⟩

/-- **The rest of the old list** is copied over behind what was written. -/
theorem Writes.flushCopy (H : Writes cfg P full old content s) (Hcfg : cfg.Fits)
    (hlong : 256 < cfg.cacheSize) (hw : w.ProgramsLocal) (ha : w.Allocates cfg P)
    (Ho : Orig cfg full old s f) (hpos : f.pos = content.length) (fuel : Nat) :
    Keeps (Allocs (SeesLists cfg)) (flushCopy cfg w fuel f) s fun err s' => Code err ∧
      (err = errOk → Writes cfg P full old (content ++ full.drop content.length) s' ∧
        Follows s s' ∧ (s.file.writing = true → s'.file.writing = true)) := by
  induction fuel generalizing s content f with
  | zero => exact .stop
  | succ fuel ih =>
    have Hs := H.writer.stored
    have hat := H.writer.pos
    have hsize := Hs.size
    have hmax := Hs.length
    refine .get_bind (.ite (fun hlt => ?_) fun hge => ?_)
    · refine .bind (readOrig_spec Hcfg Hs Ho (by omega)) fun r s₁ h => ?_
      obtain ⟨res, f₁⟩ := r
      obtain ⟨hre, hfails, hok⟩ := h
      cases res with
      | error err =>
        have hneg := hfails _ rfl
        exact .pure ⟨.of_neg hneg, fun h => absurd h (Int.ne_of_lt hneg)⟩
      | ok data =>
        obtain ⟨hdata, hpos₁, Ho₁⟩ := hok _ rfl
        rw [hpos] at hdata hpos₁
        have hlen : data.length = 1 := by
          rw [hdata, length_slice]
          omega
        have hrest : content ++ full.drop content.length =
            (content ++ data) ++ full.drop (content ++ data).length := by
          rw [List.append_assoc, List.length_append, hlen, hdata, slice_append_drop]
        have H₁ := H.of_reads Hcfg hre.onlyReads (hre.kept _)
        refine .bind (H₁.flushedwrite Hcfg hw ha (hmax.mono (by omega))) fun res s₂ h => ?_
        refine .ite (fun hneg => .pure ⟨.of_neg hneg, fun h => absurd h (Int.ne_of_lt hneg)⟩)
          fun hnot => ?_
        obtain ⟨-, H₂, honward⟩ := h.resolve_left hnot
        have hfollows : Follows s s₂ := (Follows.of_file hre.onlyReads.file).trans honward.follows
        have hwriting : s.file.writing = true → s₂.file.writing = true := fun h =>
          honward.writing (by rw [hre.onlyReads.file]; exact h)
        have hafter : ∀ {s' : State} {bytes}, Writes cfg P full old bytes s' ∧
            Follows s₂ s' ∧ (s₂.file.writing = true → s'.file.writing = true) →
            Writes cfg P full old bytes s' ∧ Follows s s' ∧
              (s.file.writing = true → s'.file.writing = true) := fun h =>
          ⟨h.1, hfollows.trans h.2.1, h.2.2 ∘ hwriting⟩
        have hpos₂ : f₁.pos = (content ++ data).length := by
          rw [List.length_append, hlen]
          exact hpos₁
        rw [hrest]
        refine .get_bind (.ite (fun _ => ?_) fun hnone => ?_)
        · have hdrop := rebuffers_drop s₂
          refine .modify_bind (fun HA => HA.of_events rfl) ?_
          exact .mono (ih (H₂.of_reads Hcfg hdrop.onlyReads (hdrop.kept _))
            (Ho₁.dropped_onward honward) hpos₂) fun err s' h => ⟨h.1, fun herr => by
              obtain ⟨H', hfollows, hwriting⟩ := h.2 herr
              exact hafter ⟨H', .trans (.of_file hdrop.onlyReads.file) hfollows, hwriting⟩⟩
        · exact .mono (ih H₂ (Ho₁.onward honward hlong (not_not.mp hnone)) hpos₂)
            fun err s' h => ⟨h.1, fun herr => hafter (h.2 herr)⟩
    · have hall : full.drop content.length = [] := List.drop_eq_nil_of_le (by omega)
      rw [hall, List.append_nil]
      exact .pure ⟨.ok, fun _ => ⟨H, .refl s, id⟩⟩

/-- The list of what was written is on the device. -/
structure Settled (cfg : Config) (P : Nat → Prop) (full : List UInt8) (old : Nat → Nat)
    (content : List UInt8) (k : Nat) (addr : Nat → Nat) (s : State) : Prop
    extends Linked cfg P full old content k addr s where
  shared : s.writeCache.block = none
  last : 8 * pointers k < s.file.offset
  empty : s.file.cache.block = none
  agrees : AgreesOn (addr k) s

/-- A flush of the cache that fails. -/
theorem Chain.refused (H : Chain cfg content k off addr s)
    (hfilling : Filling cfg .file (addr k) off s) (F : Flushed cfg .file (addr k) s err s')
    (hblock : s.file.cache.block = some (addr k)) (herr : err ≠ errOk) :
    Chain cfg content k off addr s' := by
  obtain ⟨-, hsum, -⟩ := hfilling.held hblock
  obtain ⟨hseen, hreadable⟩ := F.refused hblock hsum herr
  have hcache : s'.file.cache = s.file.cache := (F.failed herr).1
  have hother : ∀ i < k, s'.seen .file (addr i) = s.seen .file (addr i) := fun i hi => by
    funext x
    rw [State.seen, State.cache, hcache, seenThrough, F.kept.disk _ (H.fresh i hi)]
    rfl
  exact {
    lists := H.lists.congr H.ends (fun i hi => congrFun (hother i hi)) hseen
    ends := H.ends
    room := H.room
    fresh := H.fresh
    older := fun i hi => F.kept.agreesBelow (H.fresh i hi) (H.older i hi)
    cache := by rw [hcache]; exact H.cache
    readable := hreadable }

/-- A flush of the cache that succeeds. -/
theorem Chain.placed (H : Chain cfg content k off addr s)
    (hfilling : Filling cfg .file (addr k) off s) (F : Flushed cfg .file (addr k) s errOk s')
    (hblock : s.file.cache.block = some (addr k)) : Chain cfg content k off addr s' := by
  obtain ⟨-, hsum, -⟩ := hfilling.held hblock
  obtain ⟨hnone, hagrees, -⟩ := F.done rfl
  have hseen : ∀ b, s'.seen .file b = s'.disk b := fun b => funext fun x =>
    seen_of_not_has fun hhas => by cases hnone.symm.trans hhas.1
  exact {
    lists := H.lists.congr H.ends
      (fun i hi x => by rw [hseen, H.seen (H.fresh i hi), F.kept.disk _ (H.fresh i hi)])
      (fun x hx => by rw [hseen, F.placed hblock hsum rfl x hx])
    ends := H.ends
    room := H.room
    fresh := H.fresh
    older := fun i hi => F.kept.agreesBelow (H.fresh i hi) (H.older i hi)
    cache := .inl hnone
    readable := fun x _ _ hhas _ => hagrees (x + 1) x (Nat.lt_succ_self x) hhas }

theorem Linked.of_chain (H : Linked cfg P full old content k addr s)
    (h : SameBut .file s s') (hkept : Kept (· ≠ addr k) s s')
    (hchain : Chain cfg content k s.file.offset addr s') :
    Linked cfg P full old content k addr s' := by
  have hfile : s'.file = { s.file with cache := s'.file.cache } := h.file
  have hoffset : s'.file.offset = s.file.offset := by rw [hfile]
  exact {
    isInline := by rw [hfile]; exact H.isInline
    reading := by rw [hfile]; exact H.reading
    stored := H.stored.kept hkept (fun b hb heq => H.apart (heq ▸ hb)) (by rw [hfile])
      (by rw [hfile]) (by rw [hfile])
    append := by rw [hfile]; exact H.append
    pos := by rw [hfile]; exact H.pos
    length := H.length
    writing := by rw [hfile]; exact H.writing
    head := by rw [hfile]; exact H.head
    chain := hoffset ▸ hchain
    apart := H.apart }

/-- **The flush of the cache**, into the current block or into the one that replaces it. -/
theorem Busy.flushOut (H : Busy cfg P full old content k addr s) (Hcfg : cfg.Fits)
    (hw : w.ProgramsLocal) (ha : w.Allocates cfg P) (hlast : 8 * pointers k < s.file.offset)
    (fuel : Nat) :
    Keeps (Allocs (SeesLists cfg)) (flushOut cfg w fuel) s fun err s' => Code err ∧
      (err = errOk → (∃ addr, Settled cfg P full old content k addr s') ∧ Follows s s') := by
  induction fuel generalizing s addr with
  | zero => exact .stop
  | succ fuel ih =>
    rcases H.chain.cache with hnone | hblock
    · -- nothing is in the cache
      refine .bind (bdFlush_of_none hnone) fun err s₁ h => ?_
      obtain ⟨rfl, rfl⟩ := h
      refine .ite (fun h => by cases h) fun _ => .pure ⟨.ok, fun _ => ⟨⟨addr, H.toLinked, H.shared,
        hlast, hnone, ?_⟩, .refl _⟩⟩
      have hne : (s₁.cache .file).block ≠ some (addr k) := fun h => by cases hnone.symm.trans h
      exact (H.filling.loose hne).2.resolve_left (by omega)
    · have hlt : addr k < cfg.blockCount := H.chain.lists.list.lt k (Nat.le_refl k)
      have hinline : addr k ≠ blockInline := Nat.ne_of_lt (hlt.trans_le Hcfg.count)
      obtain ⟨hdvd, hsum, -, hagrees⟩ := H.filling.held hblock
      refine .bind (bdFlush_spec hw Hcfg.read Hcfg.cache.writeSize .file hblock hinline hdvd
        hagrees) fun err s₁ F => ?_
      have hfile : s₁.file = { s.file with cache := s₁.file.cache } := F.sameBut.file
      have hshared : s₁.writeCache.block = none :=
        (congrArg _ F.sameBut.writeCache).trans H.shared
      have hoffset : s₁.file.offset = s.file.offset := by rw [hfile]
      refine .ite (fun herr => ?_) fun herr => .pure ⟨F.code, fun h => ?_⟩
      · have hne : err ≠ errOk := by
          rw [herr]
          decide
        have Hl := H.toLinked.of_chain F.sameBut F.kept (H.chain.refused H.filling F hblock hne)
        refine .bind (Hl.relocate Hcfg hw ha hshared _) fun err s₂ h => ?_
        obtain ⟨hcode, hok⟩ := h
        refine .ite (fun herr => .pure ⟨hcode, fun h => absurd h herr⟩) fun herr => ?_
        obtain ⟨⟨addr', Hb⟩, hoffset', honward⟩ := hok (not_not.mp herr)
        have hfollows := F.sameBut.follows.trans honward.follows
        exact .mono (ih Hb (by rw [hoffset', hoffset]; exact hlast)) fun err s' h =>
          ⟨h.1, fun herr => ⟨(h.2 herr).1, hfollows.trans (h.2 herr).2⟩⟩
      · subst h
        obtain ⟨hnone, hon, -⟩ := F.done rfl
        exact ⟨⟨addr, H.toLinked.of_chain F.sameBut F.kept (H.chain.placed H.filling F hblock),
          hshared, by rw [hoffset]; exact hlast, hnone, hon⟩, F.sameBut.follows⟩

/-- The file after its flush, with the position of before. -/
def State.flushed (s : State) (pos : Nat) : State :=
  s.modFile fun f =>
    { f with head := f.block, size := f.pos, writing := false, dirty := true, pos }

theorem Settled.idle (H : Settled cfg P full old content k addr s) (pos : Nat) :
    Idle cfg P content addr (s.flushed pos) := by
  have hlastByte : content ≠ [] → (cfg.lastByte content).1 = k := fun hnil => by
    have hpos := List.length_pos_iff.mpr hnil
    have hexact := H.length.exact (content.length - 1) (by omega)
    rw [Config.lastByte]
    exact (hexact.unique (H.chain.ends.holds_last H.last)).1
  have hseen : ∀ b, s.seen .file b = s.disk b := fun b => funext fun x =>
    seen_of_not_has fun hhas => by cases H.empty.symm.trans hhas.1
  exact {
    writing := rfl
    isInline := H.isInline
    shared := H.shared
    stored := {
      size := H.pos
      head := fun hnil => by
        rw [hlastByte hnil]
        exact H.head
      lists := fun hnil => by
        rw [hlastByte hnil]
        exact H.chain.lists.of_eq H.chain.ends fun i _ => (hseen (addr i)).symm
      length := H.length
      agrees := fun b hb => by
        obtain ⟨hnil, i, hi, rfl⟩ := hb
        rw [hlastByte hnil] at hi
        rcases Nat.eq_or_lt_of_le hi with rfl | hlt
        · exact H.agrees cfg.blockSize
        · exact H.chain.older i hlt
      visible := .inr rfl }
    cache := .empty H.empty
    dropped := fun _ => H.empty
    placed := fun h => absurd (H.reading.symm.trans h) Bool.false_ne_true }

/-- Between two calls the handle holds the bytes. -/
inductive State.Holds (cfg : Config) (P : Nat → Prop) (bytes : List UInt8) (s : State) : Prop
  | idle (old : Nat → Nat) (H : Idle cfg P bytes old s)
  | busy (full : List UInt8) (old : Nat → Nat) (content : List UInt8) (k : Nat) (addr : Nat → Nat)
      (H : Busy cfg P full old content k addr s) (hlast : 8 * pointers k < s.file.offset)
      (hbytes : bytes = content ++ full.drop content.length)

/-- What a flush leaves. -/
structure Flushes (cfg : Config) (P : Nat → Prop) (bytes : List UInt8) (s s' : State) : Prop where
  idle : ∃ old, Idle cfg P bytes old s'
  reading : s'.file.reading = false
  pos : s'.file.pos = s.file.pos
  follows : Follows s s'

theorem Idle.flush (H : Idle cfg P full old s) :
    Keeps (Allocs A) (flush cfg w) s fun err s' => Code err ∧
      (err = errOk → Idle cfg P full old s' ∧ Flushes cfg P full s s') := by
  have hdrop : Idle cfg P full old (s.modFile File.dropReads) ∧
      Flushes cfg P full s (s.modFile File.dropReads) := by
    have hinline := H.isInline
    by_cases hreading : s.file.reading = true
    · have hfile : s.file.dropReads =
          { s.file with cache := s.file.cache.drop, reading := false } := by
        rw [File.dropReads, if_pos hreading, if_neg (by rw [hinline]; exact Bool.false_ne_true)]
      have Hi : Idle cfg P full old (s.modFile File.dropReads) := by
        rw [State.modFile, hfile]
        exact {
          writing := H.writing
          isInline := H.isInline
          shared := H.shared
          stored := H.stored.kept ⟨fun _ _ => rfl, .inl rfl⟩ (fun b hb => hb) rfl rfl rfl
          cache := .empty rfl
          dropped := fun _ => rfl
          placed := fun h => by cases h }
      rw [State.modFile, hfile] at Hi ⊢
      exact ⟨Hi, ⟨old, Hi⟩, rfl, rfl, rfl, id, fun h => ⟨h, rfl, rfl⟩⟩
    · have hfile : s.file.dropReads = s.file := by rw [File.dropReads, if_neg hreading]
      rw [State.modFile, hfile]
      exact ⟨H, ⟨old, H⟩, Bool.not_eq_true _ ▸ hreading, rfl, .refl s⟩
  have hwriting := hdrop.1.writing
  refine .modify_bind (fun HA => HA.of_events rfl) (.get_bind (.ite (fun h => ?_) fun _ => ?_))
  · rw [hwriting] at h
    cases h
  · exact .pure ⟨.ok, fun _ => hdrop⟩

/-- The writes of a flush. -/
theorem Busy.flushBlocks (H : Busy cfg P full old content k addr s) (Hcfg : cfg.Fits)
    (hlong : 256 < cfg.cacheSize) (hw : w.ProgramsLocal) (ha : w.Allocates cfg P)
    (hlast : 8 * pointers k < s.file.offset) :
    Keeps (Allocs (SeesLists cfg)) (flushBlocks cfg w) s fun err s' => Code err ∧
      (err = errOk → (∃ k addr, Settled cfg P full old (content ++ full.drop content.length) k
        addr s') ∧ Follows s s') := by
  have hdrop := rebuffers_drop s
  have Hw : Writes cfg P full old content (s.setRead s.readCache.drop) :=
    Writes.of_reads (.busy k addr H hlast) Hcfg hdrop.onlyReads (hdrop.kept _)
  have Ho : Orig cfg full old (s.setRead s.readCache.drop)
      { head := s.file.head, size := s.file.size, pos := s.file.pos, cache := s.readCache } :=
    ⟨rfl, rfl, rfl, rfl, fun b hb x _ hx hhas _ => H.stored.agrees b hb x (by omega) hhas,
      fun h => by cases h⟩
  refine .get_bind (.modify_bind (fun HA => HA.of_events rfl) ?_)
  refine .bind (Hw.flushCopy Hcfg hlong hw ha Ho H.pos _) fun err s₁ h => ?_
  obtain ⟨hcode, hok⟩ := h
  refine .ite (fun hneg => .pure ⟨hcode, fun h => absurd h (Int.ne_of_lt hneg)⟩) fun hnot => ?_
  obtain ⟨H₁, hfollows, hwriting⟩ := hok (hcode.resolve_right hnot)
  have hfollows := (Follows.of_file hdrop.onlyReads.file).trans hfollows
  have hwriting := hwriting H.writing
  cases H₁ with
  | starting H₁ => cases H₁.writing.symm.trans hwriting
  | busy k addr H₁ hlast =>
    refine .mono (H₁.flushOut Hcfg hw ha hlast _) fun err s' h => ⟨h.1, fun herr => ?_⟩
    obtain ⟨⟨addr, Hs⟩, hfollows'⟩ := h.2 herr
    exact ⟨⟨k, addr, Hs⟩, hfollows.trans hfollows'⟩

/-- **A flush** stores what was written and the rest of the old bytes. -/
theorem Busy.flush (H : Busy cfg P full old content k addr s) (Hcfg : cfg.Fits)
    (hlong : 256 < cfg.cacheSize) (hw : w.ProgramsLocal) (ha : w.Allocates cfg P)
    (hlast : 8 * pointers k < s.file.offset) :
    Keeps (Allocs (SeesLists cfg)) (FileIo.flush cfg w) s fun err s' => Code err ∧
      (err = errOk → Flushes cfg P (content ++ full.drop content.length) s s') := by
  have hdrop : s.modFile File.dropReads = s := by
    rw [State.modFile, File.dropReads, if_neg (by rw [H.reading]; exact Bool.false_ne_true)]
    rfl
  refine .modify_bind (fun HA => HA.of_events rfl) ?_
  rw [hdrop]
  refine .get_bind (.ite (fun _ => ?_) fun h => absurd H.writing h)
  refine .bind (Q := fun err s' => Code err ∧ (err = errOk → (∃ k addr, Settled cfg P full old
    (content ++ full.drop content.length) k addr s') ∧ Follows s s'))
    (.get_bind (.ite (fun h => ?_) fun _ => H.flushBlocks Hcfg hlong hw ha hlast))
    fun err s₁ h => ?_
  · rw [H.isInline] at h
    cases h
  obtain ⟨hcode, hok⟩ := h
  refine .ite (fun herr => .pure ⟨hcode, fun h => absurd h herr⟩) fun herr => ?_
  obtain ⟨⟨k', addr', Hs⟩, hfollows⟩ := hok (not_not.mp herr)
  exact .modify_bind (fun HA => HA.of_events rfl) (.pure ⟨.ok, fun _ =>
    ⟨⟨addr', Hs.idle s.file.pos⟩, Hs.reading, rfl, hfollows.append, hfollows.erred,
      fun h => by cases h⟩⟩)

theorem State.Holds.flush (H : s.Holds cfg P bytes) (Hcfg : cfg.Fits) (hlong : 256 < cfg.cacheSize)
    (hw : w.ProgramsLocal) (ha : w.Allocates cfg P) :
    Keeps (Allocs (SeesLists cfg)) (FileIo.flush cfg w) s fun err s' => Code err ∧
      (err = errOk → Flushes cfg P bytes s s') := by
  cases H with
  | idle old H => exact .mono H.flush fun err s' h => ⟨h.1, fun herr => (h.2 herr).2⟩
  | busy full old content k addr H hlast hbytes =>
    subst hbytes
    exact H.flush Hcfg hlong hw ha hlast

end FileIo

end LittleFs
