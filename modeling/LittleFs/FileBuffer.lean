import LittleFs.CopyOnWrite
import LittleFs.BufferedWrite

/-! Consecutive writes to one block through the cache of a file, over a device that may fail: what a
write that succeeds has put behind the bytes before it, and what one that fails leaves of these.

The read cache need not agree with the device. Neither an erase nor a program that fails drops it,
so it may hold old bytes of the block that is written, behind those that are on the device. -/

namespace LittleFs

open StateLogic StateLogic.Prog

/-! ## Reads from a cache that agrees where it is read -/

section Reads

variable {cfg : ReadConfig} {rawread : RawRead} {content : Nat → ByteImage.Image}
  {written : Option WriteCache} {hint block offset size : Nat} {r r' : WriteCache}

/-- Where the read cache is asked for bytes of the range, it has those of the device. -/
def AgreesFor (content : Nat → ByteImage.Image) (written : Option WriteCache)
    (block offset size : Nat) (r : WriteCache) : Prop :=
  ∀ x, offset ≤ x → x < offset + size → r.Has block x → (∀ c ∈ written, ¬ c.Has block x) →
    r.buffer (x - r.offset) = content block x

theorem WriteCache.Agrees.agreesFor (H : r.Agrees content) :
    AgreesFor content written block offset size r := fun x _ _ hhas _ => H block x hhas

theorem AgreesFor.mono (H : AgreesFor content written block offset size r) (hle : offset ≤ offset')
    (hend : offset' + size' ≤ offset + size) : AgreesFor content written block offset' size' r :=
  fun x hlo hhi => H x (hle.trans hlo) (Nat.lt_of_lt_of_le hhi hend)

theorem readRound_copied_at (hfaithful : Faithful rawread content)
    (H : AgreesFor content written block offset size r) (hsize : 0 < size)
    (h : readRound cfg rawread written hint block offset size r = .copied bytes r') :
    r' = r ∧ bytes.length ≤ size ∧
      bytes = ByteImage.read (seenThrough written content block) offset bytes.length := by
  have hkind := readRound_kind cfg rawread written hint block offset r hsize
  rw [h] at hkind
  cases hkind with
  | @written c _ hw hhit =>
    obtain ⟨-, hle, hbytes, hhas⟩ := WriteCache.lookup_hit hhit hsize
    refine ⟨rfl, hle, hbytes.trans (WriteCache.read_buffer fun i hlo hhi => ?_)⟩
    have hhas := hhas i hlo hhi
    rw [hw]
    exact ⟨hhas.2.1, (if_pos hhas).symm⟩
  | cached hdiff hnot hhit =>
    obtain ⟨-, hle, hbytes, hhas⟩ := WriteCache.lookup_hit hhit hdiff.1
    refine ⟨rfl, hle.trans hdiff.2, hbytes.trans (WriteCache.read_buffer fun i hlo hhi => ?_)⟩
    have hhas := hhas i hlo hhi
    have hnot : ∀ c ∈ written, ¬ c.Has block i := fun c hc => hnot c hc i hlo (by omega)
    rw [seenThrough_of_not_has hnot]
    exact ⟨hhas.2.1, H i hlo (by omega) hhas hnot⟩
  | direct hdiff hnot hends haligned hread =>
    have hbytes := hfaithful _ _ _ _ hread
    have hlength := congrArg List.length hbytes
    rw [ByteImage.length_read] at hlength
    refine ⟨rfl, by omega, ?_⟩
    rw [hlength]
    refine hbytes.trans (read_congr fun i hlo hhi => ?_)
    exact (seenThrough_of_not_has fun c hc => hnot c hc i hlo (by omega)).symm

/-- What a read leaves of the read cache and what it returns. -/
structure ReadInto (cfg : ReadConfig) (content : Nat → ByteImage.Image)
    (written : Option WriteCache) (hint block offset size : Nat) (r : WriteCache)
    (res : Except Int (List UInt8)) (r' : WriteCache) : Prop where
  cache : r' = r ∨ r'.block = some block ∧ ∀ lo, cfg.readSize ∣ lo → lo ≤ offset → lo ≤ r'.offset
  agrees : ∀ bytes, res = .ok bytes → r' = r ∨ r'.Agrees content
  bytes : ∀ bytes, res = .ok bytes → AgreesFor content written block offset size r →
    bytes = ByteImage.read (seenThrough written content block) offset size
  /-- A read of less than the hint fills an empty cache, also when it fails. -/
  loads : block < cfg.blockCount → offset + size ≤ cfg.blockSize → 0 < size → size < hint →
    written = none → r.block = none → r'.block = some block

theorem le_sub_mod {lo n a : Nat} (hdvd : n ∣ lo) (hle : lo ≤ a) : lo ≤ a - a % n := by
  obtain ⟨k, rfl⟩ := hdvd
  rcases Nat.eq_zero_or_pos n with rfl | hpos
  · rw [Nat.zero_mul]
    exact Nat.zero_le _
  · have hdiv := Nat.div_add_mod a n
    have hk : k ≤ a / n := (Nat.le_div_iff_mul_le hpos).mpr (by rwa [Nat.mul_comm])
    have hmul := Nat.mul_le_mul_left n hk
    omega

theorem readRound_moves (hsize : 0 < size) :
    (∀ err, readRound cfg rawread written hint block offset size r = .failed err r' →
      r' = r ∨ r'.block = some block ∧ ∀ lo, cfg.readSize ∣ lo → lo ≤ offset → lo ≤ r'.offset) ∧
    (readRound cfg rawread written hint block offset size r = .loaded r' →
      r'.block = some block ∧ ∀ lo, cfg.readSize ∣ lo → lo ≤ offset → lo ≤ r'.offset) := by
  have hkind := readRound_kind cfg rawread written hint block offset r hsize
  refine ⟨fun err h => ?_, fun h => ?_⟩
  · rw [h] at hkind
    cases hkind with
    | directFailed => exact .inl rfl
    | fillFailed => exact .inr ⟨rfl, fun lo hdvd hle => le_sub_mod hdvd hle⟩
  · rw [h] at hkind
    cases hkind with
    | filled => exact ⟨rfl, fun lo hdvd hle => le_sub_mod hdvd hle⟩

/-- The first round loads into a cache that has nothing. -/
theorem readRound_loads (hhint : size < hint) (h : r.block = none) :
    (∃ err r', readRound cfg rawread none hint block offset size r = .failed err r' ∧
        r'.block = some block) ∨
      ∃ r', readRound cfg rawread none hint block offset size r = .loaded r' ∧
        r'.block = some block := by
  have hfills : Fills cfg none hint block offset size r := by
    refine ⟨fun c hc => absurd hc (Option.not_mem_none c), fun hhas => ?_, fun hdirect => ?_⟩
    · rw [hhas.1] at h
      cases h
    · exact Nat.not_le_of_lt hhint hdirect.1
  rw [hfills.round, loadCache]
  split
  · exact .inl ⟨_, _, rfl, rfl⟩
  · exact .inr ⟨_, rfl, rfl⟩

theorem readLoop_into (hfaithful : Faithful rawread content)
    (h : readLoop cfg rawread written hint block fuel offset size r = some (res, r')) :
    ReadInto cfg content written hint block offset size r res r' := by
  induction fuel generalizing offset size r res with
  | zero => cases h
  | succ fuel ih =>
    rw [readLoop] at h
    split at h
    · subst size
      cases h
      refine ⟨.inl rfl, fun _ _ => .inl rfl, fun bytes hbytes _ => ?_, fun _ _ hsize => ?_⟩
      · cases hbytes
        rfl
      · cases hsize
    · rename_i hne
      have hsize := Nat.pos_of_ne_zero hne
      split at h
      · rename_i err r₁ hround
        cases h
        refine ⟨(readRound_moves hsize).1 err hround, fun _ h => ?_, fun _ h => ?_,
          fun _ _ _ hhint hw hnone => ?_⟩
        · cases h
        · cases h
        · subst hw
          rcases readRound_loads hhint hnone with ⟨_, _, heq, hblock⟩ | ⟨_, heq, -⟩
          · rw [hround] at heq
            cases heq
            exact hblock
          · rw [hround] at heq
            cases heq
      · rename_i r₁ hround
        have hagrees := readRound_loaded hfaithful hsize hround
        obtain ⟨hblock, hge⟩ := (readRound_moves hsize).2 hround
        obtain ⟨hcache, hagrees', hbytes, -⟩ := ih h
        have hcache : r'.block = some block ∧
            ∀ lo, cfg.readSize ∣ lo → lo ≤ offset → lo ≤ r'.offset := by
          rcases hcache with rfl | hcache
          · exact ⟨hblock, hge⟩
          · exact hcache
        refine ⟨.inr hcache, fun bytes hok => .inr ?_, fun bytes hok _ => hbytes bytes hok
          hagrees.agreesFor, fun _ _ _ _ _ _ => hcache.1⟩
        · rcases hagrees' bytes hok with rfl | hagrees'
          · exact hagrees
          · exact hagrees'
      · rename_i copied r₁ hround
        obtain ⟨⟨rest, r₂⟩, hrest, heq⟩ := Option.map_eq_some_iff.mp h
        obtain ⟨rfl, rfl⟩ := Prod.ext_iff.mp heq
        have hr₁ : r₁ = r := by
          have hkind := readRound_kind cfg rawread written hint block offset r hsize
          rw [hround] at hkind
          cases hkind <;> rfl
        subst hr₁
        obtain ⟨hcache, hagrees, hbytes, -⟩ := ih hrest
        refine ⟨hcache.imp id fun h => ⟨h.1, fun lo hdvd hle => h.2 lo hdvd (by omega)⟩,
          fun bytes hok => ?_, fun bytes hok H => ?_, fun _ _ _ hhint hw hnone => ?_⟩
        · cases rest with
          | error err => cases hok
          | ok rest => exact hagrees rest rfl
        · cases rest with
          | error err => cases hok
          | ok rest =>
            cases hok
            obtain ⟨-, hle, hcopied⟩ := readRound_copied_at hfaithful H hsize hround
            have hrest := hbytes rest rfl (H.mono (Nat.le_add_right ..) (by omega))
            rw [← Nat.add_sub_cancel' hle, ByteImage.read_append, ← hrest, ← hcopied]
        · subst hw
          rcases readRound_loads hhint hnone with ⟨_, _, heq, -⟩ | ⟨_, heq, -⟩ <;>
            rw [hround] at heq <;> cases heq

end Reads

namespace FileIo

/-! ## The calls of `lfs_alloc` -/

/-- The calls of `lfs_alloc` so far have met files and devices with `A`. -/
def Allocs (A : File → (Nat → ByteImage.Image) → Prop) (s : State) : Prop :=
  ∀ f d, Event.allocated f d ∈ s.events → A f d

variable {cfg : Config} {w : World} {A : File → (Nat → ByteImage.Image) → Prop} {slot : Slot}
  {s s' s'' : State}

theorem Allocs.of_events (H : Allocs A s) (h : s'.events = s.events) : Allocs A s' := by
  intro f d he
  rw [h] at he
  exact H f d he

theorem Allocs.cons (H : Allocs A s) (h : s'.events = e :: s.events) (hblock : e.block ≠ none) :
    Allocs A s' := by
  intro f d he
  rw [h] at he
  rcases List.mem_cons.mp he with rfl | he
  · exact absurd rfl hblock
  · exact H f d he

/-! ## Reads -/

theorem rawread_faithful (w : World) (s : State) : Faithful (rawread w s) s.disk := by
  intro block off size bytes h
  rw [rawread] at h
  split at h <;> cases h
  rfl

theorem cachedRead_into {rawread : RawRead} {content : Nat → ByteImage.Image}
    (hfaithful : Faithful rawread content)
    (h : cachedRead cfg.toReadConfig rawread written hint block fuel offset size r =
      some (res, r')) :
    ReadInto cfg.toReadConfig content written hint block offset size r res r' := by
  rw [cachedRead] at h
  split at h
  · rename_i hout
    cases h
    refine ⟨.inl rfl, fun _ h => ?_, fun _ h => ?_, fun _ _ => ?_⟩
    · cases h
    · cases h
    · omega
  · exact readLoop_into hfaithful h

theorem bdRead_spec (written : Option WriteCache) (hint block offset size : Nat) (r : WriteCache) :
    Keeps (Allocs A) (bdRead cfg w written hint block offset size r) s fun a s' =>
      s' = s.tick ∧ ReadInto cfg.toReadConfig s.disk written hint block offset size r a.1 a.2 ∧
        Fails a.1 := by
  refine ⟨fun H => ?_⟩
  rw [Ensures, bdRead]
  cases hread : cachedRead cfg.toReadConfig (rawread w s) written hint block cfg.fuel offset size
      r with
  | none => exact H.of_events rfl
  | some a =>
    exact ⟨H.of_events rfl, rfl, cachedRead_into (rawread_faithful w s) hread,
      cachedRead_fails hread⟩

/-- All but `lfs->read_cache` is as before. -/
structure OnlyReads (s s' : State) : Prop where
  file : s'.file = s.file
  writeCache : s'.writeCache = s.writeCache
  disk : s'.disk = s.disk

theorem OnlyReads.refl (s : State) : OnlyReads s s := ⟨rfl, rfl, rfl⟩

theorem OnlyReads.trans (h : OnlyReads s s') (h' : OnlyReads s' s'') : OnlyReads s s'' :=
  ⟨h'.file.trans h.file, h'.writeCache.trans h.writeCache, h'.disk.trans h.disk⟩

theorem OnlyReads.same (h : OnlyReads s s') : Same s s' := ⟨h.file, h.writeCache⟩

theorem sharedRead_spec (written : Option WriteCache) (hint block offset size : Nat) :
    Keeps (Allocs A) (sharedRead cfg w written hint block offset size) s fun res s' =>
      OnlyReads s s' ∧ ReadInto cfg.toReadConfig s.disk written hint block offset size s.readCache
        res s'.readCache ∧ Fails res := by
  refine .get_bind (.bind (bdRead_spec ..) fun a s' h => ?_)
  obtain ⟨res, r⟩ := a
  obtain ⟨rfl, hread⟩ := h
  exact .modify_bind (fun H => H.of_events rfl) (.pure ⟨⟨rfl, rfl, rfl⟩, hread⟩)

/-! ## Read back -/

/-- Below `lo` the read cache has no other bytes of the block than the device. -/
def AgreesBelow (lo block : Nat) (s : State) : Prop :=
  ∀ x < lo, s.readCache.Has block x → s.readCache.buffer (x - s.readCache.offset) = s.disk block x

/-- The read cache has nothing of the block but what the device has. -/
def AgreesOn (block : Nat) (s : State) : Prop := ∀ lo, AgreesBelow lo block s

theorem AgreesBelow.of_block (h : s.readCache.block ≠ some block) : AgreesBelow lo block s :=
  fun _ _ hhas => absurd hhas.1 h

theorem AgreesOn.of_block (h : s.readCache.block ≠ some block) : AgreesOn block s :=
  fun _ => .of_block h

theorem AgreesOn.of_agrees (H : s.readCache.Agrees s.disk) : AgreesOn block s :=
  fun _ x _ hhas => H block x hhas

/-- A read leaves the cache on the same block or on the block that is read. -/
theorem agreesOn_read {cfg : ReadConfig}
    (H : ReadInto cfg s.disk written hint block offset size s.readCache (.ok bytes) s'.readCache)
    (hdisk : s'.disk = s.disk) (h : AgreesOn block' s) : AgreesOn block' s' := by
  rcases H.agrees bytes rfl with hsame | hagrees
  · intro lo x hx hhas
    rw [hsame, hdisk]
    rw [hsame] at hhas
    exact h lo x hx hhas
  · rw [← hdisk] at hagrees
    exact .of_agrees hagrees

/-- What the comparison of a program with what is on the device leaves. -/
structure Compared (cfg : Config) (lo block offset : Nat) (bytes : List UInt8) (s : State)
    (res : Except Int Bool) (s' : State) : Prop where
  onlyReads : OnlyReads s s'
  below : AgreesBelow lo block s'
  cache : s'.readCache = s.readCache ∨ s'.readCache.block = some block
  fails : Fails res
  /-- More bytes than are compared at once go through the cache. -/
  loads : block < cfg.blockCount → offset + bytes.length ≤ cfg.blockSize → 256 < bytes.length →
    s.readCache.block = none → s'.readCache.block = some block
  done : res = .ok true → AgreesOn block s' ∧
    ByteImage.read (s.disk block) offset bytes.length = bytes

theorem bdCmp_spec (block : Nat) (fuel offset : Nat) (bytes : List UInt8) {lo : Nat}
    (hlo : cfg.readSize ∣ lo) (hle : lo ≤ offset) (H : AgreesOn block s) :
    Keeps (Allocs A) (bdCmp cfg w block fuel offset bytes) s
      (Compared cfg lo block offset bytes s) := by
  induction fuel generalizing s offset bytes with
  | zero => exact .stop
  | succ fuel ih =>
    refine .ite (fun hnil => ?_) fun hnil => ?_
    · subst hnil
      refine .pure ⟨.refl s, H lo, .inl rfl, .ok _, fun _ _ h => ?_, fun _ => ⟨H, rfl⟩⟩
      cases h
    refine .bind (sharedRead_spec ..) fun res s' h => ?_
    obtain ⟨honly, hread, hfails⟩ := h
    have hcache := hread.cache.imp id And.left
    have hpos := List.length_pos_iff.mpr hnil
    have hloads : block < cfg.blockCount → offset + bytes.length ≤ cfg.blockSize →
        256 < bytes.length → s.readCache.block = none → s'.readCache.block = some block :=
      fun hblock hend hlong => hread.loads hblock (by omega) (by omega) (by omega) rfl
    cases res with
    | error err =>
      refine .pure ⟨honly, ?_, hcache, .error (hfails _ rfl), hloads, fun h => ?_⟩
      · rcases hread.cache with hsame | ⟨-, hge⟩
        · intro x hx hhas
          rw [hsame, honly.disk]
          rw [hsame] at hhas
          exact H lo x hx hhas
        · intro x hx hhas
          have hge := hge lo hlo hle
          have hhas := hhas.2.1
          omega
      · cases h
    | ok dat =>
      have H' := agreesOn_read hread honly.disk H
      refine .ite (fun _ => .pure ⟨honly, H' lo, hcache, .ok _, hloads, fun h => ?_⟩) fun hequal =>
        ?_
      · cases h
      have hdat : bytes.take (min bytes.length 256) =
          ByteImage.read (s.disk block) offset (min bytes.length 256) := by
        rw [← not_not.mp hequal]
        exact hread.bytes dat rfl fun x _ _ hhas _ => H (x + 1) x (Nat.lt_succ_self x) hhas
      refine .mono (ih _ _ (hle.trans (Nat.le_add_right ..)) H') fun res s'' C => ?_
      have hcache' : s''.readCache.block = s'.readCache.block ∨ s''.readCache.block = some block :=
        C.cache.imp (congrArg _) id
      refine ⟨honly.trans C.onlyReads, C.below, ?_, C.fails, fun hblock hend hlong hnone => ?_,
        fun hres => ⟨(C.done hres).1, ?_⟩⟩
      · rcases C.cache with h | h
        · rw [h]
          exact hcache
        · exact .inr h
      · rcases hcache' with h | h
        · exact h.trans (hloads hblock hend hlong hnone)
        · exact h
      · have hrest := (C.done hres).2
        rw [honly.disk, List.length_drop] at hrest
        rw [← Nat.add_sub_cancel' (Nat.min_le_left bytes.length 256), ByteImage.read_append,
          hrest, ← hdat, List.take_append_drop]

/-! ## Programs -/

/-- A program changes bytes of its own range only, also when it fails. -/
def World.ProgramsLocal (w : World) : Prop :=
  ∀ clock block offset bytes image i, i < offset ∨ offset + bytes.length ≤ i →
    (w.program clock block offset bytes image).2 i = image i

/-- The blocks of `Q` are as before, and the read cache has nothing new of them but what they
hold. -/
structure Kept (Q : Nat → Prop) (s s' : State) : Prop where
  disk : ∀ b, Q b → s'.disk b = s.disk b
  readCache : s'.readCache = s.readCache ∨ ∀ b, Q b → AgreesOn b s'

variable {Q Q' : Nat → Prop}

theorem Kept.refl (Q : Nat → Prop) (s : State) : Kept Q s s := ⟨fun _ _ => rfl, .inl rfl⟩

theorem Kept.mono (h : Kept Q s s') (hQ : ∀ b, Q' b → Q b) : Kept Q' s s' :=
  ⟨fun b hb => h.disk b (hQ b hb), h.readCache.imp id fun h b hb => h b (hQ b hb)⟩

theorem AgreesBelow.congr (H : AgreesBelow lo b s) (hread : s'.readCache = s.readCache)
    (hdisk : s'.disk b = s.disk b) : AgreesBelow lo b s' := by
  intro x hx hhas
  rw [hread, hdisk]
  rw [hread] at hhas
  exact H x hx hhas

theorem Kept.agreesBelow (h : Kept Q s s') (hb : Q b) (H : AgreesBelow lo b s) :
    AgreesBelow lo b s' := by
  rcases h.readCache with heq | hagrees
  · exact H.congr heq (h.disk b hb)
  · exact hagrees b hb lo

theorem Kept.agreesOn (h : Kept Q s s') (hb : Q b) (H : AgreesOn b s) : AgreesOn b s' :=
  fun lo => h.agreesBelow hb (H lo)

theorem Kept.trans (h : Kept Q s s') (h' : Kept Q s' s'') : Kept Q s s'' := by
  refine ⟨fun b hb => (h'.disk b hb).trans (h.disk b hb), ?_⟩
  rcases h.readCache with heq | hagrees
  · exact h'.readCache.imp (·.trans heq) id
  · exact .inr fun b hb => h'.agreesOn hb (hagrees b hb)

/-- The read cache is as before, or something was loaded since it was dropped. -/
def Reloads (s s' : State) : Prop := s'.readCache = s.readCache ∨ s'.readCache.block ≠ none

theorem Reloads.trans (h : Reloads s s') (h' : Reloads s' s'') : Reloads s s'' := by
  rcases h' with heq | hblock
  · rw [Reloads, heq]
    exact h
  · exact .inr hblock

/-- What a flush leaves: the bytes of the window are on the device, or are still in the cache. -/
structure Flushed (cfg : Config) (slot : Slot) (block : Nat) (s : State) (err : Int) (s' : State) :
    Prop where
  sameBut : SameBut slot s s'
  kept : Kept (· ≠ block) s s'
  below : ∀ x < (s.cache slot).offset, s'.disk block x = s.disk block x
  code : Code err
  failed : err ≠ errOk → s'.cache slot = s.cache slot ∧ AgreesBelow (s.cache slot).offset block s'
  done : err = errOk → (s'.cache slot).block = none ∧ AgreesOn block s' ∧
    ∀ x, (s.cache slot).offset ≤ x → x < (s.cache slot).offset + (s.cache slot).size →
      s'.disk block x = (s.cache slot).buffer (x - (s.cache slot).offset)
  reloads : 256 < (s.cache slot).size → block < cfg.blockCount →
    (s.cache slot).offset + alignup (s.cache slot).size cfg.writeSize ≤ cfg.blockSize → Reloads s s'

/-- Nothing is written out of an empty cache. -/
theorem bdFlush_of_none (h : (s.cache slot).block = none) :
    Keeps (Allocs A) (bdFlush cfg w slot) s fun err s' => err = errOk ∧ s' = s := by
  refine .get_bind ?_
  dsimp only
  split
  · exact .pure ⟨rfl, rfl⟩
  · rename_i hsome
    cases h.symm.trans hsome

theorem bdFlush_spec (hw : w.ProgramsLocal) (hcfg : cfg.toReadConfig.Ok) (hws : 0 < cfg.writeSize)
    (slot : Slot) (hblock : (s.cache slot).block = some block) (hinline : block ≠ blockInline)
    (hdvd : cfg.cacheSize ∣ (s.cache slot).offset)
    (H : AgreesBelow (s.cache slot).offset block s) :
    Keeps (Allocs A) (bdFlush cfg w slot) s (Flushed cfg slot block s) := by
  refine .get_bind ?_
  dsimp only
  split
  · rename_i hnone
    rw [hblock] at hnone
    cases hnone
  rename_i b hb
  obtain rfl : b = block := Option.some.inj (hb.symm.trans hblock)
  obtain ⟨c, hc⟩ : ∃ c, s.cache slot = c := ⟨_, rfl⟩
  rw [hc] at hblock hdvd H ⊢
  obtain ⟨bytes, hbytes⟩ : ∃ bytes,
      ByteImage.read c.buffer 0 (alignup c.size cfg.writeSize) = bytes := ⟨_, rfl⟩
  rw [if_neg hinline, hbytes]
  -- the state after the program
  refine .bind (Q := fun err s' => Same s s' ∧ Kept (· ≠ b) s s' ∧ s'.readCache = s.readCache ∧
    (∀ x < c.offset, s'.disk b x = s.disk b x) ∧ Code err) ⟨fun HA => ?_⟩ fun err s' h => ?_
  · refine ⟨HA.cons rfl (fun h => by cases h), ⟨rfl, rfl⟩, ⟨fun b' hne => ?_, .inl rfl⟩, rfl,
      fun x hx => ?_, code_resultOf _⟩
    · exact Function.update_of_ne hne _ _
    · exact (congrFun (Function.update_self b _ s.disk) x).trans
        (hw s.clock b c.offset bytes (s.disk b) x (.inl hx))
  obtain ⟨hsame, hkept, hread, hbelow, hcode⟩ := h
  have H' : AgreesBelow c.offset b s' := fun x hx hhas => by
    rw [hread, hbelow x hx]
    rw [hread] at hhas
    exact H x hx hhas
  have hcache : s'.cache slot = s.cache slot := hsame.cache slot
  refine .ite (fun herr => .pure ⟨hsame.sameBut slot, hkept, ?_, hcode, fun _ => ⟨hcache, ?_⟩,
    fun h => absurd h herr, fun _ _ _ => .inl hread⟩) fun _ => ?_
  · rwa [hc]
  · rwa [hc]
  refine .modify_bind (fun H => H.of_events rfl) ?_
  have hdrop : AgreesOn b (s'.setRead s'.readCache.drop) := .of_block fun h => by cases h
  have hlo : cfg.readSize ∣ c.offset := hcfg.readSize_dvd.trans hdvd
  refine .bind (bdCmp_spec b _ c.offset bytes hlo (Nat.le_refl _) hdrop) fun res s'' h => ?_
  obtain ⟨honly, hagrees, hcmp, hfails, hloads, hok⟩ := h
  have hlen : bytes.length = alignup c.size cfg.writeSize := by
    rw [← hbytes, ByteImage.length_read]
  have hge := le_alignup c.size hws
  have hreloads : 256 < (s.cache slot).size → b < cfg.blockCount → (s.cache slot).offset +
      alignup (s.cache slot).size cfg.writeSize ≤ cfg.blockSize → Reloads s s'' := by
    intro hlong hb hend
    rw [hc] at hlong hend
    refine .inr ?_
    rw [hloads hb (by omega) (by omega) rfl]
    exact fun h => by cases h
  have hsame' : Same s s'' := ⟨honly.file.trans hsame.file, honly.writeCache.trans hsame.writeCache⟩
  have hdisk : s''.disk = s'.disk := honly.disk
  have hkept' : Kept (· ≠ b) s s'' := by
    refine ⟨fun b' hne => ?_, .inr fun b' hne => ?_⟩
    · rw [hdisk]
      exact hkept.disk b' hne
    · refine .of_block fun hb' => ?_
      rcases hcmp with h | h
      · rw [h] at hb'
        cases hb'
      · exact hne (Option.some.inj (hb'.symm.trans h))
  have hbelow' : ∀ x < (s.cache slot).offset, s''.disk b x = s.disk b x := fun x hx => by
    rw [hc] at hx
    rw [hdisk]
    exact hbelow x hx
  have hfailed : ∀ err, err < 0 → Flushed cfg slot b s err s'' := fun err hneg =>
    ⟨hsame'.sameBut slot, hkept', hbelow', .of_neg hneg, fun _ => ⟨hsame'.cache slot, hc ▸ hagrees⟩,
      fun h => absurd h (Int.ne_of_lt hneg), hreloads⟩
  cases res with
  | error err => exact .pure (hfailed err (hfails _ rfl))
  | ok equal =>
    cases equal with
    | false => exact .pure (hfailed _ (by decide))
    | true =>
      obtain ⟨hon, hequal⟩ := hok rfl
      refine .modify_bind (fun H => H.of_events ?_) (.pure ⟨?_, ?_, ?_, .ok, fun h => absurd rfl h,
        fun _ => ⟨?_, ?_, fun x hlo hhi => ?_⟩, ?_⟩)
      · cases slot <;> rfl
      · exact (hsame'.sameBut slot).trans (.setCache ..)
      · cases slot <;> exact ⟨hkept'.disk, hkept'.readCache⟩
      · cases slot <;> exact hbelow'
      · rw [cache_setCache]
        rfl
      · cases slot <;> exact hon
      · rw [hc] at hlo hhi ⊢
        have hat := congrArg (·[x - c.offset]?) (hequal.trans hbytes.symm)
        simp only [ByteImage.getElem?_read] at hat
        rw [if_pos (by omega), if_pos (by omega), Nat.zero_add, Nat.add_sub_cancel' hlo] at hat
        have hat' := Option.some.inj hat
        cases slot <;> exact (congrFun (congrFun hdisk b) x).trans hat'
      · cases slot <;> exact hreloads

/-! ## Writes -/

/-- The bytes of the device under those of a cache. -/
def State.seen (s : State) (slot : Slot) : Nat → ByteImage.Image :=
  seenThrough (some (s.cache slot)) s.disk

/-- The block is filled up to the offset: whole windows of it are on the device, and what follows
them is in the cache. -/
structure Filling (cfg : Config) (slot : Slot) (block offset : Nat) (s : State) : Prop where
  held : (s.cache slot).block = some block → cfg.cacheSize ∣ (s.cache slot).offset ∧
    (s.cache slot).offset + (s.cache slot).size = offset ∧ (s.cache slot).size < cfg.cacheSize ∧
      AgreesBelow (s.cache slot).offset block s
  loose : (s.cache slot).block ≠ some block →
    cfg.cacheSize ∣ offset ∧ (offset = 0 ∨ AgreesOn block s)

/-- The bytes before the offset can be read, through the cache where it has them. -/
def Readable (slot : Slot) (block offset : Nat) (s : State) : Prop :=
  AgreesFor s.disk (some (s.cache slot)) block 0 offset s.readCache

theorem seen_of_has (h : (s.cache slot).Has block x) :
    s.seen slot block x = (s.cache slot).buffer (x - (s.cache slot).offset) := if_pos h

theorem seen_of_not_has (h : ¬ (s.cache slot).Has block x) : s.seen slot block x = s.disk block x :=
  if_neg h

/-- After a flush that fails the window still has its bytes. -/
theorem Flushed.refused (F : Flushed cfg slot block s err s')
    (hblock : (s.cache slot).block = some block)
    (hsum : (s.cache slot).offset + (s.cache slot).size = offset) (herr : err ≠ errOk) :
    (∀ x < offset, s'.seen slot block x = s.seen slot block x) ∧
      Readable slot block offset s' := by
  obtain ⟨hsame, hbelow⟩ := F.failed herr
  refine ⟨fun x hx => ?_, fun x _ hx hhas hnot => ?_⟩
  · by_cases hhas : (s.cache slot).Has block x
    · rw [seen_of_has hhas, seen_of_has (by rwa [hsame]), hsame]
    · rw [seen_of_not_has hhas, seen_of_not_has (by rwa [hsame])]
      refine F.below x (Nat.lt_of_not_le fun hle => hhas ⟨hblock, hle, ?_⟩)
      omega
  · have hnot := hnot _ rfl
    rw [hsame] at hnot
    refine hbelow x (Nat.lt_of_not_le fun hle => hnot ⟨hblock, hle, ?_⟩) hhas
    omega

/-- After a flush that succeeds they are on the device. -/
theorem Flushed.placed (F : Flushed cfg slot block s err s')
    (hblock : (s.cache slot).block = some block)
    (hsum : (s.cache slot).offset + (s.cache slot).size = offset) (herr : err = errOk) :
    ∀ x < offset, s'.disk block x = s.seen slot block x := by
  obtain ⟨-, -, hflushed⟩ := F.done herr
  intro x hx
  by_cases hlo : (s.cache slot).offset ≤ x
  · rw [seen_of_has ⟨hblock, hlo, by omega⟩]
    exact hflushed x hlo (by omega)
  · rw [seen_of_not_has fun h => hlo h.2.1]
    exact F.below x (Nat.lt_of_not_le hlo)

theorem Filling.below (H : Filling cfg slot block offset s)
    (hblock : (s.cache slot).block ≠ some block) : AgreesBelow offset block s := by
  obtain ⟨-, rfl | hagrees⟩ := H.loose hblock
  · exact fun x hx => absurd hx (Nat.not_lt_zero x)
  · exact hagrees offset

theorem Filling.readable (H : Filling cfg slot block offset s) : Readable slot block offset s := by
  intro x _ hx hhas hnot
  have hnot := hnot _ rfl
  rw [Nat.zero_add] at hx
  by_cases hblock : (s.cache slot).block = some block
  · obtain ⟨-, hsum, -, hagrees⟩ := H.held hblock
    refine hagrees x (Nat.lt_of_not_le fun hle => hnot ⟨hblock, hle, ?_⟩) hhas
    omega
  · exact H.below hblock x hx hhas

/-- What a write leaves, at whose start the block was filled up to the offset. -/
structure Wrote (cfg : Config) (slot : Slot) (block offset : Nat) (bytes : List UInt8) (s : State)
    (err : Int) (s' : State) : Prop where
  sameBut : SameBut slot s s'
  kept : Kept (· ≠ block) s s'
  before : ∀ x < offset, s'.seen slot block x = s.seen slot block x
  readable : Readable slot block offset s'
  code : Code err
  cache : bytes = [] ∧ s'.cache slot = s.cache slot ∨ (s'.cache slot).block = none ∨
    (s'.cache slot).block = some block
  done : err = errOk → Filling cfg slot block (offset + bytes.length) s' ∧
    ∀ i (h : i < bytes.length), s'.seen slot block (offset + i) = bytes[i]
  reloads : 256 < cfg.cacheSize → block < cfg.blockCount →
    offset + bytes.length ≤ cfg.blockSize → Reloads s s'

theorem Wrote.nil (H : Filling cfg slot block offset s) :
    Wrote cfg slot block offset [] s errOk s where
  sameBut := (Same.refl s).sameBut slot
  kept := .refl _ s
  before _ _ := rfl
  readable := H.readable
  code := .ok
  cache := .inl ⟨rfl, rfl⟩
  done _ := ⟨H, fun i hi => absurd hi (Nat.not_lt_zero i)⟩
  reloads _ _ _ := .inl rfl

/-- A write goes on behind its first bytes. -/
theorem Wrote.after (hbut : SameBut slot s s') (hkept : Kept (· ≠ block) s s')
    (hbefore : ∀ x < offset, s'.seen slot block x = s.seen slot block x) (hn : n ≤ bytes.length)
    (hplaced : ∀ i (h : i < n), s'.seen slot block (offset + i) = bytes[i])
    (hcache : (s'.cache slot).block = none ∨ (s'.cache slot).block = some block)
    (hreloads : 256 < cfg.cacheSize → block < cfg.blockCount →
      offset + bytes.length ≤ cfg.blockSize → Reloads s s')
    (H : Wrote cfg slot block (offset + n) (bytes.drop n) s' err s'') :
    Wrote cfg slot block offset bytes s err s'' where
  sameBut := hbut.trans H.sameBut
  kept := hkept.trans H.kept
  before x hx := (H.before x (by omega)).trans (hbefore x hx)
  readable := H.readable.mono (Nat.le_refl 0) (by omega)
  code := H.code
  cache := by
    rcases H.cache with ⟨-, h⟩ | h
    · rw [h]
      exact .inr hcache
    · exact .inr h
  done herr := by
    obtain ⟨hfilling, hrest⟩ := H.done herr
    rw [List.length_drop, Nat.add_assoc, Nat.add_sub_cancel' hn] at hfilling
    refine ⟨hfilling, fun i hi => ?_⟩
    rcases Nat.lt_or_ge i n with hlt | hge
    · rw [H.before _ (by omega), hplaced i hlt]
    · have h := hrest (i - n) (by rw [List.length_drop]; omega)
      rw [Nat.add_assoc, Nat.add_sub_cancel' hge, List.getElem_drop] at h
      rw [h]
      congr 1
      omega
  reloads hlong hblock hend :=
    (hreloads hlong hblock hend).trans (H.reloads hlong hblock (by rw [List.length_drop]; omega))

section Put

variable {c : WriteCache} {bytes : List UInt8} (hoffset : c.offset + c.size = offset)
include hoffset

theorem put_size (bytes : List UInt8) : (c.put offset bytes).size = c.size + bytes.length := by
  rw [WriteCache.put]
  dsimp only
  omega

theorem put_has (hblock : c.block = some block) :
    (c.put offset bytes).Has block x ↔ c.offset ≤ x ∧ x < offset + bytes.length := by
  have hsize := put_size hoffset bytes
  refine ⟨fun h => ⟨h.2.1, ?_⟩, fun h => ⟨hblock, h.1, ?_⟩⟩
  · have hlt := h.2.2
    rw [hsize] at hlt
    change x < c.offset + _ at hlt
    omega
  · rw [hsize]
    change x < c.offset + _
    omega

theorem put_before (hlo : c.offset ≤ x) (hhi : x < offset) :
    (c.put offset bytes).buffer (x - c.offset) = c.buffer (x - c.offset) :=
  ByteImage.write_of_lt _ _ (by omega)

theorem put_placed (h : i < bytes.length) :
    (c.put offset bytes).buffer (offset + i - c.offset) = bytes[i] := by
  change ByteImage.write c.buffer (offset - c.offset) bytes (offset + i - c.offset) = bytes[i]
  rw [ByteImage.write, if_pos (by omega),
    show offset + i - c.offset - (offset - c.offset) = i by omega,
    List.getElem?_eq_getElem h, Option.getD_some]

end Put

/-- What holds once bytes that fit are in the window. -/
theorem Filling.put (H : Filling cfg slot block offset s)
    (hblock : (s.cache slot).block = some block) (bytes : List UInt8) :
    let s' := s.setCache ((s.cache slot).put offset bytes) slot
    (∀ x < offset, s'.seen slot block x = s.seen slot block x) ∧
      (∀ i (h : i < bytes.length), s'.seen slot block (offset + i) = bytes[i]) ∧
        AgreesBelow (s.cache slot).offset block s' := by
  obtain ⟨-, hsum, -, hagrees⟩ := H.held hblock
  intro s'
  have hcache : s'.cache slot = (s.cache slot).put offset bytes := cache_setCache ..
  have hdisk : s'.disk = s.disk := by cases slot <;> rfl
  have hread : s'.readCache = s.readCache := by cases slot <;> rfl
  refine ⟨fun x hx => ?_, fun i hi => ?_, ?_⟩
  · by_cases hlo : (s.cache slot).offset ≤ x
    · have hhas : (s.cache slot).Has block x := ⟨hblock, hlo, by omega⟩
      have hhas' : (s'.cache slot).Has block x := by rw [hcache, put_has hsum hblock]; omega
      rw [seen_of_has hhas', seen_of_has hhas, hcache]
      exact put_before hsum hlo hx
    · have hnot : ¬ (s.cache slot).Has block x := fun h => hlo h.2.1
      have hnot' : ¬ (s'.cache slot).Has block x := by rw [hcache, put_has hsum hblock]; omega
      rw [seen_of_not_has hnot', seen_of_not_has hnot, hdisk]
  · have hhas : (s'.cache slot).Has block (offset + i) := by
      rw [hcache, put_has hsum hblock]
      omega
    rw [seen_of_has hhas, hcache]
    exact put_placed hsum hi
  · intro x hx hhas
    rw [hread, hdisk]
    rw [hread] at hhas
    exact hagrees x hx hhas

theorem kept_setCache (Q : Nat → Prop) (s : State) (c : WriteCache) (slot : Slot) :
    Kept Q s (s.setCache c slot) := by
  cases slot <;> exact ⟨fun _ _ => rfl, .inl rfl⟩

/-- **A write through a cache.** -/
theorem bdWriteLoop_spec (hw : w.ProgramsLocal) (hcfg : cfg.toReadConfig.Ok)
    (hcache : cfg.toCacheConfig.Ok) (hinline : block ≠ blockInline) (fuel offset : Nat)
    (bytes : List UInt8) (H : Filling cfg slot block offset s) :
    Keeps (Allocs A) (bdWriteLoop cfg w slot block fuel offset bytes) s
      (Wrote cfg slot block offset bytes s) := by
  induction fuel generalizing s offset bytes with
  | zero => exact .stop
  | succ fuel ih =>
    refine .get_bind (.ite (fun hnil => ?_) fun hnil => .ite (fun hfits => ?_) fun hfits => ?_)
    · subst hnil
      exact .pure (.nil H)
    · obtain ⟨hblock, -, -⟩ := hfits
      obtain ⟨hdvd, hsum, hlt, -⟩ := H.held hblock
      obtain ⟨n, hn⟩ : ∃ n,
          min bytes.length (cfg.cacheSize - (offset - (s.cache slot).offset)) = n := ⟨_, rfl⟩
      dsimp only
      rw [hn]
      have hpos := List.length_pos_iff.mpr hnil
      have hle : n ≤ bytes.length := hn ▸ Nat.min_le_left ..
      have hlen : (bytes.take n).length = n := by rw [List.length_take]; omega
      obtain ⟨hbefore, hplaced, hagrees⟩ := H.put hblock (bytes.take n)
      obtain ⟨s₁, hs₁⟩ : ∃ s₁, s.setCache ((s.cache slot).put offset (bytes.take n)) slot = s₁ :=
        ⟨_, rfl⟩
      have hcache₁ : s₁.cache slot = (s.cache slot).put offset (bytes.take n) :=
        hs₁ ▸ cache_setCache ..
      have hsize : (s₁.cache slot).size = (s.cache slot).size + n := by
        rw [hcache₁, put_size hsum _, hlen]
      have hblock₁ : (s₁.cache slot).block = some block := by rw [hcache₁]; exact hblock
      have hoffset₁ : (s₁.cache slot).offset = (s.cache slot).offset := by rw [hcache₁]; rfl
      have hsum₁ : (s₁.cache slot).offset + (s₁.cache slot).size = offset + n := by omega
      have hbut : SameBut slot s s₁ := hs₁ ▸ .setCache ..
      have hkept : Kept (· ≠ block) s s₁ := hs₁ ▸ kept_setCache ..
      have hread₁ : Reloads s s₁ := .inl (by subst hs₁; cases slot <;> rfl)
      refine .modify_bind (fun HA => HA.of_events (by cases slot <;> rfl)) ?_
      rw [hs₁] at hbefore hplaced hagrees ⊢
      have hplaced' : ∀ i (h : i < n), s₁.seen slot block (offset + i) = bytes[i] := fun i hi => by
        rw [hplaced i (by omega), List.getElem_take]
      rw [← hcache₁]
      refine .ite (fun hfull => ?_) fun hfull => ?_
      · refine .bind (bdFlush_spec hw hcfg hcache.writeSize slot hblock₁ hinline
          (hoffset₁ ▸ hdvd) (hoffset₁ ▸ hagrees)) fun err s₂ F => ?_
        have hreloads : 256 < cfg.cacheSize → block < cfg.blockCount →
            offset + bytes.length ≤ cfg.blockSize → Reloads s s₂ := by
          intro hlong hb hend
          refine hread₁.trans (F.reloads (by omega) hb ?_)
          rw [hfull, alignup_of_dvd hcache.writeSize hcache.dvd, hoffset₁]
          omega
        refine .ite (fun herr => .pure ?_) fun herr => ?_
        · have hsame := (F.failed herr).1
          obtain ⟨hseen, hreadable⟩ := F.refused hblock₁ hsum₁ herr
          exact ⟨hbut.trans F.sameBut, hkept.trans F.kept, fun x hx => (hseen x (by omega)).trans
            (hbefore x hx), hreadable.mono (Nat.le_refl 0) (by omega), F.code,
            .inr (.inr (by rw [hsame]; exact hblock₁)), fun h => absurd h herr, hreloads⟩
        · obtain ⟨hnone, hagrees₂, -⟩ := F.done (not_not.mp herr)
          have hseen : ∀ x < offset + n, s₂.seen slot block x = s₁.seen slot block x := by
            intro x hx
            rw [seen_of_not_has fun h => by rw [h.1] at hnone; cases hnone]
            exact F.placed hblock₁ hsum₁ (not_not.mp herr) x hx
          refine .mono (ih _ _ ⟨fun h => ?_, fun _ => ⟨?_, .inr hagrees₂⟩⟩) fun err s₃ W => ?_
          · rw [hnone] at h
            cases h
          · rw [show offset + n = (s.cache slot).offset + cfg.cacheSize by omega]
            exact (Nat.dvd_add_right hdvd).mpr (Nat.dvd_refl _)
          · exact .after (hbut.trans F.sameBut) (hkept.trans F.kept)
              (fun x hx => (hseen x (by omega)).trans (hbefore x hx)) hle
              (fun i hi => (hseen _ (by omega)).trans (hplaced' i hi)) (.inl hnone) hreloads W
      · refine .mono (ih _ _ ⟨fun _ => ⟨?_, ?_, ?_, ?_⟩, fun h => absurd hblock₁ h⟩)
          fun err s₂ W => .after hbut hkept hbefore hle hplaced' (.inr hblock₁)
            (fun _ _ _ => hread₁) W
        · rwa [hoffset₁]
        · rw [hoffset₁, hsize]
          omega
        · omega
        · rwa [hoffset₁]
    · have hblock : (s.cache slot).block ≠ some block := fun h => by
        obtain ⟨-, hsum, hlt, -⟩ := H.held h
        exact hfits ⟨h, by omega, by omega⟩
      have hdvd := (H.loose hblock).1
      have hagrees := H.below hblock
      obtain ⟨s₁, hs₁⟩ : ∃ s₁, s.setCache ((s.cache slot).opened cfg.toCacheConfig block offset)
          slot = s₁ := ⟨_, rfl⟩
      have hcache₁ : s₁.cache slot = (s.cache slot).opened cfg.toCacheConfig block offset :=
        hs₁ ▸ cache_setCache ..
      have hoffset₁ : (s₁.cache slot).offset = offset := by
        rw [hcache₁]
        exact Nat.div_mul_cancel (hcache.dvd.trans hdvd)
      have hsize₁ : (s₁.cache slot).size = 0 := by rw [hcache₁]; rfl
      have hblock₁ : (s₁.cache slot).block = some block := by rw [hcache₁]; rfl
      have hdisk₁ : s₁.disk = s.disk := by subst hs₁; cases slot <;> rfl
      have hread₁ : s₁.readCache = s.readCache := by subst hs₁; cases slot <;> rfl
      refine .modify_bind (fun HA => HA.of_events (by cases slot <;> rfl)) ?_
      rw [hs₁]
      refine .mono (ih _ _ ⟨fun _ => ⟨?_, ?_, ?_, ?_⟩, fun h => absurd hblock₁ h⟩)
        fun err s₂ W => .after (n := 0) (hs₁ ▸ .setCache ..) (hs₁ ▸ kept_setCache ..)
          (fun x hx => ?_) (Nat.zero_le _) (fun i hi => absurd hi (Nat.not_lt_zero i))
            (.inr hblock₁) (fun _ _ _ => .inl hread₁) W
      · rwa [hoffset₁]
      · rw [hoffset₁, hsize₁]
        rfl
      · rw [hsize₁]
        exact hcache.cacheSize
      · rw [hoffset₁]
        intro x hx hhas
        rw [hread₁, hdisk₁]
        rw [hread₁] at hhas
        exact hagrees x hx hhas
      · rw [seen_of_not_has fun h => ?_, seen_of_not_has fun h => hblock h.1, hdisk₁]
        have hlt := h.2.2
        have hle := h.2.1
        omega

theorem bdWrite_spec (hw : w.ProgramsLocal) (hcfg : cfg.toReadConfig.Ok)
    (hcache : cfg.toCacheConfig.Ok) (slot : Slot) (hinline : block ≠ blockInline)
    (bytes : List UInt8) (H : Filling cfg slot block offset s) :
    Keeps (Allocs A) (bdWrite cfg w slot block offset bytes) s
      (Wrote cfg slot block offset bytes s) :=
  bdWriteLoop_spec hw hcfg hcache hinline cfg.fuel offset bytes H

/-! ## Reads and writes in turn -/

/-- Nothing has changed but that the device may have been loaded into `lfs->read_cache`. -/
structure Loaded (s s' : State) : Prop where
  onlyReads : OnlyReads s s'
  readCache : s'.readCache = s.readCache ∨
    s'.readCache.block ≠ none ∧ s'.readCache.Agrees s.disk

theorem Loaded.of_read {cfg : ReadConfig} (h : OnlyReads s s')
    (H : ReadInto cfg s.disk written hint block offset size s.readCache (.ok bytes)
      s'.readCache) : Loaded s s' := by
  refine ⟨h, ?_⟩
  rcases H.cache with hsame | ⟨hblock, -⟩
  · exact .inl hsame
  · refine (H.agrees bytes rfl).imp id fun hagrees => ⟨?_, hagrees⟩
    rw [hblock]
    exact fun h => by cases h

theorem Loaded.refl (s : State) : Loaded s s := ⟨.refl s, .inl rfl⟩

theorem Loaded.reloads (h : Loaded s s') : Reloads s s' := h.readCache.imp id And.left

theorem Loaded.kept (h : Loaded s s') (Q : Nat → Prop) : Kept Q s s' := by
  refine ⟨fun b _ => congrFun h.onlyReads.disk b, h.readCache.imp id fun hagrees b _ => ?_⟩
  refine .of_agrees ?_
  rw [h.onlyReads.disk]
  exact hagrees.2

theorem Loaded.cache (h : Loaded s s') (slot : Slot) : s'.cache slot = s.cache slot :=
  h.onlyReads.same.cache slot

theorem Loaded.seen (h : Loaded s s') (slot : Slot) : s'.seen slot = s.seen slot := by
  rw [State.seen, h.cache slot, h.onlyReads.disk, State.seen]

/-- Reads in front of a write. -/
theorem Wrote.of_loaded (h : Loaded s s') (H : Wrote cfg slot block offset bytes s' err s'') :
    Wrote cfg slot block offset bytes s err s'' where
  sameBut := (h.onlyReads.same.sameBut slot).trans H.sameBut
  kept := (h.kept _).trans H.kept
  before x hx := (H.before x hx).trans (by rw [h.seen])
  readable := H.readable
  code := H.code
  cache := by
    rw [← h.cache slot]
    exact H.cache
  done := H.done
  reloads hlong hblock hend := h.reloads.trans (H.reloads hlong hblock hend)

/-- A write behind one that has succeeded. -/
theorem Wrote.append (H : Wrote cfg slot block offset bytes s errOk s')
    (H' : Wrote cfg slot block (offset + bytes.length) bytes' s' err s'') :
    Wrote cfg slot block offset (bytes ++ bytes') s err s'' where
  sameBut := H.sameBut.trans H'.sameBut
  kept := H.kept.trans H'.kept
  before x hx := (H'.before x (by omega)).trans (H.before x hx)
  readable := H'.readable.mono (Nat.le_refl 0) (by omega)
  code := H'.code
  cache := by
    rcases H'.cache with ⟨rfl, h⟩ | h
    · rw [h, List.append_nil]
      exact H.cache
    · exact .inr h
  done herr := by
    obtain ⟨hfilling, hplaced⟩ := H'.done herr
    have hlength : (bytes ++ bytes').length = bytes.length + bytes'.length := List.length_append
    refine ⟨by rwa [hlength, ← Nat.add_assoc], fun i hi => ?_⟩
    rcases Nat.lt_or_ge i bytes.length with hlt | hge
    · rw [List.getElem_append_left hlt, H'.before _ (by omega)]
      exact (H.done rfl).2 i hlt
    · have h := hplaced (i - bytes.length) (by omega)
      rw [Nat.add_assoc, Nat.add_sub_cancel' hge] at h
      rw [List.getElem_append_right hge]
      exact h
  reloads hlong hblock hend := by
    rw [List.length_append] at hend
    exact (H.reloads hlong hblock (by omega)).trans (H'.reloads hlong hblock (by omega))

end FileIo

end LittleFs
