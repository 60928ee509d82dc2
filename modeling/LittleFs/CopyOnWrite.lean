import LittleFs.FileIo

/-! Between two commits the calls on a file erase and program fresh blocks only: none of the blocks
that the committed metadata reaches is touched, whatever the device and the allocator answer.

The cache of the file serves for reads of the old blocks and for writes of new ones, and the handle
points now at an old block and now at a new one. What must hold is that nothing of an old block is
pending while `LFS_F_WRITING` is set. -/

namespace LittleFs

open StateLogic StateLogic.Prog
open FileHandle (Whence)

namespace FileIo

/-! ## What is untouched -/

/-- The block that a request addresses. -/
def Event.block : Event → Option Nat
  | .allocated _ _ => none
  | .erased block => some block
  | .programmed block _ _ => some block

/-- No request has addressed a block of `P`, and all these are as in `d`. -/
structure Untouched (P : Nat → Prop) (d : Nat → ByteImage.Image) (s : State) : Prop where
  requests : ∀ e ∈ s.events, ∀ b, e.block = some b → ¬ P b
  disk : ∀ b, P b → s.disk b = d b

/-- What the cache has is of no block of `P`. -/
def Outside (P : Nat → Prop) (c : WriteCache) : Prop := ∀ b, c.block = some b → ¬ P b

/-- What is pending is of no block of `P`. -/
structure Apart (P : Nat → Prop) (s : State) : Prop where
  shared : Outside P s.writeCache
  block : s.file.writing = true → ¬ P s.file.block
  cache : s.file.writing = true → Outside P s.file.cache

/-- `lfs_alloc` returns no block of `P`. -/
def World.AllocatesOutside (w : World) (P : Nat → Prop) : Prop :=
  ∀ clock s b, (w.alloc clock s).1 = .ok b → ¬ P b

/-- A truncation that makes the file inline while its first write since the last flush has a block
but no byte yet: the seek to the head is none, and the read then moves the handle to the old
block. -/
def Slips (cfg : Config) (s : State) : Call → Prop
  | .truncate size => 0 < size ∧ size < s.file.rawsize ∧ size ≤ cfg.inlineMax cfg.cfgBlockSize 8 ∧
      s.file.writing = true ∧ s.file.isInline = false ∧ s.file.pos = 0
  | _ => False

instance (cfg : Config) (s : State) : DecidablePred (Slips cfg s)
  | .truncate _ => inferInstanceAs (Decidable (_ ∧ _))
  | .write _ | .read _ | .seek _ _ | .flush => inferInstanceAs (Decidable False)

/-- No call of the run does so. -/
def Clear (cfg : Config) (w : World) : List Call → State → Prop
  | [], _ => True
  | c :: calls, s => ¬ Slips cfg s c ∧
      match call cfg w c s with
      | (some _, s') => Clear cfg w calls s'
      | (none, _) => True

instance decideClear (cfg : Config) (w : World) : (calls : List Call) → (s : State) →
    Decidable (Clear cfg w calls s)
  | [], _ => .isTrue trivial
  | c :: calls, s =>
    have : Decidable (match call cfg w c s with
        | (some _, s') => Clear cfg w calls s'
        | (none, _) => True) :=
      match call cfg w c s with
      | (some _, s') => decideClear cfg w calls s'
      | (none, _) => .isTrue trivial
    inferInstanceAs (Decidable (_ ∧ _))

/-! ## Results -/

/-- The result of a call that succeeds or fails. -/
def Code (res : Int) : Prop := res = errOk ∨ res < 0

/-- The error of a read. -/
def Fails (res : Except Int α) : Prop := ∀ err, res = .error err → err < 0

/-- The error of an attempt. -/
def Attempt.Fails (a : Attempt α) : Prop := ∀ err, a = .failed err → err < 0

theorem Code.ok : Code errOk := .inl rfl

theorem Code.neg (H : Code err) (h : err ≠ errOk) : err < 0 := H.resolve_left h

theorem Code.of_neg (h : err < 0) : Code err := .inr h

theorem code_resultOf (e : Option DeviceError) : Code (resultOf e) := by
  cases e with
  | none => exact .ok
  | some e => exact .of_neg e.neg

theorem Fails.ok (a : α) : Fails (.ok a : Except Int α) := fun _ h => by cases h

theorem Fails.error (h : err < 0) : Fails (.error err : Except Int α) := fun _ he => by
  cases he
  exact h

theorem Attempt.Fails.done (a : α) : (Attempt.done a).Fails := fun _ h => by cases h

theorem Attempt.Fails.ofWrite (H : Code err) (h : err ≠ errOk) :
    (Attempt.ofWrite err : Attempt α).Fails := fun e he => by
  rw [Attempt.ofWrite] at he
  split at he
  · cases he
  · cases he
    exact H.neg h

theorem Attempt.ofWrite_ne_done (err : Int) (a : α) : Attempt.ofWrite err ≠ .done a := fun h => by
  rw [Attempt.ofWrite] at h
  split at h <;> cases h

/-! ## Frames -/

/-- The file and the shared write cache are as before. -/
structure Same (s s' : State) : Prop where
  file : s'.file = s.file
  writeCache : s'.writeCache = s.writeCache

/-- The file and the shared write cache are as before but for one of the caches. -/
structure SameBut (slot : Slot) (s s' : State) : Prop where
  file : s'.file = (s.setCache (s'.cache slot) slot).file
  writeCache : s'.writeCache = (s.setCache (s'.cache slot) slot).writeCache

variable {cfg : Config} {w : World} {P : Nat → Prop} {d : Nat → ByteImage.Image} {slot : Slot}
  {s s' s'' : State}

theorem Same.refl (s : State) : Same s s := ⟨rfl, rfl⟩

theorem Same.trans (h : Same s s') (h' : Same s' s'') : Same s s'' :=
  ⟨h'.file.trans h.file, h'.writeCache.trans h.writeCache⟩

theorem Same.cache (h : Same s s') (slot : Slot) : s'.cache slot = s.cache slot := by
  cases slot with
  | file => rw [State.cache, h.file, State.cache]
  | shared => exact h.writeCache

theorem Same.sameBut (h : Same s s') (slot : Slot) : SameBut slot s s' := by
  obtain ⟨hfile, hshared⟩ := h
  cases slot with
  | file =>
    refine ⟨?_, hshared⟩
    rw [State.cache, hfile]
    rfl
  | shared => exact ⟨hfile, rfl⟩

theorem SameBut.setCache (s : State) (c : WriteCache) (slot : Slot) :
    SameBut slot s (s.setCache c slot) := by cases slot <;> exact ⟨rfl, rfl⟩

@[simp] theorem cache_setCache (s : State) (c : WriteCache) (slot : Slot) :
    (s.setCache c slot).cache slot = c := by cases slot <;> rfl

theorem SameBut.trans (h : SameBut slot s s') (h' : SameBut slot s' s'') : SameBut slot s s'' := by
  obtain ⟨hfile, hshared⟩ := h
  obtain ⟨hfile', hshared'⟩ := h'
  cases slot with
  | file =>
    refine ⟨hfile'.trans ?_, hshared'.trans hshared⟩
    rw [State.setCache, State.setFile, hfile]
    rfl
  | shared => exact ⟨hfile'.trans hfile, rfl⟩

theorem Untouched.setCache (H : Untouched P d s) (c : WriteCache) (slot : Slot) :
    Untouched P d (s.setCache c slot) := by cases slot <;> exact ⟨H.requests, H.disk⟩

/-! ## Reads -/

/-- The errors of a read are those of the device. -/
theorem readLoop_fails {rawread : RawRead} {cfg : ReadConfig}
    (hneg : ∀ b off size err bytes, rawread b off size = .error (err, bytes) → err < 0)
    {res : Except Int (List UInt8)}
    (h : readLoop cfg rawread written hint block fuel off size c = some (res, c')) :
    Fails res := by
  induction fuel generalizing off size c res c' with
  | zero => cases h
  | succ fuel ih =>
    rw [readLoop] at h
    split at h
    · cases h
      exact .ok []
    · split at h
      · rename_i hround
        cases h
        refine .error ?_
        rw [readRound] at hround
        split at hround
        · cases hround
        · split at hround
          · cases hround
          · split at hround
            · split at hround
              · rename_i hread
                cases hround
                exact hneg _ _ _ _ _ hread
              · cases hround
            · rw [loadCache] at hround
              split at hround
              · rename_i hread
                cases hround
                exact hneg _ _ _ _ _ hread
              · cases hround
      · exact ih h
      · obtain ⟨⟨rest, c''⟩, hrest, heq⟩ := Option.map_eq_some_iff.mp h
        cases heq
        intro err herr
        cases rest with
        | error e =>
          cases herr
          exact ih hrest _ rfl
        | ok bytes => cases herr

theorem rawread_fails (w : World) (s : State) (b off size : Nat) (err : Int) (bytes : List UInt8)
    (h : rawread w s b off size = .error (err, bytes)) : err < 0 := by
  rw [rawread] at h
  split at h
  · rename_i e _ _
    cases h
    exact e.neg
  · cases h

theorem cachedRead_fails {res : Except Int (List UInt8)}
    (h : cachedRead cfg.toReadConfig (rawread w s) written hint block fuel offset size r =
      some (res, r')) : Fails res := by
  rw [cachedRead] at h
  split at h
  · cases h
    exact .error (by decide)
  · exact readLoop_fails (rawread_fails w s) h

theorem keeps_bdRead (written : Option WriteCache) (hint block offset size : Nat)
    (cache : WriteCache) : Keeps (Untouched P d)
      (bdRead cfg w written hint block offset size cache) s
      fun r s' => Same s s' ∧ Fails r.1 := by
  refine ⟨fun H => ?_⟩
  rw [Ensures, bdRead]
  cases hread : cachedRead cfg.toReadConfig (rawread w s) written hint block cfg.fuel offset size
      cache with
  | none => exact ⟨H.requests, H.disk⟩
  | some r => exact ⟨⟨H.requests, H.disk⟩, ⟨rfl, rfl⟩, cachedRead_fails hread⟩

theorem keeps_sharedRead (written : Option WriteCache) (hint block offset size : Nat) :
    Keeps (Untouched P d) (sharedRead cfg w written hint block offset size) s
      fun r s' => Same s s' ∧ Fails r := by
  refine .get_bind (.bind (keeps_bdRead ..) fun r s' h => ?_)
  exact .modify_bind (fun H => ⟨H.requests, H.disk⟩) (.pure ⟨⟨h.1.file, h.1.writeCache⟩, h.2⟩)

theorem keeps_bdCmp (block fuel offset : Nat) (bytes : List UInt8) :
    Keeps (Untouched P d) (bdCmp cfg w block fuel offset bytes) s
      fun r s' => Same s s' ∧ Fails r := by
  induction fuel generalizing s offset bytes with
  | zero => exact .stop
  | succ fuel ih =>
    refine .ite (fun _ => .pure ⟨.refl s, .ok _⟩) fun _ => ?_
    refine .bind (keeps_sharedRead ..) fun r s' h => ?_
    cases r with
    | error err => exact .pure ⟨h.1, .error (h.2 _ rfl)⟩
    | ok dat =>
      refine .ite (fun _ => .pure ⟨h.1, .ok _⟩) fun _ => ?_
      exact (ih ..).mono fun r s'' h' => ⟨h.1.trans h'.1, h'.2⟩

theorem keeps_findLoop (target current head : Nat) (cache : WriteCache) :
    Keeps (Untouched P d) (findLoop cfg w target current head cache) s
      fun r s' => Same s s' ∧ Fails r.1 := by
  induction current using Nat.strongRecOn generalizing s head cache with
  | ind current ih =>
    rw [findLoop]
    refine .ite (fun hlt => ?_) fun _ => .pure ⟨.refl s, .ok _⟩
    refine .bind (keeps_bdRead ..) fun r s' h => ?_
    obtain ⟨r, cache'⟩ := r
    cases r with
    | error err => exact .pure ⟨h.1, .error (h.2 _ rfl)⟩
    | ok bytes =>
      exact (ih _ (Nat.sub_lt (by omega) (Nat.two_pow_pos _)) ..).mono
        fun r s'' h' => ⟨h.1.trans h'.1, h'.2⟩

theorem keeps_ctzFind (head size pos : Nat) (cache : WriteCache) :
    Keeps (Untouched P d) (ctzFind cfg w head size pos cache) s
      fun r s' => Same s s' ∧ Fails r.1 := by
  refine .ite (fun _ => .pure ⟨.refl s, .ok _⟩) fun _ => ?_
  refine .bind (keeps_findLoop ..) fun r s' h => ?_
  obtain ⟨r, cache'⟩ := r
  cases r with
  | error err => exact .pure ⟨h.1, .error (h.2 _ rfl)⟩
  | ok bytes => exact .pure ⟨h.1, .ok _⟩

/-! ## Writes -/

theorem Untouched.request (H : Untouched P d s) {image : ByteImage.Image} {e : Event}
    (hb : ¬ P b) (he : e.block = some b) :
    Untouched P d { s.tick with
      disk := Function.update s.disk b image
      events := e :: s.events } := by
  refine ⟨fun e' he' b' hb' => ?_, fun b' hb' => ?_⟩
  · rcases List.mem_cons.mp he' with rfl | he'
    · rw [he] at hb'
      cases hb'
      exact hb
    · exact H.requests e' he' b' hb'
  · have hne : b' ≠ b := fun h => hb (h ▸ hb')
    exact (Function.update_of_ne hne _ _).trans (H.disk b' hb')

theorem keeps_bdRawprog (hb : ¬ P block) (offset : Nat) (bytes : List UInt8) :
    Keeps (Untouched P d) (bdRawprog w block offset bytes) s
      fun err s' => Same s s' ∧ Code err :=
  ⟨fun H => ⟨H.request hb rfl, ⟨rfl, rfl⟩, code_resultOf _⟩⟩

theorem keeps_bdErase (hb : ¬ P block) :
    Keeps (Untouched P d) (bdErase w block) s fun err s' => Same s s' ∧ Code err :=
  ⟨fun H => ⟨H.request hb rfl, ⟨rfl, rfl⟩, code_resultOf _⟩⟩

theorem keeps_alloc (hw : w.AllocatesOutside P) :
    Keeps (Untouched P d) (alloc w) s fun r s' => Same s s' ∧ ∀ b, r = .ok b → ¬ P b := by
  refine ⟨fun H => ⟨⟨fun e he b hb => ?_, H.disk⟩, ⟨rfl, rfl⟩, fun b hb => hw _ _ _ hb⟩⟩
  rcases List.mem_cons.mp he with rfl | he
  · cases hb
  · exact H.requests e he b hb

theorem Outside.none {c : WriteCache} (h : c.block = none) : Outside P c := fun b hb => by
  rw [h] at hb
  cases hb

theorem Outside.some {c : WriteCache} (h : c.block = some block) (hb : ¬ P block) : Outside P c :=
  fun b h' => by
    rw [h] at h'
    cases h'
    exact hb

/-- A flush of what is of no block of `P` leaves the cache so. -/
theorem keeps_bdFlush (slot : Slot) (hout : Outside P (s.cache slot)) :
    Keeps (Untouched P d) (bdFlush cfg w slot) s
      fun err s' => SameBut slot s s' ∧ Outside P (s'.cache slot) ∧ Code err := by
  refine .get_bind ?_
  dsimp only
  split
  · exact .pure ⟨(Same.refl s).sameBut slot, hout, .ok⟩
  · rename_i block hblock
    refine .ite (fun _ => .pure ⟨(Same.refl s).sameBut slot, hout, .ok⟩) fun _ => ?_
    refine .bind (keeps_bdRawprog (hout block hblock) ..) fun err s' h => ?_
    have hout' := h.1.cache slot ▸ hout
    refine .ite (fun _ => .pure ⟨h.1.sameBut slot, hout', h.2⟩) fun _ => ?_
    refine .modify_bind (fun H => ⟨H.requests, H.disk⟩) ?_
    refine .bind (keeps_bdCmp ..) fun r s'' h' => ?_
    have hsame : Same s s'' :=
      ⟨h'.1.file.trans h.1.file, h'.1.writeCache.trans h.1.writeCache⟩
    have hout'' := hsame.cache slot ▸ hout
    cases r with
    | error err => exact .pure ⟨hsame.sameBut slot, hout'', .of_neg (h'.2 _ rfl)⟩
    | ok equal =>
      cases equal with
      | false => exact .pure ⟨hsame.sameBut slot, hout'', .of_neg (by decide)⟩
      | true =>
        refine .modify_bind (fun H => H.setCache _ slot) (.pure ⟨?_, ?_, .ok⟩)
        · exact (hsame.sameBut slot).trans (.setCache ..)
        · rw [cache_setCache]
          exact .none rfl

/-- A write to a block outside of `P` reaches no other block, whatever the cache held before. -/
theorem keeps_bdWriteLoop (hb : ¬ P block) (fuel offset : Nat) (bytes : List UInt8) :
    Keeps (Untouched P d) (bdWriteLoop cfg w slot block fuel offset bytes) s
      fun err s' => SameBut slot s s' ∧ Code err ∧
        (Outside P (s.cache slot) ∨ bytes ≠ [] → Outside P (s'.cache slot)) := by
  induction fuel generalizing s offset bytes with
  | zero => exact .stop
  | succ fuel ih =>
    refine .get_bind (.ite (fun hnil => ?_) fun hnil => .ite (fun hfits => ?_) fun _ => ?_)
    · exact .pure ⟨(Same.refl s).sameBut slot, .ok, fun h => h.resolve_right (· hnil)⟩
    · refine .modify_bind (fun H => H.setCache _ slot) ?_
      have hout : Outside P ((s.setCache ((s.cache slot).put offset (bytes.take
          (min bytes.length (cfg.cacheSize - (offset - (s.cache slot).offset))))) slot).cache
            slot) := by
        rw [cache_setCache]
        exact .some hfits.1 hb
      refine .ite (fun _ => ?_) fun _ => ?_
      · refine .bind (keeps_bdFlush slot hout) fun err s' h => ?_
        have hbut := (SameBut.setCache s _ slot).trans h.1
        refine .ite (fun _ => .pure ⟨hbut, h.2.2, fun _ => h.2.1⟩) fun _ => ?_
        exact (ih ..).mono fun err s'' h' =>
          ⟨hbut.trans h'.1, h'.2.1, fun _ => h'.2.2 (.inl h.2.1)⟩
      · exact (ih ..).mono fun err s'' h' =>
          ⟨(SameBut.setCache s _ slot).trans h'.1, h'.2.1, fun _ => h'.2.2 (.inl hout)⟩
    · refine .modify_bind (fun H => H.setCache _ slot) ?_
      refine (ih ..).mono fun err s'' h' =>
        ⟨(SameBut.setCache s _ slot).trans h'.1, h'.2.1, fun _ => h'.2.2 (.inl ?_)⟩
      rw [cache_setCache]
      exact .some rfl hb

theorem keeps_bdWrite (slot : Slot) (hb : ¬ P block) (offset : Nat) (bytes : List UInt8) :
    Keeps (Untouched P d) (bdWrite cfg w slot block offset bytes) s
      fun err s' => SameBut slot s s' ∧ Code err ∧
        (Outside P (s.cache slot) ∨ bytes ≠ [] → Outside P (s'.cache slot)) :=
  keeps_bdWriteLoop hb ..

/-! ## The extension of a list -/

/-- What an attempt to fill a new block leaves of the file. -/
structure Filled (P : Nat → Prop) (nblock : Nat) (s s' : State) (a : Attempt (Nat × Nat)) :
    Prop where
  sameBut : SameBut .file s s'
  cache : Outside P s'.file.cache
  block : ∀ b off, a = .done (b, off) → b = nblock
  fails : a.Fails

theorem Filled.ofWrite (hbut : SameBut .file s s') (hcache : Outside P s'.file.cache)
    (hcode : Code err) (herr : err ≠ errOk) : Filled P nblock s s' (.ofWrite err) :=
  ⟨hbut, hcache, fun _ _ h => absurd h (Attempt.ofWrite_ne_done _ _), .ofWrite hcode herr⟩

theorem Filled.failed (hbut : SameBut .file s s') (hcache : Outside P s'.file.cache)
    (herr : err < 0) : Filled P nblock s s' (.failed err) := by
  refine ⟨hbut, hcache, fun _ _ h => ?_, fun _ h => ?_⟩
  · cases h
  · cases h
    exact herr

theorem Filled.done (hbut : SameBut .file s s') (hcache : Outside P s'.file.cache) :
    Filled P nblock s s' (.done (nblock, off)) := by
  refine ⟨hbut, hcache, fun _ _ h => ?_, .done _⟩
  cases h
  rfl

theorem Filled.trans (hbut : SameBut .file s s') (H : Filled P nblock s' s'' a) :
    Filled P nblock s s'' a := ⟨hbut.trans H.sameBut, H.cache, H.block, H.fails⟩

theorem keeps_extendCopy (hb : ¬ P nblock) (head noff n idx : Nat)
    (hout : Outside P s.file.cache) :
    Keeps (Untouched P d) (extendCopy cfg w head nblock noff n idx) s
      fun a s' => Filled P nblock s s' a := by
  induction n generalizing s idx with
  | zero => exact .pure (.done ((Same.refl s).sameBut .file) hout)
  | succ n ih =>
    refine .bind (keeps_sharedRead ..) fun r s' h => ?_
    have hout' : Outside P (s'.cache .file) := h.1.cache .file ▸ hout
    cases r with
    | error err => exact .pure (.failed (h.1.sameBut .file) hout' (h.2 _ rfl))
    | ok data =>
      refine .bind (keeps_bdWrite .file hb ..) fun err s'' h' => ?_
      have hbut := (h.1.sameBut .file).trans h'.1
      have hout'' := h'.2.2 (.inl hout')
      refine .ite (fun herr => .pure (.ofWrite hbut hout'' h'.2.1 herr)) fun _ => ?_
      exact (ih _ hout'').mono fun a _ H => .trans hbut H

theorem keeps_extendPointers (hb : ¬ P nblock) (skips n idx nhead : Nat)
    (hout : Outside P s.file.cache) :
    Keeps (Untouched P d) (extendPointers cfg w nblock skips n idx nhead) s
      fun a s' => Filled P nblock s s' a := by
  induction n generalizing s idx nhead with
  | zero => exact .pure (.done ((Same.refl s).sameBut .file) hout)
  | succ n ih =>
    refine .bind (keeps_bdWrite .file hb ..) fun err s' h => ?_
    have hout' := h.2.2 (.inl hout)
    refine .ite (fun herr => .pure (.ofWrite h.1 hout' h.2.1 herr)) fun _ => ?_
    refine .ite (fun _ => ?_) fun _ => (ih _ _ hout').mono fun a s'' H => .trans h.1 H
    refine .bind (keeps_sharedRead ..) fun r s'' h' => ?_
    have hbut := h.1.trans (h'.1.sameBut .file)
    have hout'' : Outside P (s''.cache .file) := h'.1.cache .file ▸ hout'
    cases r with
    | error err => exact .pure (.failed hbut hout'' (h'.2 _ rfl))
    | ok bytes => exact (ih _ _ hout'').mono fun a _ H => .trans hbut H

theorem keeps_extendTo (hb : ¬ P nblock) (head size : Nat)
    (hout : Outside P s.file.cache ∨ size = 0) :
    Keeps (Untouched P d) (extendTo cfg w head size nblock) s fun a s' =>
      SameBut .file s s' ∧ (Outside P s.file.cache → Outside P s'.file.cache) ∧
        (∀ b off, a = .done (b, off) → b = nblock ∧ (size = 0 → off = 0)) ∧ a.Fails := by
  refine .bind (keeps_bdErase hb) fun err s' h => ?_
  have hbut := h.1.sameBut .file
  have hcache : Outside P s.file.cache → Outside P s'.file.cache := fun h' => by rwa [h.1.file]
  refine .ite (fun herr => .pure ⟨hbut, hcache, fun _ _ h => ?_, .ofWrite h.2 herr⟩) fun _ => ?_
  · exact absurd h (Attempt.ofWrite_ne_done _ _)
  refine .ite (fun hzero => .pure ⟨hbut, hcache, fun _ _ h => ?_, .done _⟩) fun hzero => ?_
  · cases h
    exact ⟨rfl, fun _ => rfl⟩
  have hfilled : ∀ {s'' a}, Filled P nblock s' s'' a →
      SameBut .file s s'' ∧ (Outside P s.file.cache → Outside P s''.file.cache) ∧
        (∀ b off, a = .done (b, off) → b = nblock ∧ (size = 0 → off = 0)) ∧ a.Fails :=
    fun H => ⟨hbut.trans H.sameBut, fun _ => H.cache,
      fun b off h => ⟨H.block b off h, fun h => absurd h hzero⟩, H.fails⟩
  have hout' := hcache (hout.resolve_right hzero)
  exact .ite (fun _ => (keeps_extendCopy hb _ _ _ _ hout').mono fun _ _ => hfilled)
    fun _ => (keeps_extendPointers hb _ _ _ _ hout').mono fun _ _ => hfilled

/-- The block that a list is extended with is fresh. -/
theorem keeps_ctzExtend (hw : w.AllocatesOutside P) (head size fuel : Nat)
    (hout : Outside P s.file.cache ∨ size = 0) :
    Keeps (Untouched P d) (ctzExtend cfg w head size fuel) s fun r s' =>
      SameBut .file s s' ∧ (Outside P s.file.cache → Outside P s'.file.cache) ∧
        (∀ b off, r = .ok (b, off) → ¬ P b ∧ (size = 0 → off = 0)) ∧ Fails r := by
  induction fuel generalizing s with
  | zero => exact .stop
  | succ fuel ih =>
    refine .bind (keeps_alloc hw) fun r s' h => ?_
    have hbut := h.1.sameBut .file
    cases r with
    | error err =>
      refine .pure ⟨hbut, fun h' => by rwa [h.1.file], fun _ _ h => ?_, .error err.neg⟩
      cases h
    | ok nblock =>
      have hb := h.2 nblock rfl
      refine .bind (keeps_extendTo hb head size (by rwa [h.1.file])) fun a s'' h' => ?_
      rw [h.1.file] at h'
      have hbut' := hbut.trans h'.1
      cases a with
      | done res =>
        refine .pure ⟨hbut', h'.2.1, fun b off heq => ?_, .ok _⟩
        cases heq
        obtain ⟨rfl, hoff⟩ := h'.2.2.1 _ _ rfl
        exact ⟨hb, hoff⟩
      | failed err =>
        refine .pure ⟨hbut', h'.2.1, fun _ _ h => ?_, .error (h'.2.2.2 _ rfl)⟩
        cases h
      | relocate =>
        refine .modify_bind (fun H => ⟨H.requests, H.disk⟩) ((ih (.inl (.none rfl))).mono ?_)
        exact fun r s₃ h₃ => ⟨(hbut'.trans (.setCache s'' _ .file)).trans h₃.1,
          fun _ => h₃.2.1 (.none rfl), h₃.2.2⟩

/-! ## Inline files -/

theorem getreadLoop_spec {slice : Nat → Nat → Except (DeviceError × List UInt8) (List UInt8)}
    {res : Except Int (List UInt8)}
    (h : getreadLoop cfg slice hint fuel off size c = some (res, c')) :
    (c'.block = c.block ∨ c'.block = some blockInline) ∧ Fails res := by
  induction fuel generalizing off size c res c' with
  | zero => cases h
  | succ fuel ih =>
    rw [getreadLoop] at h
    split at h
    · cases h
      exact ⟨.inl rfl, .ok []⟩
    · split at h
      · obtain ⟨⟨rest, c''⟩, hrest, heq⟩ := Option.map_eq_some_iff.mp h
        cases heq
        obtain ⟨hblock, hfails⟩ := ih hrest
        refine ⟨hblock, fun err herr => ?_⟩
        cases rest with
        | error e =>
          cases herr
          exact hfails _ rfl
        | ok bytes => cases herr
      · dsimp only at h
        split at h
        · rename_i e bytes _
          cases h
          exact ⟨.inr rfl, .error e.neg⟩
        · obtain ⟨hblock, hfails⟩ := ih h
          exact ⟨.inr (hblock.elim id id), hfails⟩

theorem keeps_dirGetread (hinline : ¬ P blockInline) (hint offset size : Nat) (c : WriteCache) :
    Keeps (Untouched P d) (dirGetread cfg w hint offset size c) s fun r s' =>
      Same s s' ∧ (Outside P c → Outside P r.2) ∧ Fails r.1 := by
  refine ⟨fun H => ?_⟩
  rw [Ensures, dirGetread]
  split
  · rename_i r s' heq
    obtain ⟨hread, rfl⟩ := Prod.ext_iff.mp heq
    dsimp only at hread
    refine ⟨⟨H.requests, H.disk⟩, ⟨rfl, rfl⟩, ?_⟩
    split at hread
    · cases hread
      exact ⟨id, .error (by decide)⟩
    · obtain ⟨res, c'⟩ := r
      obtain ⟨hblock, hfails⟩ := getreadLoop_spec hread
      refine ⟨fun h => ?_, hfails⟩
      rcases hblock with hblock | hblock
      · exact fun b hb => h b (hblock ▸ hb)
      · exact .some hblock hinline
  · rename_i s' heq
    obtain ⟨-, rfl⟩ := Prod.ext_iff.mp heq
    exact ⟨H.requests, H.disk⟩

/-! ## Relocation -/

/-- What the copy for a relocation leaves of the file: nothing but the cache may differ. -/
structure Copied (P : Nat → Prop) (s s' : State) (a : Attempt α) : Prop where
  file : s'.file = { s.file with cache := s'.file.cache }
  cache : Outside P s.file.cache → Outside P s'.file.cache
  shared : Outside P s'.writeCache
  fails : a.Fails

theorem Copied.trans (hfile : s'.file = { s.file with cache := s'.file.cache })
    (hcache : Outside P s.file.cache → Outside P s'.file.cache) (H : Copied P s' s'' a) :
    Copied P s s'' a := by
  refine ⟨?_, fun h => H.cache (hcache h), H.shared, H.fails⟩
  rw [H.file, hfile]

theorem keeps_relocateRead (hinline : ¬ P blockInline) (hint i : Nat) :
    Keeps (Untouched P d) (relocateRead cfg w hint i) s fun r s' =>
      s'.file = { s.file with cache := s'.file.cache } ∧
        (Outside P s.file.cache → Outside P s'.file.cache) ∧ s'.writeCache = s.writeCache ∧
          Fails r := by
  refine .get_bind (.ite (fun _ => ?_) fun _ => (keeps_sharedRead ..).mono fun r s' h => ?_)
  · refine .bind (keeps_dirGetread hinline ..) fun r s' h => ?_
    obtain ⟨res, c⟩ := r
    refine .modify_bind (fun H => H.setCache c .file) (.pure ⟨?_, h.2.1, h.1.writeCache, h.2.2⟩)
    rw [State.setCache, State.setFile, h.1.file]
  · refine ⟨?_, fun h' => by rwa [h.1.file], h.1.writeCache, h.2⟩
    rw [h.1.file]

theorem keeps_relocateCopy (hinline : ¬ P blockInline) (hb : ¬ P nblock) (n i : Nat)
    (hout : Outside P s.writeCache) :
    Keeps (Untouched P d) (relocateCopy cfg w nblock n i) s fun a s' => Copied P s s' a := by
  induction n generalizing s i with
  | zero => exact .pure ⟨rfl, id, hout, .done _⟩
  | succ n ih =>
    refine .bind (keeps_relocateRead hinline ..) fun r s' h => ?_
    have hout' : Outside P (s'.cache .shared) := fun b hb => hout b (h.2.2.1 ▸ hb)
    cases r with
    | error err =>
      refine .pure ⟨h.1, h.2.1, hout', fun _ he => ?_⟩
      cases he
      exact h.2.2.2 _ rfl
    | ok data =>
      refine .bind (keeps_bdWrite .shared hb ..) fun err s'' h' => ?_
      have hfile : s''.file = s'.file := h'.1.file
      have hout'' := h'.2.2 (.inl hout')
      refine .ite (fun herr => .pure ?_) fun _ => (ih _ hout'').mono fun a s₃ H => ?_
      · refine .trans h.1 h.2.1 ⟨?_, fun h => by rwa [hfile], hout'', .ofWrite h'.2.1 herr⟩
        rw [hfile]
      · refine .trans h.1 h.2.1 (.trans ?_ (fun h => by rwa [hfile]) H)
        rw [hfile]

theorem keeps_relocateTo (hinline : ¬ P blockInline) (hb : ¬ P nblock)
    (hout : Outside P s.writeCache) :
    Keeps (Untouched P d) (relocateTo cfg w nblock) s fun a s' => Copied P s s' a := by
  refine .bind (keeps_bdErase hb) fun err s' h => ?_
  have hout' : Outside P s'.writeCache := by rwa [h.1.writeCache]
  have hfile : s'.file = { s.file with cache := s'.file.cache } := by rw [h.1.file]
  have hcache : Outside P s.file.cache → Outside P s'.file.cache := fun h' => by rwa [h.1.file]
  refine .ite (fun herr => .pure ⟨hfile, hcache, hout', .ofWrite h.2 herr⟩) fun _ => .get_bind ?_
  exact (keeps_relocateCopy hinline hb _ _ hout').mono fun a s'' H => .trans hfile hcache H

theorem Apart.of_cache (H : Apart P s) (hfile : s'.file = { s.file with cache := s'.file.cache })
    (hcache : Outside P s.file.cache → Outside P s'.file.cache)
    (hshared : Outside P s'.writeCache) :
    Apart P s' := by
  refine ⟨hshared, fun hw => ?_, fun hw => ?_⟩
  · rw [hfile] at hw ⊢
    exact H.block hw
  · rw [hfile] at hw
    exact hcache (H.cache hw)

/-- A relocation that succeeds leaves the handle in a fresh block. -/
theorem keeps_relocate (hw : w.AllocatesOutside P) (hinline : ¬ P blockInline) (fuel : Nat)
    (H : Apart P s) :
    Keeps (Untouched P d) (relocate cfg w fuel) s fun err s' =>
      Apart P s' ∧ Code err ∧ (err = errOk ∨ s.file.writing = true → s'.file.writing = true) := by
  induction fuel generalizing s with
  | zero => exact .stop
  | succ fuel ih =>
    refine .bind (keeps_alloc hw) fun r s' h => ?_
    have H' : Apart P s' := H.of_cache (by rw [h.1.file]) (fun h' => by rwa [h.1.file])
      (by rw [h.1.writeCache]; exact H.shared)
    cases r with
    | error err =>
      refine .pure ⟨H', .of_neg err.neg, fun hw => ?_⟩
      rw [h.1.file]
      exact hw.resolve_left (Int.ne_of_lt err.neg)
    | ok nblock =>
      have hb := h.2 nblock rfl
      refine .bind (keeps_relocateTo hinline hb H'.shared) fun a s'' C => ?_
      have H'' := H'.of_cache C.file C.cache C.shared
      have hwriting : s.file.writing = true → s''.file.writing = true := fun hw => by
        rw [C.file, h.1.file]
        exact hw
      cases a with
      | done _ =>
        refine .modify_bind (fun H => ⟨H.requests, H.disk⟩) (.pure ⟨?_, .ok, fun _ => rfl⟩)
        exact ⟨.none rfl, fun _ => hb, fun _ => C.shared⟩
      | failed err =>
        have hneg := C.fails _ rfl
        exact .pure ⟨H'', .of_neg hneg, fun h => hwriting (h.resolve_left (Int.ne_of_lt hneg))⟩
      | relocate =>
        refine .modify_bind (fun H => ⟨H.requests, H.disk⟩) ((ih ?_).mono fun err s₃ h₃ => ?_)
        · exact ⟨.none rfl, H''.block, H''.cache⟩
        · exact ⟨h₃.1, h₃.2.1, fun h => h₃.2.2 (h.imp id hwriting)⟩

theorem keeps_outline (hw : w.AllocatesOutside P) (hinline : ¬ P blockInline) (H : Apart P s) :
    Keeps (Untouched P d) (outline cfg w) s fun err s' =>
      Apart P s' ∧ Code err ∧ (err = errOk ∨ s.file.writing = true → s'.file.writing = true) := by
  refine .modify_bind (fun H => ⟨H.requests, H.disk⟩) ?_
  refine .bind (keeps_relocate hw hinline _ ⟨H.shared, H.block, H.cache⟩) fun err s' h => ?_
  refine .ite (fun _ => .pure h) fun herr => .modify_bind (fun H => ⟨H.requests, H.disk⟩) ?_
  exact .pure ⟨⟨h.1.shared, h.1.block, h.1.cache⟩, .ok,
    fun _ => h.2.2 (.inl (not_not.mp herr))⟩

/-! ## Reading -/

/-- What a read leaves of a file: an inline one stays away from the blocks. -/
structure ReadOf (P : Nat → Prop) (f f' : File) : Prop where
  writing : f'.writing = f.writing
  isInline : f'.isInline = f.isInline
  block : f.isInline = true → ¬ P f.block → ¬ P f'.block
  cache : f.isInline = true → Outside P f.cache → Outside P f'.cache

theorem ReadOf.refl (f : File) : ReadOf P f f := ⟨rfl, rfl, fun _ => id, fun _ => id⟩

theorem ReadOf.trans (h : ReadOf P f f') (h' : ReadOf P f' f'') : ReadOf P f f'' :=
  ⟨h'.writing.trans h.writing, h'.isInline.trans h.isInline,
    fun hi hb => h'.block (h.isInline.trans hi) (h.block hi hb),
    fun hi hc => h'.cache (h.isInline.trans hi) (h.cache hi hc)⟩

theorem keeps_findBlock (hinline : ¬ P blockInline) (f : File) :
    Keeps (Untouched P d) (findBlock cfg w f) s fun r s' =>
      Same s s' ∧ ReadOf P f r.2 ∧ Code r.1 := by
  refine .ite (fun _ => .ite (fun _ => ?_) fun hi => ?_) fun _ =>
    .pure ⟨.refl s, .refl f, .ok⟩
  · exact .pure ⟨.refl s, ⟨rfl, rfl, fun _ _ => hinline, fun _ => id⟩, .ok⟩
  · refine .bind (keeps_ctzFind ..) fun r s' h => ?_
    obtain ⟨res, c⟩ := r
    cases res with
    | error err =>
      exact .pure ⟨h.1, ⟨rfl, rfl, fun _ => id, fun h => absurd h hi⟩, .of_neg (h.2 _ rfl)⟩
    | ok found =>
      exact .pure ⟨h.1, ⟨rfl, rfl, fun h => absurd h hi, fun h => absurd h hi⟩, .ok⟩

theorem keeps_readBlock (hinline : ¬ P blockInline) (f : File) (diff : Nat) :
    Keeps (Untouched P d) (readBlock cfg w f diff) s fun r s' =>
      Same s s' ∧ (f.isInline = true → Outside P f.cache → Outside P r.2) ∧ Fails r.1 := by
  refine .ite (fun _ => ?_) fun hi => ?_
  · exact (keeps_dirGetread hinline ..).mono fun r s' h => ⟨h.1, fun _ => h.2.1, h.2.2⟩
  · exact (keeps_bdRead ..).mono fun r s' h => ⟨h.1, fun h => absurd h hi, h.2⟩

theorem keeps_flushedreadLoop (hinline : ¬ P blockInline) (fuel nsize : Nat) (f : File) :
    Keeps (Untouched P d) (flushedreadLoop cfg w fuel nsize f) s fun r s' =>
      Same s s' ∧ ReadOf P f r.2 ∧ Fails r.1 := by
  induction fuel generalizing s nsize f with
  | zero => exact .stop
  | succ fuel ih =>
    refine .ite (fun _ => .pure ⟨.refl s, .refl f, .ok _⟩) fun _ => ?_
    refine .bind (keeps_findBlock hinline f) fun r s' h => ?_
    obtain ⟨err, f'⟩ := r
    refine .ite (fun herr => .pure ⟨h.1, h.2.1, .error (h.2.2.neg herr)⟩) fun _ => ?_
    refine .bind (keeps_readBlock hinline f' _) fun r s'' h' => ?_
    obtain ⟨res, c⟩ := r
    have hread : ReadOf P f { f' with cache := c } :=
      h.2.1.trans ⟨rfl, rfl, fun _ => id, h'.2.1⟩
    cases res with
    | error err => exact .pure ⟨h.1.trans h'.1, hread, .error (h'.2.2 _ rfl)⟩
    | ok bytes =>
      refine .bind (ih ..) fun r s₃ h₃ => ?_
      obtain ⟨rest, f''⟩ := r
      refine .pure ⟨(h.1.trans h'.1).trans h₃.1, .trans ?_ h₃.2.1, fun err he => ?_⟩
      · exact hread.trans ⟨rfl, rfl, fun _ => id, fun _ => id⟩
      · cases rest with
        | error e =>
          cases he
          exact h₃.2.2 _ rfl
        | ok _ => cases he

theorem keeps_flushedread (hinline : ¬ P blockInline) (size : Nat) (f : File) :
    Keeps (Untouched P d) (flushedread cfg w size f) s fun r s' =>
      Same s s' ∧ ReadOf P f r.2 ∧ Fails r.1 ∧ (size = 0 → r.2 = f) := by
  refine .ite (fun _ => .pure ⟨.refl s, .refl f, .ok _, fun _ => rfl⟩) fun _ => ?_
  by_cases hsize : size = 0
  · rw [hsize, Nat.zero_min]
    cases cfg.fuel with
    | zero => exact .stop
    | succ fuel => exact .pure ⟨.refl s, .refl f, .ok _, fun _ => rfl⟩
  · exact (keeps_flushedreadLoop hinline ..).mono fun r s' h =>
      ⟨h.1, h.2.1, h.2.2, fun h => absurd h hsize⟩

/-! ## Writing -/

theorem keeps_doIf {I : State → Prop} {c : Prop} [Decidable c] {m : FileM Int}
    {Q : Int → State → Prop} (hm : c → Keeps I m s Q) (h : ¬ c → Q errOk s) :
    Keeps I (doIf c m) s Q := .ite hm fun hc => .pure (h hc)

theorem Apart.opened (hshared : s.writeCache.block = none) (h : s.file.writing = false) :
    Apart P s := by
  refine ⟨.none hshared, fun hw => ?_, fun hw => ?_⟩ <;> rw [h] at hw <;> cases hw

theorem keeps_erred (H : Apart P s) (hcode : Code err) :
    Keeps (Untouched P d) (erred err) s fun err s' =>
      Apart P s' ∧ Code err ∧ (s.file.writing = true → s'.file.writing = true) :=
  .modify_bind (fun H => ⟨H.requests, H.disk⟩)
    (.pure ⟨⟨H.shared, H.block, H.cache⟩, hcode, id⟩)

/-- A handle that is written to, before its first write to a new block. -/
structure Ready (cfg : Config) (P : Nat → Prop) (s : State) : Prop where
  shared : Outside P s.writeCache
  block : ¬ P s.file.block
  cache : Outside P s.file.cache ∨ s.file.offset < cfg.blockSize
  writing : s.file.writing = true

theorem keeps_findLast : Keeps (Untouched P d) (findLast cfg w) s fun err s' =>
    s'.writeCache = s.writeCache ∧
      s'.file = { s.file with block := s'.file.block, cache := s'.file.cache } ∧
        Code err ∧ (err = errOk → Outside P s'.file.cache) := by
  refine .get_bind (.bind (keeps_ctzFind ..) fun r s' h => ?_)
  obtain ⟨res, c⟩ := r
  refine .modify_bind (fun H => H.setCache c .file) ?_
  cases res with
  | error err =>
    have hneg := h.2 _ rfl
    refine .pure ⟨h.1.writeCache, ?_, .of_neg hneg, fun h => absurd h (Int.ne_of_lt hneg)⟩
    rw [State.setCache, State.setFile, h.1.file]
  | ok found =>
    refine .modify_bind (fun H => ⟨H.requests, H.disk⟩)
      (.pure ⟨h.1.writeCache, ?_, .ok, fun _ => .none rfl⟩)
    rw [State.modFile, State.setFile, State.setCache, State.setFile, h.1.file]

theorem keeps_extendFile (hw : w.AllocatesOutside P) (hshared : Outside P s.writeCache)
    (hout : Outside P s.file.cache ∨ s.file.pos = 0) :
    Keeps (Untouched P d) (extendFile cfg w) s fun err s' =>
      Outside P s'.writeCache ∧ s'.file.writing = s.file.writing ∧ Code err ∧
        (Outside P s.file.cache → Outside P s'.file.cache) ∧
          (err = errOk → ¬ P s'.file.block ∧ (s.file.pos = 0 → s'.file.offset = 0)) ∧
            (err ≠ errOk → s'.file.block = s.file.block) := by
  refine .get_bind (.bind (keeps_ctzExtend hw _ _ _ hout) fun r s' h => ?_)
  have hfile : s'.file = { s.file with cache := s'.file.cache } := h.1.file
  have hshared' : Outside P s'.writeCache := fun b hb => hshared b (h.1.writeCache ▸ hb)
  cases r with
  | error err =>
    have hneg := h.2.2.2 _ rfl
    refine .pure ⟨hshared', ?_, .of_neg hneg, h.2.1, fun h => absurd h (Int.ne_of_lt hneg), ?_⟩
    · rw [hfile]
    · rw [hfile]
      exact fun _ => rfl
  | ok found =>
    obtain ⟨block, offset⟩ := found
    refine .modify_bind (fun H => ⟨H.requests, H.disk⟩)
      (.pure ⟨hshared', ?_, .ok, h.2.1, fun _ => h.2.2.1 _ _ rfl, fun h => absurd rfl h⟩)
    have hwriting := congrArg File.writing hfile
    exact hwriting

/-- The new block of a write is fresh, also for a handle whose cache holds what was read. -/
theorem keeps_newBlock (hw : w.AllocatesOutside P) (hinline : ¬ P blockInline)
    (hblock : 0 < cfg.blockSize) (H : Apart P s)
    (hin : s.file.isInline = true → s.file.writing = true ∨ s.file.pos < cfg.blockSize) :
    Keeps (Untouched P d) (newBlock cfg w) s fun err s' =>
      Outside P s'.writeCache ∧ Code err ∧ (s.file.writing = true → s'.file.writing = true) ∧
        (err = errOk → ¬ P s'.file.block ∧
          (Outside P s'.file.cache ∨ s'.file.offset < cfg.blockSize)) ∧
            (err ≠ errOk → Apart P s') := by
  refine .get_bind (.ite (fun hi => ?_) fun _ => ?_)
  · refine .modify_bind (fun H => ⟨H.requests, H.disk⟩)
      (.pure ⟨H.shared, .ok, id, fun _ => ⟨hinline, ?_⟩, fun h => absurd rfl h⟩)
    exact (hin hi).imp H.cache id
  · refine .bind (Q := fun err s' => s'.writeCache = s.writeCache ∧ Code err ∧
        s'.file.writing = s.file.writing ∧
          (err = errOk → (Outside P s'.file.cache ∨ s'.file.pos = 0) ∧
            (s.file.writing = true → s'.file = s.file)) ∧
              (err ≠ errOk → s.file.writing = false)) (keeps_doIf (fun hc => ?_) fun hc => ?_)
      fun err s' h => ?_
    · refine keeps_findLast.mono fun err s' h => ⟨h.1, h.2.2.1, ?_, fun herr => ?_, fun _ => hc.1⟩
      · rw [h.2.1]
      · refine ⟨.inl (h.2.2.2 herr), fun hwriting => ?_⟩
        rw [hc.1] at hwriting
        cases hwriting
    · refine ⟨rfl, .ok, rfl, fun _ => ⟨?_, fun _ => rfl⟩, fun h => absurd rfl h⟩
      by_cases hwriting : s.file.writing = true
      · exact .inl (H.cache hwriting)
      · rw [Bool.not_eq_true] at hwriting
        exact .inr (Nat.eq_zero_of_not_pos fun hpos => hc ⟨hwriting, hpos⟩)
    · have hshared : Outside P s'.writeCache := h.1 ▸ H.shared
      refine .ite (fun herr => .pure ⟨hshared, h.2.1, fun hw => h.2.2.1.trans hw,
        fun h => absurd h herr, fun _ => ?_⟩) fun herr => ?_
      · have hfalse := h.2.2.1.trans (h.2.2.2.2 herr)
        refine ⟨hshared, fun hw => ?_, fun hw => ?_⟩ <;> rw [hfalse] at hw <;> cases hw
      · obtain ⟨hout, hsame⟩ := h.2.2.2.1 (not_not.mp herr)
        refine (keeps_extendFile hw hshared hout).mono fun err s'' h' => ⟨h'.1, h'.2.2.1,
          fun hw => h'.2.1.trans (h.2.2.1.trans hw), fun herr => ⟨(h'.2.2.2.2.1 herr).1, ?_⟩,
          fun herr => ⟨h'.1, fun hw => ?_, fun hw => ?_⟩⟩
        · exact hout.imp h'.2.2.2.1 fun hpos => by rw [(h'.2.2.2.2.1 herr).2 hpos]; exact hblock
        · have hwriting := h.2.2.1.symm.trans (h'.2.1.symm.trans hw)
          rw [h'.2.2.2.2.2 herr, hsame hwriting]
          exact H.block hwriting
        · have hwriting := h.2.2.1.symm.trans (h'.2.1.symm.trans hw)
          refine h'.2.2.2.1 ?_
          rw [hsame hwriting]
          exact H.cache hwriting

theorem keeps_startBlock (hw : w.AllocatesOutside P) (hinline : ¬ P blockInline)
    (hblock : 0 < cfg.blockSize) (H : Apart P s)
    (hin : s.file.isInline = true → s.file.writing = true ∨ s.file.pos < cfg.blockSize) :
    Keeps (Untouched P d) (startBlock cfg w) s fun err s' =>
      Code err ∧ (s.file.writing = true → s'.file.writing = true) ∧
        (err = errOk → Ready cfg P s') ∧ (err ≠ errOk → Apart P s') := by
  refine .get_bind (.ite (fun _ => ?_) fun hc => ?_)
  · refine .bind (keeps_newBlock hw hinline hblock H hin) fun err s' h => ?_
    refine .ite (fun herr => .pure ⟨h.2.1, h.2.2.1, fun h => absurd h herr, h.2.2.2.2⟩)
      fun herr => .modify_bind (fun H => ⟨H.requests, H.disk⟩) ?_
    obtain ⟨hb, hcache⟩ := h.2.2.2.1 (not_not.mp herr)
    exact .pure ⟨.ok, fun _ => rfl, fun _ => ⟨h.1, hb, hcache, rfl⟩, fun h => absurd rfl h⟩
  · rw [not_or, Bool.not_eq_false] at hc
    exact .pure ⟨.ok, id, fun _ => ⟨H.shared, H.block hc.1, .inl (H.cache hc.1), hc.1⟩,
      fun h => absurd rfl h⟩

theorem keeps_writeOut (hw : w.AllocatesOutside P) (hinline : ¬ P blockInline)
    (bytes : List UInt8) (fuel : Nat) (hshared : Outside P s.writeCache)
    (hb : ¬ P s.file.block) (hout : Outside P s.file.cache ∨ bytes ≠ [])
    (hwriting : s.file.writing = true) :
    Keeps (Untouched P d) (writeOut cfg w bytes fuel) s fun err s' =>
      Apart P s' ∧ Code err ∧ s'.file.writing = true := by
  induction fuel generalizing s with
  | zero => exact .stop
  | succ fuel ih =>
    refine .get_bind (.bind (keeps_bdWrite .file hb ..) fun err s' h => ?_)
    have hfile : s'.file = { s.file with cache := s'.file.cache } := h.1.file
    have hwriting' : s'.file.writing = true := by
      rw [hfile]
      exact hwriting
    have H' : Apart P s' := by
      refine ⟨fun b hb => hshared b (h.1.writeCache ▸ hb), fun _ => ?_, fun _ => h.2.2 hout⟩
      rw [hfile]
      exact hb
    refine .ite (fun _ => ?_) fun _ => .pure ⟨H', h.2.1, hwriting'⟩
    refine .bind (keeps_relocate hw hinline _ H') fun err s'' h' => ?_
    have hwriting'' := h'.2.2 (.inr hwriting')
    refine .ite (fun _ => .pure ⟨h'.1, h'.2.1, hwriting''⟩) fun _ => ?_
    exact ih h'.1.shared (h'.1.block hwriting'') (.inl (h'.1.cache hwriting'')) hwriting''

theorem keeps_flushedwriteLoop (hw : w.AllocatesOutside P) (hinline : ¬ P blockInline)
    (hblock : 0 < cfg.blockSize) (fuel : Nat) (bytes : List UInt8) (H : Apart P s)
    (hin : s.file.isInline = true →
      s.file.writing = true ∨ s.file.pos + bytes.length ≤ cfg.blockSize) :
    Keeps (Untouched P d) (flushedwriteLoop cfg w fuel bytes) s fun err s' =>
      Apart P s' ∧ Code err ∧ (s.file.writing = true → s'.file.writing = true) := by
  induction fuel generalizing s bytes with
  | zero => exact .stop
  | succ fuel ih =>
    refine .ite (fun _ => .pure ⟨H, .ok, id⟩) fun hnil => ?_
    have hpos := List.length_pos_iff.mpr hnil
    refine .bind (keeps_startBlock hw hinline hblock H fun hi => (hin hi).imp id (by omega))
      fun err s' h => ?_
    refine .ite (fun herr => ?_) fun herr => .get_bind ?_
    · exact (keeps_erred (h.2.2.2 herr) h.1).mono fun err s'' h' =>
        ⟨h'.1, h'.2.1, fun hw => h'.2.2 (h.2.1 hw)⟩
    · have hready := h.2.2.1 (not_not.mp herr)
      refine .bind (keeps_writeOut hw hinline _ _ hready.shared hready.block
        (hready.cache.imp id fun hoff => ?_) hready.writing) fun err s'' h' => ?_
      · rw [ne_eq, List.take_eq_nil_iff]
        simp only [hnil, or_false]
        omega
      refine .ite (fun _ => ?_) fun _ => ?_
      · exact (keeps_erred h'.1 h'.2.1).mono fun err s₃ h₃ =>
          ⟨h₃.1, h₃.2.1, fun _ => h₃.2.2 h'.2.2⟩
      · refine .modify_bind (fun H => ⟨H.requests, H.disk⟩) ?_
        refine .mono (ih _ ⟨h'.1.shared, h'.1.block, h'.1.cache⟩ fun _ => .inl h'.2.2) ?_
        exact fun err s₃ h₃ => ⟨h₃.1, h₃.2.1, fun _ => h₃.2.2 h'.2.2⟩

theorem keeps_flushedwrite (hw : w.AllocatesOutside P) (hinline : ¬ P blockInline)
    (hblock : 0 < cfg.blockSize) (hcache : cfg.cacheSize ≤ cfg.blockSize) (bytes : List UInt8)
    (H : Apart P s) :
    Keeps (Untouched P d) (flushedwrite cfg w bytes) s fun _ s' =>
      Apart P s' ∧ (s.file.writing = true → s'.file.writing = true) := by
  refine .get_bind (.bind (Q := fun err s' => Apart P s' ∧ Code err ∧
      (s.file.writing = true → s'.file.writing = true) ∧ (err = errOk → s'.file.isInline = true →
        s'.file.writing = true ∨ s'.file.pos + bytes.length ≤ cfg.blockSize))
    (keeps_doIf (fun _ => ?_) fun hc => ?_) fun err s' h => ?_)
  · exact (keeps_outline hw hinline H).mono fun err s' h =>
      ⟨h.1, h.2.1, fun hw => h.2.2 (.inr hw), fun herr _ => .inl (h.2.2 (.inl herr))⟩
  · refine ⟨H, .ok, id, fun _ hi => .inr ?_⟩
    have hle : max (s.file.pos + bytes.length) s.file.size ≤ cfg.inlineMax cfg.blockSize 16 :=
      Nat.le_of_not_lt fun h => hc ⟨hi, h⟩
    have hmax : cfg.inlineMax cfg.blockSize 16 ≤ cfg.cacheSize :=
      (Nat.min_le_right ..).trans (Nat.min_le_left ..)
    omega
  · refine .ite (fun _ => ?_) fun herr => ?_
    · exact (keeps_erred h.1 h.2.1).mono fun _ s'' h' => ⟨h'.1, fun hw => h'.2.2 (h.2.2.1 hw)⟩
    · refine .bind (keeps_flushedwriteLoop hw hinline hblock _ _ h.1
        (h.2.2.2 (not_not.mp herr))) fun err s'' h' => ?_
      have hwriting : s.file.writing = true → s''.file.writing = true :=
        fun hw => h'.2.2 (h.2.2.1 hw)
      exact .ite (fun _ => .pure ⟨h'.1, hwriting⟩) fun _ => .pure ⟨h'.1, hwriting⟩

/-! ## Flushing -/

theorem Apart.dropReads (H : Apart P s) : Apart P (s.modFile File.dropReads) := by
  rw [State.modFile, State.setFile, File.dropReads]
  split
  · refine ⟨H.shared, H.block, fun hw => ?_⟩
    dsimp only
    split
    · exact H.cache hw
    · exact .none rfl
  · exact ⟨H.shared, H.block, H.cache⟩

theorem keeps_readOrig (hinline : ¬ P blockInline) (orig : File) :
    Keeps (Untouched P d) (readOrig cfg w orig) s fun r s' => Same s s' ∧ Fails r.1 := by
  refine .get_bind (.bind (keeps_flushedread hinline ..) fun r s' h => ?_)
  obtain ⟨res, orig'⟩ := r
  exact .modify_bind (fun H => ⟨H.requests, H.disk⟩)
    (.pure ⟨⟨h.1.file, h.1.writeCache⟩, h.2.2.1⟩)

theorem Apart.of_same (H : Apart P s) (h : Same s s') : Apart P s' := by
  obtain ⟨hfile, hshared⟩ := h
  refine ⟨?_, ?_, ?_⟩
  · rw [hshared]
    exact H.shared
  · rw [hfile]
    exact H.block
  · rw [hfile]
    exact H.cache

variable (hw : w.AllocatesOutside P) (hinline : ¬ P blockInline) (hblock : 0 < cfg.blockSize)
  (hcache : cfg.cacheSize ≤ cfg.blockSize)

include hw hinline hblock hcache

theorem keeps_flushCopy (fuel : Nat) (orig : File) (H : Apart P s)
    (hwriting : s.file.writing = true) :
    Keeps (Untouched P d) (flushCopy cfg w fuel orig) s fun err s' =>
      Apart P s' ∧ Code err ∧ s'.file.writing = true := by
  induction fuel generalizing s orig with
  | zero => exact .stop
  | succ fuel ih =>
    refine .get_bind (.ite (fun _ => ?_) fun _ => .pure ⟨H, .ok, hwriting⟩)
    refine .bind (keeps_readOrig hinline orig) fun r s' h => ?_
    obtain ⟨res, orig'⟩ := r
    have H' := H.of_same h.1
    have hwriting' : s'.file.writing = true := by rwa [h.1.file]
    cases res with
    | error err => exact .pure ⟨H', .of_neg (h.2 _ rfl), hwriting'⟩
    | ok data =>
      refine .bind (keeps_flushedwrite hw hinline hblock hcache data H') fun res s'' h' => ?_
      have hwriting'' := h'.2 hwriting'
      refine .ite (fun hneg => .pure ⟨h'.1, .of_neg hneg, hwriting''⟩) fun _ => .get_bind ?_
      refine .ite (fun _ => ?_) fun _ => ih orig' h'.1 hwriting''
      refine .modify_bind (fun H => ⟨H.requests, H.disk⟩) (ih _ ?_ hwriting'')
      exact ⟨h'.1.shared, h'.1.block, h'.1.cache⟩

omit hblock hcache in
theorem keeps_flushOut (fuel : Nat) (H : Apart P s) (hwriting : s.file.writing = true) :
    Keeps (Untouched P d) (flushOut cfg w fuel) s fun err s' => Apart P s' ∧ Code err := by
  induction fuel generalizing s with
  | zero => exact .stop
  | succ fuel ih =>
    refine .bind (keeps_bdFlush .file (H.cache hwriting)) fun err s' h => ?_
    have hfile : s'.file = { s.file with cache := s'.file.cache } := h.1.file
    have hwriting' : s'.file.writing = true := by
      rw [hfile]
      exact hwriting
    have H' : Apart P s' :=
      H.of_cache hfile (fun _ => h.2.1) fun b hb => H.shared b (h.1.writeCache ▸ hb)
    refine .ite (fun _ => ?_) fun _ => .pure ⟨H', h.2.2⟩
    refine .bind (keeps_relocate hw hinline _ H') fun err s'' h' => ?_
    exact .ite (fun _ => .pure ⟨h'.1, h'.2.1⟩) fun _ => ih h'.1 (h'.2.2 (.inr hwriting'))

theorem keeps_flushBlocks (H : Apart P s) (hwriting : s.file.writing = true) :
    Keeps (Untouched P d) (flushBlocks cfg w) s fun err s' => Apart P s' ∧ Code err := by
  refine .get_bind (.modify_bind (fun H => ⟨H.requests, H.disk⟩) ?_)
  refine .bind (keeps_flushCopy hw hinline hblock hcache _ _ ?_ hwriting) fun err s' h => ?_
  · exact ⟨H.shared, H.block, H.cache⟩
  · exact .ite (fun _ => .pure ⟨h.1, h.2.1⟩) fun _ => keeps_flushOut hw hinline _ h.1 h.2.2

/-- After a flush that succeeds nothing is pending. -/
theorem keeps_flush (H : Apart P s) :
    Keeps (Untouched P d) (flush cfg w) s fun err s' =>
      Apart P s' ∧ Code err ∧ (err = errOk → s'.file.writing = false) := by
  refine .modify_bind (fun H => ⟨H.requests, H.disk⟩) (.get_bind ?_)
  have H' := H.dropReads
  refine .ite (fun hwriting => ?_) fun hwriting => ?_
  · refine .bind (Q := fun err s' => Apart P s' ∧ Code err) (.get_bind ?_) fun err s' h => ?_
    · refine .ite (fun _ => ?_) fun _ => keeps_flushBlocks hw hinline hblock hcache H' hwriting
      exact .modify_bind (fun H => ⟨H.requests, H.disk⟩)
        (.pure ⟨⟨H'.shared, H'.block, H'.cache⟩, .ok⟩)
    · refine .ite (fun herr => .pure ⟨h.1, h.2, fun h => absurd h herr⟩) fun _ => ?_
      refine .modify_bind (fun H => ⟨H.requests, H.disk⟩) (.pure ⟨?_, .ok, fun _ => rfl⟩)
      refine ⟨h.1.shared, fun hw => ?_, fun hw => ?_⟩ <;> cases hw
  · exact .pure ⟨H', .ok, fun _ => Bool.not_eq_true _ ▸ hwriting⟩

/-! ## The calls -/

/-- A seek that succeeds leaves nothing pending, or was none. -/
theorem keeps_seekTo (npos : Nat) (H : Apart P s) :
    Keeps (Untouched P d) (seekTo cfg w npos) s fun res s' => Apart P s' ∧
      (0 ≤ res → s'.file.writing = false ∨ s'.file = s.file ∧ s.file.pos = npos) := by
  refine .get_bind (.ite (fun _ => .pure ⟨H, fun h => absurd h (by decide)⟩) fun _ => ?_)
  refine .ite (fun hpos => .pure ⟨H, fun _ => .inr ⟨rfl, hpos⟩⟩) fun _ => .ite (fun hc => ?_)
    fun _ => ?_
  · refine .modify_bind (fun H => ⟨H.requests, H.disk⟩) (.pure ⟨?_, fun _ => .inl hc.1⟩)
    exact ⟨H.shared, H.block, H.cache⟩
  · refine .bind (keeps_flush hw hinline hblock hcache H) fun err s' h => ?_
    refine .ite (fun herr => .pure ⟨h.1, fun hge => ?_⟩) fun herr => ?_
    · exact absurd (h.2.1.neg herr) (Int.not_lt.mpr hge)
    · have hwriting := h.2.2 (not_not.mp herr)
      refine .modify_bind (fun H => ⟨H.requests, H.disk⟩) (.pure ⟨?_, fun _ => .inl hwriting⟩)
      exact ⟨h.1.shared, h.1.block, h.1.cache⟩

theorem keeps_rawseek (offset : Int) (whence : Whence) (H : Apart P s) :
    Keeps (Untouched P d) (rawseek cfg w offset whence) s fun _ s' => Apart P s' :=
  .get_bind (.ite (fun _ => .pure H) fun _ =>
    (keeps_seekTo hw hinline hblock hcache _ H).mono fun _ _ h => h.1)

theorem keeps_fillZeros (pos fuel : Nat) (H : Apart P s) :
    Keeps (Untouched P d) (fillZeros cfg w pos fuel) s fun _ s' => Apart P s' := by
  induction fuel generalizing s with
  | zero => exact .stop
  | succ fuel ih =>
    refine .get_bind (.ite (fun _ => ?_) fun _ => .pure H)
    refine .bind (keeps_flushedwrite hw hinline hblock hcache [0] H) fun res s' h => ?_
    exact .ite (fun _ => .pure h.1) fun _ => ih h.1

theorem keeps_writeBehind (bytes : List UInt8) (H : Apart P s) :
    Keeps (Untouched P d) (writeBehind cfg w bytes) s fun _ s' => Apart P s' := by
  refine .modify_bind (fun H => ⟨H.requests, H.disk⟩) (.get_bind ?_)
  have H' : Apart P (s.modFile fun f =>
      if f.append ∧ f.pos < f.size then { f with pos := f.size } else f) := by
    rw [State.modFile, State.setFile]
    split <;> exact ⟨H.shared, H.block, H.cache⟩
  refine .ite (fun _ => .pure H') fun _ => ?_
  refine .bind (Q := fun _ s' => Apart P s') (keeps_doIf (fun _ => .get_bind ?_) fun _ => H')
    fun res s' h => ?_
  · refine .modify_bind (fun H => ⟨H.requests, H.disk⟩)
      (keeps_fillZeros hw hinline hblock hcache _ _ ?_)
    exact ⟨H'.shared, H'.block, H'.cache⟩
  · refine .ite (fun _ => .pure h) fun _ => ?_
    refine .bind (keeps_flushedwrite hw hinline hblock hcache bytes h) fun res s'' h' => ?_
    refine .ite (fun _ => .pure h'.1) fun _ => .modify_bind (fun H => ⟨H.requests, H.disk⟩) ?_
    exact .pure ⟨h'.1.shared, h'.1.block, h'.1.cache⟩

theorem keeps_rawwrite (bytes : List UInt8) (H : Apart P s) :
    Keeps (Untouched P d) (rawwrite cfg w bytes) s fun _ s' => Apart P s' := by
  refine .get_bind (.bind (Q := fun _ s' => Apart P s') (keeps_doIf (fun _ => ?_) fun _ => H)
    fun err s' h => .ite (fun _ => .pure h) fun _ =>
      keeps_writeBehind hw hinline hblock hcache bytes h)
  exact (keeps_flush hw hinline hblock hcache H).mono fun _ _ h => h.1

theorem keeps_rawreadFile (size : Nat) (H : Apart P s) :
    Keeps (Untouched P d) (rawreadFile cfg w size) s fun _ s' => Apart P s' := by
  refine .get_bind (.bind (Q := fun err s' => Apart P s' ∧
    (err = errOk → s'.file.writing = false)) (keeps_doIf (fun _ => ?_) fun hc => ?_)
    fun err s' h => .ite (fun _ => .pure h.1) fun herr => .get_bind ?_)
  · exact (keeps_flush hw hinline hblock hcache H).mono fun _ _ h => ⟨h.1, h.2.2⟩
  · exact ⟨H, fun _ => Bool.not_eq_true _ ▸ hc⟩
  · refine .bind (keeps_flushedread hinline ..) fun r s'' h' => ?_
    obtain ⟨res, f⟩ := r
    have hwriting : f.writing = false := h'.2.1.writing.trans (h.2 (not_not.mp herr))
    refine .modify_bind (fun H => ⟨H.requests, H.disk⟩) (.pure ⟨?_, fun hw => ?_, fun hw => ?_⟩)
    · exact fun b hb => h.1.shared b (h'.1.writeCache ▸ hb)
    · exact absurd (hwriting.symm.trans hw) (by decide)
    · exact absurd (hwriting.symm.trans hw) (by decide)

/-- What the read at the head leaves when the seek to it was none. -/
theorem keeps_shrinkInline (size : Nat) (H : Apart P s)
    (hslip : s.file.writing = true → s.file.isInline = false → s.file.pos = 0 → size = 0) :
    Keeps (Untouched P d) (shrinkInline cfg w size) s fun _ s' => Apart P s' := by
  refine .bind (keeps_seekTo hw hinline hblock hcache 0 H) fun res s' h => ?_
  refine .ite (fun _ => .pure h.1) fun hres => .modify_bind (fun H => ⟨H.requests, H.disk⟩) ?_
  refine .get_bind (.bind (keeps_flushedread hinline size s'.file) fun r s'' h' => ?_)
  obtain ⟨res', f⟩ := r
  have hshared : Outside P s''.writeCache := fun b hb => h.1.shared b (h'.1.writeCache ▸ hb)
  have hpending : f.writing = true → ¬ P f.block ∧ Outside P f.cache := fun hwriting => by
    have hwriting' := h'.2.1.writing.symm.trans hwriting
    rcases h.2 (Int.not_lt.mp hres) with hfalse | ⟨hfile, hpos⟩
    · exact absurd (hfalse.symm.trans hwriting') (by decide)
    · rcases Bool.eq_false_or_eq_true s'.file.isInline with hi | hi
      · exact ⟨h'.2.1.block hi (h.1.block hwriting'), h'.2.1.cache hi (h.1.cache hwriting')⟩
      · have heq := h'.2.2.2 (hslip (hfile ▸ hwriting') (hfile ▸ hi) hpos)
        rw [show f = s'.file from heq]
        exact ⟨h.1.block hwriting', h.1.cache hwriting'⟩
  refine .modify_bind (fun H => ⟨H.requests, H.disk⟩) ?_
  cases res' with
  | error err => exact .pure ⟨hshared, fun hw => (hpending hw).1, fun hw => (hpending hw).2⟩
  | ok bytes =>
    refine .modify_bind (fun H => ⟨H.requests, H.disk⟩) (.pure ?_)
    exact ⟨hshared, fun hw => (hpending hw).1, fun _ => .some rfl hinline⟩

theorem keeps_shrinkList (size : Nat) (H : Apart P s) :
    Keeps (Untouched P d) (shrinkList cfg w size) s fun _ s' => Apart P s' := by
  refine .bind (keeps_flush hw hinline hblock hcache H) fun err s' h => ?_
  refine .ite (fun _ => .pure h.1) fun herr => .get_bind ?_
  have hwriting := h.2.2 (not_not.mp herr)
  refine .bind (keeps_ctzFind ..) fun r s'' h' => ?_
  obtain ⟨res, c⟩ := r
  have hshared : Outside P s''.writeCache := fun b hb => h.1.shared b (h'.1.writeCache ▸ hb)
  have hfalse : s''.file.writing = true → False := fun hw => by
    rw [h'.1.file, hwriting] at hw
    cases hw
  refine .modify_bind (fun H => ⟨H.requests, H.disk⟩) ?_
  cases res with
  | error err => exact .pure ⟨hshared, fun hw => (hfalse hw).elim, fun hw => (hfalse hw).elim⟩
  | ok found =>
    refine .modify_bind (fun H => ⟨H.requests, H.disk⟩) (.pure ?_)
    exact ⟨hshared, fun hw => (hfalse hw).elim, fun hw => (hfalse hw).elim⟩

theorem keeps_extendZeros (size fuel : Nat) (H : Apart P s) :
    Keeps (Untouched P d) (extendZeros cfg w size fuel) s fun _ s' => Apart P s' := by
  induction fuel generalizing s with
  | zero => exact .stop
  | succ fuel ih =>
    refine .get_bind (.ite (fun _ => ?_) fun _ => .pure H)
    refine .bind (keeps_rawwrite hw hinline hblock hcache [0] H) fun res s' h => ?_
    exact .ite (fun _ => .pure h) fun _ => ih h

theorem keeps_rawtruncate (size : Nat) (H : Apart P s) (hslip : ¬ Slips cfg s (.truncate size)) :
    Keeps (Untouched P d) (rawtruncate cfg w size) s fun _ s' => Apart P s' := by
  refine .get_bind (.ite (fun _ => .pure H) fun _ => ?_)
  refine .bind (Q := fun _ s' => Apart P s') (.get_bind ?_) fun res s' h => ?_
  · refine .ite (fun hlt => .ite (fun hle => ?_) fun _ => ?_) fun _ => .ite (fun _ => ?_)
      fun _ => .pure H
    · refine keeps_shrinkInline hw hinline hblock hcache size H fun hwriting hi hpos => ?_
      exact Nat.eq_zero_of_not_pos fun hsize => hslip ⟨hsize, hlt, hle, hwriting, hi, hpos⟩
    · exact keeps_shrinkList hw hinline hblock hcache size H
    · refine .bind (keeps_rawseek hw hinline hblock hcache _ _ H) fun res s' h => ?_
      exact .ite (fun _ => .pure h) fun _ => keeps_extendZeros hw hinline hblock hcache _ _ h
  · refine .ite (fun _ => .pure h) fun _ => ?_
    refine .bind (keeps_rawseek hw hinline hblock hcache _ _ h) fun res s'' h' => ?_
    exact .ite (fun _ => .pure h') fun _ => .pure h'

/-- **Step.** -/
theorem keeps_call (c : Call) (H : Apart P s) (hslip : ¬ Slips cfg s c) :
    Keeps (Untouched P d) (call cfg w c) s fun _ s' => Apart P s' := by
  cases c with
  | write bytes => exact keeps_rawwrite hw hinline hblock hcache bytes H
  | read size =>
    refine .bind (keeps_rawreadFile hw hinline hblock hcache size H) fun r s' h => ?_
    cases r <;> exact .pure h
  | seek offset whence => exact keeps_rawseek hw hinline hblock hcache offset whence H
  | truncate size => exact keeps_rawtruncate hw hinline hblock hcache size H hslip
  | flush => exact (keeps_flush hw hinline hblock hcache H).mono fun _ _ h => h.1

/-- **Run.** -/
theorem keeps_run (calls : List Call) (H : Apart P s) (hclear : Clear cfg w calls s) :
    Keeps (Untouched P d) (run cfg w calls) s fun _ s' => Apart P s' := by
  induction calls generalizing s with
  | nil => exact .pure H
  | cons c calls ih =>
    obtain ⟨hslip, hnext⟩ := hclear
    refine .bind (keeps_call hw hinline hblock hcache c H hslip).attach fun res s' h => ?_
    rw [h.2] at hnext
    exact ih h.1 hnext

omit hw hinline hblock hcache

/-- **Copy-on-write.** In a run without such a truncation no request addresses a block that the
committed metadata reaches, and each of these holds what it held at the start. -/
theorem run_copyOnWrite (hcfg : cfg.toReadConfig.Ok) (hblock : 0 < cfg.blockSize)
    (hinline : ¬ P blockInline) (hw : w.AllocatesOutside P) (hnew : s.events = [])
    (H : Apart P s) (hclear : Clear cfg w calls s) :
    Untouched P s.disk (run cfg w calls s).2 := by
  have hcache : cfg.cacheSize ≤ cfg.blockSize := Nat.le_of_dvd hblock hcfg.cacheSize_dvd
  refine (keeps_run hw hinline hblock hcache calls H hclear).holds ⟨?_, fun _ _ => rfl⟩
  rw [hnew]
  exact fun e he => absurd he List.not_mem_nil

/-! ## Two runs -/

def ioError : DeviceError := ⟨errIo, errIo_neg⟩

def corruptError : DeviceError := ⟨errCorrupt, by decide⟩

def smallBlocks : Config where
  blockSize := 64
  blockCount := 8
  writeSize := 16
  cacheSize := 16
  readSize := 16
  fileMaxSize := fileMax
  cfgBlockSize := 64
  fuel := 60

/-- A device whose requests fail at the given times. -/
def faulty (reads : List Nat) (program : DeviceError) (programs : List Nat) : World where
  readFails clock _ _ _ := if clock ∈ reads then some (ioError, []) else none
  program clock _ offset bytes image :=
    if clock ∈ programs then (some program, image)
    else (none, ByteImage.write image offset bytes)
  erase _ _ image := (none, image)
  alloc clock s := (.ok (2 + clock % 5), s.readCache)
  slice _ _ _ := .error (ioError, [])

theorem faulty_allocatesOutside (reads : List Nat) (e : DeviceError) (programs : List Nat) :
    (faulty reads e programs).AllocatesOutside (· = 1) := fun clock s b h => by
  cases h
  omega

/-- A file of 17 bytes in block 1. -/
def seventeenBytes : State where
  file := { head := 1, size := 17 }
  disk _ _ := 7

theorem smallBlocks_ok : smallBlocks.toReadConfig.Ok where
  readSize := by decide
  cacheSize := by decide
  readSize_dvd := by decide
  cacheSize_dvd := by decide

/-- A write whose block is bad, a seek back, and a truncation that makes the file inline. -/
theorem run_copyOnWrite_relocated :
    Clear smallBlocks (faulty [] corruptError [2]) [.write (List.replicate 16 1), .seek 3 .set,
      .write [2], .truncate 4, .write [3]] seventeenBytes ∧
    Untouched (· = 1) seventeenBytes.disk (run smallBlocks (faulty [] corruptError [2])
      [.write (List.replicate 16 1), .seek 3 .set, .write [2], .truncate 4, .write [3]]
      seventeenBytes).2 :=
  have hclear : Clear smallBlocks (faulty [] corruptError [2]) [.write (List.replicate 16 1),
      .seek 3 .set, .write [2], .truncate 4, .write [3]] seventeenBytes := by decide +kernel
  ⟨hclear, run_copyOnWrite smallBlocks_ok (by decide) (by decide) (faulty_allocatesOutside _ _ _)
    rfl
    (.opened rfl rfl) hclear⟩

/-- The condition is needed: when the first program fails and then the read of the truncation, the
next write programs the block of the committed file. -/
theorem run_copyOnWrite_slips :
    ¬ Untouched (· = 1) seventeenBytes.disk (run smallBlocks (faulty [3] ioError [2])
      [.write (List.replicate 16 1), .truncate 4, .write [1]] seventeenBytes).2 := fun H => by
  have hany : ∃ e ∈ (run smallBlocks (faulty [3] ioError [2])
      [.write (List.replicate 16 1), .truncate 4, .write [1]] seventeenBytes).2.events,
        e.block = some 1 := by
    have h : (run smallBlocks (faulty [3] ioError [2])
        [.write (List.replicate 16 1), .truncate 4, .write [1]] seventeenBytes).2.events.any
          (fun e => e.block == some 1) = true := by decide +kernel
    obtain ⟨e, he, hb⟩ := List.any_eq_true.mp h
    exact ⟨e, he, beq_iff_eq.mp hb⟩
  obtain ⟨e, he, hb⟩ := hany
  exact H.requests e he 1 hb rfl

end FileIo

end LittleFs
