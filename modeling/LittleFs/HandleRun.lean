import LittleFs.CopyOnWrite

/-! A handle as `FileHandle` has it and the file behind it, with its caches and the requests to the
device: where a read, a write of one byte, a flush or a seek of the file returns, the one of the
handle returns the same, with the faults that the device has answered with. -/

namespace LittleFs

open StateLogic StateLogic.Prog
open FileHandle (Whence)

namespace FileIo

/-! ## What is seen of a file -/

/-- The sizes that the calls on a handle use. -/
def Config.handles (cfg : Config) (h : cfg.fileMaxSize ≤ fileMax) : FileConfig where
  blockSize := cfg.blockSize
  cfgBlockSize := cfg.cfgBlockSize
  cacheSize := cfg.cacheSize
  metadataMax := cfg.metadataMax
  fileMaxSize := cfg.fileMaxSize
  fileMaxSize_le := h

/-- The handle has the fields of the file. Its content is left open: what the blocks hold is said of
a session. -/
structure File.Shows (f : File) (h : FileHandle) : Prop where
  pos : h.pos = f.pos
  size : h.size = f.size
  append : h.append = f.append
  reading : h.reading = f.reading
  writing : h.writing = f.writing
  isInline : h.isInline = f.isInline

/-- A call on the handle returns what the call on the file has returned, and shows the file. -/
structure State.Answers (s : State) (res : Int) (r : Int × FileHandle) : Prop where
  res : r.1 = res
  shows : s.file.Shows r.2

/-- The same but for a write that fails behind `lfs_file_outline`: the file is no more inline, which
the handle says of a write that succeeds only. -/
def State.AnswersButInline (s : State) (res : Int) (r : Int × FileHandle) : Prop :=
  s.Answers res r ∨ res < 0 ∧ (s.modFile fun f => { f with isInline := true }).Answers res r

/-- The program returns so that `Q` holds, or runs out of fuel. -/
abbrev Returns (m : FileM α) (s : State) (Q : α → State → Prop) : Prop :=
  Keeps (fun _ => True) m s Q

/-- All but the blocks and the caches is as before, and `LFS_F_WRITING` is not taken back. -/
structure File.Stays (f f' : File) : Prop where
  pos : f'.pos = f.pos
  size : f'.size = f.size
  append : f'.append = f.append
  reading : f'.reading = f.reading
  isInline : f'.isInline = f.isInline
  writing : f.writing = true → f'.writing = true

/-- A read has moved the file on. -/
structure File.Moves (f f' : File) (n : Nat) : Prop where
  pos : f'.pos = f.pos + n
  size : f'.size = f.size
  append : f'.append = f.append
  writing : f'.writing = f.writing
  isInline : f'.isInline = f.isInline
  reading : f.reading = true → f'.reading = true

variable {cfg : Config} {w : World} {s s' s'' : State} {f f' f'' : File} {h : FileHandle}
  {bytes : List UInt8}

theorem Returns.of_keeps {m : FileM α} {Q : α → State → Prop}
    (hm : Keeps (Untouched (fun _ => False) s.disk) m s Q) : Returns m s Q :=
  ⟨fun _ => (hm.ensures ⟨fun _ _ _ _ => id, fun _ => False.elim⟩).mono
    (fun _ _ h => ⟨trivial, h.2⟩) fun _ _ => trivial⟩

theorem World.allocatesOutside_false (w : World) : w.AllocatesOutside fun _ => False :=
  fun _ _ _ _ => id

theorem File.Stays.refl (f : File) : f.Stays f := ⟨rfl, rfl, rfl, rfl, rfl, id⟩

theorem File.Stays.trans (H : f.Stays f') (H' : f'.Stays f'') : f.Stays f'' :=
  ⟨H'.pos.trans H.pos, H'.size.trans H.size, H'.append.trans H.append,
    H'.reading.trans H.reading, H'.isInline.trans H.isInline, fun hw => H'.writing (H.writing hw)⟩

theorem File.Stays.of_cache (hfile : f' = { f with cache := f'.cache }) : f.Stays f' := by
  rw [hfile]
  exact ⟨rfl, rfl, rfl, rfl, rfl, id⟩

theorem File.Moves.refl (f : File) : f.Moves f 0 := ⟨rfl, rfl, rfl, rfl, rfl, id⟩

theorem File.Moves.trans (H : f.Moves f' n) (H' : f'.Moves f'' n') : f.Moves f'' (n + n') :=
  ⟨by rw [H'.pos, H.pos, Nat.add_assoc], H'.size.trans H.size, H'.append.trans H.append,
    H'.writing.trans H.writing, H'.isInline.trans H.isInline, fun hr => H'.reading (H.reading hr)⟩

theorem State.AnswersButInline.result {r : Int × FileHandle} (H : s.AnswersButInline res r) :
    r.1 = res := by
  rcases H with H | ⟨-, H⟩
  · exact H.res
  · exact H.res

theorem State.AnswersButInline.answers {r : Int × FileHandle} (H : s.AnswersButInline res r)
    (hres : 0 ≤ res) : s.Answers res r := H.resolve_right fun h => by omega

/-! ## Writing -/

theorem relocate_stays (fuel : Nat) : Returns (relocate cfg w fuel) s fun err s' =>
    Code err ∧ s.file.Stays s'.file ∧ (err = errOk → s'.file.writing = true) := by
  induction fuel generalizing s with
  | zero => exact .stop
  | succ fuel ih =>
    refine .bind (Returns.of_keeps (keeps_alloc w.allocatesOutside_false)) fun r s' h => ?_
    have hfile : s'.file = s.file := h.1.file
    cases r with
    | error err =>
      refine .pure ⟨.of_neg err.neg, hfile ▸ .refl _, fun h => ?_⟩
      exact absurd h (Int.ne_of_lt err.neg)
    | ok nblock =>
      refine .bind (Returns.of_keeps (keeps_relocateTo (P := fun _ => False) id id fun _ _ => id))
        fun a s'' C => ?_
      have hstays : s.file.Stays s''.file := hfile ▸ .of_cache C.file
      cases a with
      | done _ =>
        refine .modify_bind id (.pure ⟨.ok, hstays.trans ?_, fun _ => rfl⟩)
        exact ⟨rfl, rfl, rfl, rfl, rfl, fun _ => rfl⟩
      | failed err =>
        have hneg := C.fails _ rfl
        exact .pure ⟨.of_neg hneg, hstays, fun h => absurd h (Int.ne_of_lt hneg)⟩
      | relocate =>
        refine .modify_bind id (ih.mono fun err s₃ h₃ => ⟨h₃.1, hstays.trans h₃.2.1, h₃.2.2⟩)

theorem outline_stays : Returns (outline cfg w) s fun err s' =>
    err = errOk ∧ { s.file with isInline := false }.Stays s'.file ∧ s'.file.writing = true ∨
      err < 0 ∧ s.file.Stays s'.file := by
  refine .modify_bind id (.bind (relocate_stays _) fun err s' h => ?_)
  have hstays : s.file.Stays s'.file :=
    ⟨h.2.1.pos, h.2.1.size, h.2.1.append, h.2.1.reading, h.2.1.isInline, h.2.1.writing⟩
  refine .ite (fun herr => .pure (.inr ⟨h.1.neg herr, hstays⟩)) fun herr => ?_
  refine .modify_bind id (.pure (.inl ⟨rfl, ?_, h.2.2 (not_not.mp herr)⟩))
  exact ⟨hstays.pos, hstays.size, hstays.append, hstays.reading, rfl, hstays.writing⟩

theorem extendFile_stays : Returns (extendFile cfg w) s fun err s' =>
    Code err ∧ s.file.Stays s'.file := by
  refine .get_bind (.bind (Returns.of_keeps (keeps_ctzExtend w.allocatesOutside_false _ _ _
    (.inl fun _ _ => id))) fun r s' h => ?_)
  have hstays : s.file.Stays s'.file := .of_cache h.1.file
  cases r with
  | error err => exact .pure ⟨.of_neg (h.2.2.2 _ rfl), hstays⟩
  | ok found =>
    refine .modify_bind id (.pure ⟨.ok, hstays.trans ⟨rfl, rfl, rfl, rfl, rfl, id⟩⟩)

theorem findLast_stays : Returns (findLast cfg w) s fun err s' =>
    Code err ∧ s.file.Stays s'.file := by
  refine (Returns.of_keeps keeps_findLast).mono fun err s' h => ⟨h.2.2.1, ?_⟩
  rw [h.2.1]
  exact ⟨rfl, rfl, rfl, rfl, rfl, id⟩

theorem newBlock_stays : Returns (newBlock cfg w) s fun err s' =>
    Code err ∧ s.file.Stays s'.file := by
  refine .get_bind (.ite (fun _ => ?_) fun _ => ?_)
  · exact .modify_bind id (.pure ⟨.ok, ⟨rfl, rfl, rfl, rfl, rfl, id⟩⟩)
  · refine .bind (keeps_doIf (fun _ => findLast_stays) fun _ => ⟨.ok, .refl _⟩) fun err s' h => ?_
    refine .ite (fun _ => .pure h) fun _ => extendFile_stays.mono fun err s'' h' => ?_
    exact ⟨h'.1, h.2.trans h'.2⟩

theorem startBlock_stays : Returns (startBlock cfg w) s fun err s' =>
    Code err ∧ s.file.Stays s'.file ∧ (err = errOk → s'.file.writing = true) := by
  refine .get_bind (.ite (fun _ => ?_) fun hc => ?_)
  · refine .bind newBlock_stays fun err s' h => ?_
    refine .ite (fun herr => .pure ⟨h.1, h.2, fun h => absurd h herr⟩) fun _ => ?_
    refine .modify_bind id (.pure ⟨.ok, h.2.trans ?_, fun _ => rfl⟩)
    exact ⟨rfl, rfl, rfl, rfl, rfl, fun _ => rfl⟩
  · rw [not_or, Bool.not_eq_false] at hc
    exact .pure ⟨.ok, .refl _, fun _ => hc.1⟩

theorem writeOut_stays (bytes : List UInt8) (fuel : Nat) :
    Returns (writeOut cfg w bytes fuel) s fun err s' => Code err ∧ s.file.Stays s'.file := by
  induction fuel generalizing s with
  | zero => exact .stop
  | succ fuel ih =>
    refine .get_bind (.bind (Returns.of_keeps (keeps_bdWrite (P := fun _ => False) .file id _ _))
      fun err s' h => ?_)
    have hstays : s.file.Stays s'.file := .of_cache h.1.file
    refine .ite (fun _ => ?_) fun _ => .pure ⟨h.2.1, hstays⟩
    refine .bind (relocate_stays _) fun err s'' h' => ?_
    have hstays' := hstays.trans h'.2.1
    exact .ite (fun _ => .pure ⟨h'.1, hstays'⟩) fun _ => ih.mono fun err s₃ h₃ =>
      ⟨h₃.1, hstays'.trans h₃.2⟩

/-- Bytes are written one after the other, up to the failure. -/
theorem flushedwriteLoop_stays (fuel : Nat) (bytes : List UInt8) :
    Returns (flushedwriteLoop cfg w fuel bytes) s fun err s' =>
      err = errOk ∧ { s.file with pos := s.file.pos + bytes.length }.Stays s'.file ∧
        (bytes ≠ [] → s'.file.writing = true) ∨
      err < 0 ∧ ∃ n < bytes.length, { s.file with pos := s.file.pos + n }.Stays s'.file := by
  induction fuel generalizing s bytes with
  | zero => exact .stop
  | succ fuel ih =>
    refine .ite (fun hnil => .pure (.inl ?_)) fun hnil => ?_
    · rw [hnil]
      exact ⟨rfl, .refl _, fun h => absurd rfl h⟩
    have hpos := List.length_pos_iff.mpr hnil
    refine .bind startBlock_stays fun err s' h => .ite (fun herr => ?_) fun herr => .get_bind ?_
    · refine .modify_bind id (.pure (.inr ⟨h.1.neg herr, 0, hpos, h.2.1.trans ?_⟩))
      exact ⟨rfl, rfl, rfl, rfl, rfl, id⟩
    refine .bind (writeOut_stays _ _) fun err s'' h' => ?_
    have hstays := h.2.1.trans h'.2
    have hwriting := h'.2.writing (h.2.2 (not_not.mp herr))
    refine .ite (fun herr => ?_) fun _ => ?_
    · refine .modify_bind id (.pure (.inr ⟨h'.1.neg herr, 0, hpos, hstays.trans ?_⟩))
      exact ⟨rfl, rfl, rfl, rfl, rfl, id⟩
    · -- what is written so far, and what is left of the bytes
      refine .modify_bind id ((ih _).mono fun err s₃ h₃ => ?_)
      obtain ⟨diff, hdiff⟩ : ∃ diff, min bytes.length (cfg.blockSize - s'.file.offset) = diff :=
        ⟨_, rfl⟩
      have hle : diff ≤ bytes.length := hdiff ▸ Nat.min_le_left ..
      rw [hdiff, List.length_drop] at h₃
      have hnext : ∀ n, { s''.file with
            pos := s''.file.pos + diff + n, offset := s''.file.offset + diff }.Stays s₃.file →
          { s.file with pos := s.file.pos + (diff + n) }.Stays s₃.file := fun n H =>
        ⟨by rw [H.pos, hstays.pos, Nat.add_assoc], H.size.trans hstays.size,
          H.append.trans hstays.append, H.reading.trans hstays.reading,
          H.isInline.trans hstays.isInline, fun hw => H.writing (hstays.writing hw)⟩
      rcases h₃ with ⟨herr, H, -⟩ | ⟨herr, n, hn, H⟩
      · have H' := hnext _ H
        rw [Nat.add_sub_cancel' hle] at H'
        exact .inl ⟨herr, H', fun _ => H.writing hwriting⟩
      · exact .inr ⟨herr, diff + n, by omega, hnext n H⟩

/-- The flag for inline is taken back before the first byte is written. -/
theorem flushedwrite_stays (bytes : List UInt8) :
    Returns (flushedwrite cfg w bytes) s fun res s' =>
      res = bytes.length ∧ { s.file with
          pos := s.file.pos + bytes.length
          isInline := s.file.isInline && decide (max (s.file.pos + bytes.length) s.file.size ≤
            cfg.inlineMax cfg.blockSize 16) }.Stays s'.file ∧
        (bytes ≠ [] → s'.file.writing = true) ∨
      res < 0 ∧ ∃ n isInline, n ≤ bytes.length - 1 ∧
        (isInline = s.file.isInline ∨ isInline = false) ∧
        { s.file with pos := s.file.pos + n, isInline }.Stays s'.file := by
  obtain ⟨isInline, hinline⟩ : ∃ isInline, (s.file.isInline &&
      decide (max (s.file.pos + bytes.length) s.file.size ≤ cfg.inlineMax cfg.blockSize 16)) =
        isInline := ⟨_, rfl⟩
  have hor : isInline = s.file.isInline ∨ isInline = false := by
    rw [← hinline]
    cases s.file.isInline with
    | false => exact .inr rfl
    | true =>
      rw [Bool.true_and]
      exact Bool.eq_false_or_eq_true _
  rw [hinline]
  refine .get_bind (.bind (Q := fun err s' =>
    err = errOk ∧ { s.file with isInline }.Stays s'.file ∨ err < 0 ∧ s.file.Stays s'.file)
    (keeps_doIf (fun hc => outline_stays.mono fun err s' h => ?_) fun hc => ?_) fun err s' h => ?_)
  · have hfalse : isInline = false := by
      rw [← hinline, decide_eq_false (Nat.not_le.mpr hc.2), Bool.and_false]
    rw [hfalse]
    exact h.imp_left fun h => ⟨h.1, h.2.1⟩
  · have hsame : isInline = s.file.isInline := by
      rw [← hinline]
      cases hi : s.file.isInline with
      | false => rfl
      | true => exact decide_eq_true (Nat.le_of_not_lt fun h => hc ⟨hi, h⟩)
    rw [hsame]
    exact .inl ⟨rfl, .refl _⟩
  rcases h with ⟨rfl, h⟩ | ⟨herr, h⟩
  · refine .ite (fun h => absurd rfl h) fun _ => .bind (flushedwriteLoop_stays _ _) ?_
    intro err s'' h'
    have hnext : ∀ n, { s'.file with pos := s'.file.pos + n }.Stays s''.file →
        { s.file with pos := s.file.pos + n, isInline }.Stays s''.file := fun n H =>
      ⟨by rw [H.pos, h.pos], H.size.trans h.size, H.append.trans h.append,
        H.reading.trans h.reading, H.isInline.trans h.isInline, fun hw => H.writing (h.writing hw)⟩
    rcases h' with ⟨rfl, H, hwriting⟩ | ⟨herr, n, hn, H⟩
    · exact .ite (fun h => absurd rfl h) fun _ => .pure (.inl ⟨rfl, hnext _ H, hwriting⟩)
    · refine .ite (fun _ => .pure (.inr ⟨herr, n, isInline, by omega, hor, hnext n H⟩)) fun h => ?_
      exact absurd (not_not.mp h) (Int.ne_of_lt herr)
  · refine .ite (fun _ => .modify_bind id (.pure (.inr ⟨herr, 0, _, Nat.zero_le _, .inl rfl, ?_⟩)))
      fun h => absurd (not_not.mp h) (Int.ne_of_lt herr)
    exact h.trans ⟨rfl, rfl, rfl, rfl, rfl, id⟩

variable (hmax : cfg.fileMaxSize ≤ fileMax)

/-- **One byte** is written. -/
theorem flushedwrite_answers (H : s.file.Shows h) (byte : UInt8) :
    Returns (flushedwrite cfg w [byte]) s fun res s' =>
      ∃ fault, s'.AnswersButInline res (h.flushedwrite (cfg.handles hmax) fault byte) ∧
        (0 ≤ res → s'.file.pos = s.file.pos + 1) := by
  refine (flushedwrite_stays [byte]).mono fun res s' h' => ?_
  rcases h' with ⟨rfl, hstays, hwriting⟩ | ⟨hres, n, isInline, hn, hor, hstays⟩
  · refine ⟨none, .inl ⟨rfl, ?_⟩, fun _ => hstays.pos⟩
    refine ⟨?_, H.size.trans hstays.size.symm, H.append.trans hstays.append.symm,
      H.reading.trans hstays.reading.symm, (hwriting (by simp)).symm, ?_⟩
    · rw [hstays.pos, ← H.pos]
      rfl
    · rw [hstays.isInline, ← H.isInline, ← H.pos, ← H.size]
      rfl
  · obtain rfl : n = 0 := Nat.le_zero.mp hn
    have hwriting : (h.writing || s'.file.writing) = s'.file.writing := by
      rw [H.writing, Bool.or_eq_right_iff_imp]
      exact hstays.writing
    refine ⟨some ⟨⟨res, hres⟩, 0, s'.file.writing⟩, ?_, fun h => by omega⟩
    have hshows : isInline = s.file.isInline → s'.Answers res (h.flushedwrite (cfg.handles hmax)
        (some ⟨⟨res, hres⟩, 0, s'.file.writing⟩) byte) := fun hi =>
      ⟨rfl, H.pos.trans hstays.pos.symm, H.size.trans hstays.size.symm,
        H.append.trans hstays.append.symm, H.reading.trans hstays.reading.symm, hwriting,
        H.isInline.trans (hi.symm.trans hstays.isInline.symm)⟩
    cases hi : s.file.isInline with
    | false => exact .inl (hshows (hor.elim id (·.trans hi.symm)))
    | true =>
      refine .inr ⟨hres, rfl, H.pos.trans hstays.pos.symm, H.size.trans hstays.size.symm,
        H.append.trans hstays.append.symm, H.reading.trans hstays.reading.symm, hwriting, ?_⟩
      exact H.isInline.trans hi

/-! ## Reading -/

/-- A read returns no more bytes than it is asked for. -/
theorem length_readLoop {rawread : RawRead} {rcfg : ReadConfig} {c c' : WriteCache}
    (hread : ∀ b off size bytes, rawread b off size = .ok bytes → bytes.length = size)
    (h : readLoop rcfg rawread written hint block fuel off size c = some (.ok bytes, c')) :
    bytes.length ≤ size := by
  induction fuel generalizing off size c bytes with
  | zero => cases h
  | succ fuel ih =>
    rw [readLoop] at h
    split at h
    · cases h
      exact Nat.zero_le _
    rename_i hsize
    have hpos := Nat.pos_of_ne_zero hsize
    have hkind := readRound_kind rcfg rawread written hint block off c hpos
    split at h
    · cases h
    · exact ih h
    · rename_i copied r hround
      obtain ⟨⟨rest, c''⟩, hrest, heq⟩ := Option.map_eq_some_iff.mp h
      have hcopied : copied.length ≤ size := by
        rw [hround] at hkind
        cases hkind with
        | written _ hhit => exact (WriteCache.lookup_hit hhit hpos).2.1
        | cached hdiff _ hhit =>
          exact (WriteCache.lookup_hit hhit hdiff.1).2.1.trans hdiff.2
        | direct hdiff _ _ _ hok =>
          rw [hread _ _ _ _ hok]
          exact (Nat.sub_le ..).trans hdiff.2
      cases rest with
      | error err => cases heq
      | ok rest =>
        cases heq
        rw [List.length_append]
        have := ih hrest
        omega

theorem bdRead_length (written : Option WriteCache) (hint block offset size : Nat)
    (c : WriteCache) :
    Returns (bdRead cfg w written hint block offset size c) s fun r s' =>
      Same s s' ∧ Fails r.1 ∧ ∀ bytes, r.1 = .ok bytes → bytes.length ≤ size := by
  refine ((Returns.of_keeps (keeps_bdRead ..)).attach).mono fun r s' h => ⟨h.1.1, h.1.2, ?_⟩
  intro bytes hok
  obtain ⟨res, c'⟩ := r
  obtain rfl : res = .ok bytes := hok
  have hread := congrArg Prod.fst h.2
  change cachedRead _ _ _ _ _ _ _ _ _ = _ at hread
  rw [cachedRead] at hread
  split at hread
  · cases hread
  · refine length_readLoop (fun b off size bytes h => ?_) hread
    rw [rawread] at h
    split at h
    · cases h
    · cases h
      exact ByteImage.length_read ..

theorem findBlock_moves (f : File) : Returns (findBlock cfg w f) s fun r s' =>
    Same s s' ∧ Code r.1 ∧ f.Moves r.2 0 ∧ (r.1 = errOk → r.2.reading = true) := by
  refine .ite (fun _ => .ite (fun _ => ?_) fun _ => ?_) fun hc => ?_
  · exact .pure ⟨.refl s, .ok, ⟨rfl, rfl, rfl, rfl, rfl, fun _ => rfl⟩, fun _ => rfl⟩
  · refine .bind (Returns.of_keeps (keeps_ctzFind ..)) fun r s' h => ?_
    obtain ⟨res, c⟩ := r
    cases res with
    | error err =>
      have hneg := h.2 _ rfl
      exact .pure ⟨h.1, .of_neg hneg, ⟨rfl, rfl, rfl, rfl, rfl, id⟩,
        fun h => absurd h (Int.ne_of_lt hneg)⟩
    | ok found =>
      exact .pure ⟨h.1, .ok, ⟨rfl, rfl, rfl, rfl, rfl, fun _ => rfl⟩, fun _ => rfl⟩
  · rw [not_or, Bool.not_eq_false] at hc
    exact .pure ⟨.refl s, .ok, .refl f, fun _ => hc.1⟩

theorem readBlock_length (f : File) (diff : Nat) : Returns (readBlock cfg w f diff) s fun r s' =>
    Same s s' ∧ Fails r.1 ∧
      (f.isInline = false → ∀ bytes, r.1 = .ok bytes → bytes.length ≤ diff) := by
  refine .ite (fun hi => ?_) fun _ =>
    (bdRead_length ..).mono fun r s' h => ⟨h.1, h.2.1, fun _ => h.2.2⟩
  refine (Returns.of_keeps (keeps_dirGetread (P := fun _ => False) id ..)).mono fun r s' h => ?_
  exact ⟨h.1, h.2.2, fun h => absurd (h.symm.trans hi) (by decide)⟩

/-- What a read of so many bytes makes of the file. -/
structure ReadsTo (f : File) (nsize : Nat) (res : Except Int (List UInt8)) (f' : File) : Prop where
  ok : ∀ bytes, res = .ok bytes → f.Moves f' nsize ∧
    f'.reading = (f.reading || decide (0 < nsize)) ∧ (f.isInline = false → bytes.length ≤ nsize)
  error : ∀ err, res = .error err → err < 0 ∧ ∃ n ≤ nsize, f.Moves f' n

theorem flushedreadLoop_readsTo (fuel nsize : Nat) (f : File) :
    Returns (flushedreadLoop cfg w fuel nsize f) s fun r s' =>
      Same s s' ∧ ReadsTo f nsize r.1 r.2 := by
  induction fuel generalizing s nsize f with
  | zero => exact .stop
  | succ fuel ih =>
    refine .ite (fun hsize => ?_) fun hsize => ?_
    · refine .pure ⟨.refl s, fun bytes hok => ?_, fun _ h => (by cases h)⟩
      cases hok
      rw [hsize]
      exact ⟨.refl f, (Bool.or_false _).symm, fun _ => Nat.le_refl _⟩
    have hpos := Nat.pos_of_ne_zero hsize
    refine .bind (findBlock_moves f) fun r s' h => ?_
    obtain ⟨err, f'⟩ := r
    refine .ite (fun herr => .pure ⟨h.1, fun _ h => (by cases h), fun e he => ?_⟩) fun herr => ?_
    · cases he
      exact ⟨h.2.1.neg herr, 0, Nat.zero_le _, h.2.2.1⟩
    refine .bind (readBlock_length f' _) fun r s'' h' => ?_
    obtain ⟨res, c⟩ := r
    have hsame := h.1.trans h'.1
    have hreading := h.2.2.2 (not_not.mp herr)
    cases res with
    | error err =>
      refine .pure ⟨hsame, fun _ h => (by cases h), fun e he => ?_⟩
      cases he
      have hmoves : f.Moves { f' with cache := c } (0 + 0) :=
        h.2.2.1.trans ⟨rfl, rfl, rfl, rfl, rfl, id⟩
      exact ⟨h'.2.1 _ rfl, 0, Nat.zero_le _, hmoves⟩
    | ok bytes =>
      obtain ⟨diff, hdiff⟩ : ∃ diff, min nsize (cfg.blockSize - f'.offset) = diff := ⟨_, rfl⟩
      have hle : diff ≤ nsize := hdiff ▸ Nat.min_le_left ..
      dsimp only at h'
      rw [hdiff] at h' ⊢
      refine .bind (ih ..) fun r s₃ h₃ => ?_
      obtain ⟨rest, f''⟩ := r
      have hmoves : ∀ n, { f' with
          cache := c, pos := f'.pos + diff, offset := f'.offset + diff }.Moves f'' n →
          f.Moves f'' (diff + n) := fun n H => by
        have hmid : f.Moves { f' with
            cache := c, pos := f'.pos + diff, offset := f'.offset + diff } (0 + diff) :=
          h.2.2.1.trans ⟨rfl, rfl, rfl, rfl, rfl, id⟩
        rw [Nat.zero_add] at hmid
        exact hmid.trans H
      refine .pure ⟨hsame.trans h₃.1, fun all hall => ?_, fun e he => ?_⟩
      · cases rest with
        | error err => cases hall
        | ok rest =>
          cases hall
          obtain ⟨H, hread, hlength⟩ := h₃.2.ok rest rfl
          have H' := hmoves _ H
          rw [Nat.add_sub_cancel' hle] at H'
          refine ⟨H', ?_, fun hi => ?_⟩
          · rw [H.reading hreading, decide_eq_true hpos, Bool.or_true]
          · have hi' := h.2.2.1.isInline.trans hi
            have hbytes := h'.2.2 hi' bytes rfl
            have hrest := hlength hi'
            rw [List.length_append]
            omega
      · cases rest with
        | ok rest => cases he
        | error err =>
          cases he
          obtain ⟨hneg, n, hn, H⟩ := h₃.2.error _ rfl
          exact ⟨hneg, diff + n, by omega, hmoves n H⟩

theorem flushedread_readsTo (size : Nat) (f : File) :
    Returns (flushedread cfg w size f) s fun r s' =>
      Same s s' ∧ ReadsTo f (min size (f.size - f.pos)) r.1 r.2 ∧
        (f.size ≤ f.pos → r = (.ok [], f)) := by
  refine .ite (fun hpos => .pure ⟨.refl s, ⟨fun bytes hok => ?_, fun _ h => (by cases h)⟩,
    fun _ => rfl⟩) fun hpos => (flushedreadLoop_readsTo ..).mono fun r s' h =>
      ⟨h.1, h.2, fun h => absurd h hpos⟩
  cases hok
  rw [Nat.sub_eq_zero_of_le hpos, Nat.min_zero]
  exact ⟨.refl f, (Bool.or_false _).symm, fun _ => Nat.le_refl _⟩

/-- **A read** moves the handle on. -/
theorem flushedread_answers (H : f.Shows h) (size : Nat) :
    Returns (flushedread cfg w size f) s fun r s' =>
      Same s s' ∧ ∃ fault, r.2.Shows (h.flushedread fault size).2 ∧
        (∀ err, r.1 = .error err → err < 0 ∧ (h.flushedread fault size).1 = err) ∧
        (∀ bytes, r.1 = .ok bytes → 0 ≤ (h.flushedread fault size).1) := by
  refine (flushedread_readsTo size f).mono fun r s' hr => ⟨hr.1, ?_⟩
  obtain ⟨res, f'⟩ := r
  obtain ⟨-, hread, hend⟩ := hr
  by_cases hpos : f.size ≤ f.pos
  · cases hend hpos
    have hnone : h.flushedread none size = (errOk, h) :=
      if_pos (by rw [H.pos, H.size]; exact hpos)
    refine ⟨none, ?_⟩
    rw [hnone]
    exact ⟨H, fun _ h => (by cases h), fun _ _ => Int.le_refl 0⟩
  have hnot : ¬ h.pos ≥ h.size := by
    rw [H.pos, H.size]
    exact hpos
  have hmoved : ∀ n reading, f.Moves f' n → reading = f'.reading →
      f'.Shows { h with pos := h.pos + n, reading } := fun n reading M hr =>
    ⟨by rw [M.pos, ← H.pos], H.size.trans M.size.symm, H.append.trans M.append.symm, hr,
      H.writing.trans M.writing.symm, H.isInline.trans M.isInline.symm⟩
  rw [← H.size, ← H.pos] at hread
  cases res with
  | ok bytes =>
    obtain ⟨M, hreading, -⟩ := hread.ok bytes rfl
    refine ⟨none, ?_⟩
    rw [FileHandle.flushedread, if_neg hnot]
    refine ⟨hmoved _ _ M ?_, fun _ h => (by cases h), fun _ _ => Int.natCast_nonneg _⟩
    rw [hreading, H.reading]
  | error err =>
    obtain ⟨hneg, n, hn, M⟩ := hread.error err rfl
    refine ⟨some ⟨⟨err, hneg⟩, n, f'.reading⟩, ?_⟩
    rw [FileHandle.flushedread, if_neg hnot]
    refine ⟨?_, fun e he => ?_, fun _ h => (by cases h)⟩
    · dsimp only
      rw [Nat.min_eq_left hn]
      refine hmoved _ _ M ?_
      rw [H.reading, Bool.or_eq_right_iff_imp]
      exact M.reading
    · cases he
      exact ⟨hneg, rfl⟩

/-! ## Flushing -/

theorem readOrig_length (orig : File) (hi : orig.isInline = false) :
    Returns (readOrig cfg w orig) s fun r s' => Same s s' ∧ Fails r.1 ∧
      r.2.isInline = false ∧ ∀ data, r.1 = .ok data → data.length ≤ 1 := by
  refine .get_bind (.bind (flushedread_readsTo ..) fun r s' h => ?_)
  obtain ⟨res, orig'⟩ := r
  have hsame : Same s (s'.setRead { s'.readCache with buffer := orig'.cache.buffer }) :=
    ⟨h.1.file, h.1.writeCache⟩
  refine .modify_bind id (.pure ⟨hsame, fun err he => ?_, ?_, fun data hd => ?_⟩)
  · exact (h.2.1.error err he).1
  · cases res with
    | ok bytes => exact (h.2.1.ok bytes rfl).1.isInline.trans hi
    | error err =>
      obtain ⟨-, n, -, M⟩ := h.2.1.error err rfl
      exact M.isInline.trans hi
  · exact ((h.2.1.ok data hd).2.2 hi).trans (Nat.min_le_left ..)

/-- The position has moved within what is behind it, as far as that goes. -/
def File.CopiesTo (f f' : File) (err : Int) : Prop :=
  ∃ pos, f.pos ≤ pos ∧ pos ≤ max f.pos f.size ∧ (err = errOk → pos = max f.pos f.size) ∧
    { f with pos }.Stays f'

theorem flushCopy_copiesTo (fuel : Nat) (orig : File) (hi : orig.isInline = false)
    (hinline : s.file.isInline = false) :
    Returns (flushCopy cfg w fuel orig) s fun err s' =>
      Code err ∧ s.file.CopiesTo s'.file err := by
  induction fuel generalizing s orig with
  | zero => exact .stop
  | succ fuel ih =>
    refine .get_bind (.ite (fun hpos => ?_) fun hpos => .pure ⟨.ok, s.file.pos, ?_⟩)
    · refine .bind (readOrig_length orig hi) fun r s' h => ?_
      obtain ⟨res, orig'⟩ := r
      have hfile : s'.file = s.file := h.1.file
      cases res with
      | error err =>
        have hneg := h.2.1 _ rfl
        refine .pure ⟨.of_neg hneg, s.file.pos, Nat.le_refl _, Nat.le_max_left .., fun h => ?_, ?_⟩
        · exact absurd h (Int.ne_of_lt hneg)
        · exact hfile ▸ .refl _
      | ok data =>
        have hdata := h.2.2.2 data rfl
        refine .bind (flushedwrite_stays data) fun res s'' h' => ?_
        rw [hfile, hinline, Bool.false_and] at h'
        have hnext : ∀ n, { s.file with pos := s.file.pos + n, isInline := false }.Stays s''.file →
            { s.file with pos := s.file.pos + n }.Stays s''.file := fun n H =>
          ⟨H.pos, H.size, H.append, H.reading, H.isInline.trans hinline.symm, H.writing⟩
        rcases h' with ⟨rfl, H, -⟩ | ⟨hneg, n, isInline, hn, hor, H⟩
        · have H' := hnext _ H
          have hagain : ∀ orig'' : File, orig''.isInline = false → ∀ s₃ : State,
              s₃.file = s''.file → Returns (flushCopy cfg w fuel orig'') s₃ fun err s' =>
                Code err ∧ s.file.CopiesTo s'.file err := fun orig'' hi' s₃ h₃ => by
            refine (ih orig'' hi' (h₃ ▸ H'.isInline.trans hinline)).mono fun err s₄ h₄ => ?_
            obtain ⟨pos, hlo, hhi, hok, Hpos⟩ := h₄.2
            rw [h₃] at hlo hhi hok Hpos
            rw [H'.pos, H'.size] at hhi hok
            rw [H'.pos] at hlo
            dsimp only at hlo hhi hok
            refine ⟨h₄.1, pos, by omega, by omega, fun herr => ?_, ?_⟩
            · have := hok herr
              omega
            · exact ⟨Hpos.pos, Hpos.size.trans H'.size, Hpos.append.trans H'.append,
                Hpos.reading.trans H'.reading, Hpos.isInline.trans H'.isInline,
                fun hw => Hpos.writing (H'.writing hw)⟩
          refine .ite (fun h => by omega) fun _ => .get_bind (.ite (fun _ => ?_) fun _ => ?_)
          · exact .modify_bind id (hagain { orig' with cache := orig'.cache.drop } h.2.2.1 _ rfl)
          · exact hagain _ h.2.2.1 _ rfl
        · obtain rfl : n = 0 := by omega
          obtain rfl : isInline = false := hor.elim id id
          refine .ite (fun _ => .pure ⟨.of_neg hneg, s.file.pos, Nat.le_refl _, Nat.le_max_left ..,
            fun h => absurd h (Int.ne_of_lt hneg), hnext 0 H⟩) fun h => absurd hneg h
    · have hmax : max s.file.pos s.file.size = s.file.pos := by omega
      exact ⟨Nat.le_refl _, Nat.le_max_left .., fun _ => hmax.symm, .refl _⟩

theorem flushOut_stays (fuel : Nat) : Returns (flushOut cfg w fuel) s fun err s' =>
    Code err ∧ s.file.Stays s'.file := by
  induction fuel generalizing s with
  | zero => exact .stop
  | succ fuel ih =>
    refine .bind (Returns.of_keeps (keeps_bdFlush .file fun _ _ => id)) fun err s' h => ?_
    have hstays : s.file.Stays s'.file := .of_cache h.1.file
    refine .ite (fun _ => ?_) fun _ => .pure ⟨h.2.2, hstays⟩
    refine .bind (relocate_stays _) fun err s'' h' => ?_
    have hstays' := hstays.trans h'.2.1
    exact .ite (fun _ => .pure ⟨h'.1, hstays'⟩) fun _ => ih.mono fun err s₃ h₃ =>
      ⟨h₃.1, hstays'.trans h₃.2⟩

theorem flushBlocks_copiesTo (hinline : s.file.isInline = false) :
    Returns (flushBlocks cfg w) s fun err s' => Code err ∧ s.file.CopiesTo s'.file err := by
  refine .get_bind (.modify_bind id (.bind (flushCopy_copiesTo _ _ rfl hinline) ?_))
  intro err s' h
  refine .ite (fun _ => .pure h) fun hneg => (flushOut_stays _).mono fun err' s'' h' => ⟨h'.1, ?_⟩
  have herr : err = errOk := h.1.resolve_right hneg
  obtain ⟨pos, hlo, hhi, hok, H⟩ := h.2
  exact ⟨pos, hlo, hhi, fun _ => hok herr, H.trans h'.2⟩

/-- **A flush.** -/
theorem flush_answers (H : s.file.Shows h) : Returns (flush cfg w) s fun err s' =>
    Code err ∧ ∃ fault, s'.Answers err (h.flush fault) := by
  obtain ⟨g, hg⟩ : ∃ g, s.file.dropReads = g := ⟨_, rfl⟩
  have Hg : g.Shows { h with reading := false } := by
    rw [← hg, File.dropReads]
    split
    · exact ⟨H.pos, H.size, H.append, rfl, H.writing, H.isInline⟩
    · rename_i hr
      exact ⟨H.pos, H.size, H.append, (Bool.eq_false_of_not_eq_true hr).symm, H.writing,
        H.isInline⟩
  refine .modify_bind id (.get_bind ?_)
  rw [State.modFile, hg]
  refine .ite (fun hwriting => ?_) fun hwriting => .pure ⟨.ok, none, ?_⟩
  · have hw : h.writing = true := Hg.writing.trans hwriting
    refine .bind (Q := fun err s' => Code err ∧
      ((err = errOk ∧ s'.file.pos = max g.pos g.size ∨ err ≠ errOk ∧ g.isInline = false) ∧
        g.CopiesTo s'.file err)) (.get_bind (.ite (fun hi => ?_) fun hi => ?_)) fun err s' h' => ?_
    · refine .modify_bind id (.pure ⟨.ok, .inl ⟨rfl, rfl⟩, max g.pos g.size, ?_⟩)
      exact ⟨Nat.le_max_left .., Nat.le_refl _, fun _ => rfl, rfl, rfl, rfl, rfl, rfl, id⟩
    · have hi' : g.isInline = false := Bool.eq_false_of_not_eq_true hi
      refine (flushBlocks_copiesTo hi').mono fun err s' h' => ⟨h'.1, ?_, h'.2⟩
      obtain ⟨pos, -, -, hok, M⟩ := h'.2
      by_cases herr : err = errOk
      · exact .inl ⟨herr, M.pos.trans (hok herr)⟩
      · exact .inr ⟨herr, hi'⟩
    · obtain ⟨pos, hlo, hhi, -, M⟩ := h'.2.2
      refine .ite (fun herr => .pure ⟨h'.1, ?_⟩) fun herr => .modify_bind id (.pure ⟨.ok, none, ?_⟩)
      · have hneg := h'.1.neg herr
        have hi := (h'.2.1.resolve_left fun h => herr h.1).2
        refine ⟨some ⟨⟨err, hneg⟩, pos - g.pos, false⟩, ?_⟩
        rw [FileHandle.flush, if_pos hw, if_neg (by rw [Hg.isInline, hi]; decide)]
        refine ⟨rfl, ?_, Hg.size.trans M.size.symm, Hg.append.trans M.append.symm,
          Hg.reading.trans M.reading.symm, hw.trans (M.writing hwriting).symm,
          Hg.isInline.trans M.isInline.symm⟩
        have hp := Hg.pos
        have hs := Hg.size
        dsimp only at hp hs
        change h.pos + min (pos - g.pos) (h.size - h.pos) = s'.file.pos
        rw [M.pos, hp, hs]
        dsimp only
        omega
      · have hpos := (h'.2.1.resolve_right fun h => h.1 (not_not.mp herr)).2
        have hend : (h.flush none) = (errOk, { h with
            reading := false, size := max h.pos h.size, writing := false }) := by
          rw [FileHandle.flush, if_pos hw]
          exact ite_self _
        rw [hend]
        refine ⟨rfl, Hg.pos, ?_, Hg.append.trans M.append.symm, Hg.reading.trans M.reading.symm,
          rfl, Hg.isInline.trans M.isInline.symm⟩
        change max h.pos h.size = s'.file.pos
        rw [hpos, ← Hg.pos, ← Hg.size]
  · rw [FileHandle.flush, if_neg (by rw [Hg.writing]; exact hwriting)]
    exact ⟨rfl, Hg⟩

/-! ## Seeking -/

theorem seekTo_answers (H : s.file.Shows h) (npos : Nat) :
    Returns (seekTo cfg w npos) s fun res s' =>
      ∃ io, s'.Answers res (h.seekTo (cfg.handles hmax) io npos) := by
  have heq : ∀ io, h.seekTo (cfg.handles hmax) io npos =
      if npos > cfg.fileMaxSize then (errInval, h)
      else if s.file.pos = npos then ((npos : Int), h)
      else if s.file.writing = false ∧ io.cached then ((npos : Int), h.setPos npos)
      else if (h.flush io.flush).1 ≠ errOk then h.flush io.flush
      else ((npos : Int), (h.flush io.flush).2.setPos npos) := fun io => by
    rw [FileHandle.seekTo, H.pos, H.writing]
    rfl
  simp only [heq]
  refine .get_bind (.ite (fun hlarge => .pure ⟨{}, ?_⟩) fun hlarge => .ite (fun hpos => ?_)
    fun hpos => .ite (fun hc => ?_) fun hc => ?_)
  · rw [if_pos hlarge]
    exact ⟨rfl, H⟩
  · refine .pure ⟨{}, ?_⟩
    rw [if_neg hlarge, if_pos hpos]
    exact ⟨rfl, H⟩
  · refine .modify_bind id (.pure ⟨{ cached := true }, ?_⟩)
    rw [if_neg hlarge, if_neg hpos, if_pos ⟨hc.1, rfl⟩]
    exact ⟨rfl, rfl, H.size, H.append, H.reading, H.writing, H.isInline⟩
  · refine .bind (flush_answers H) fun err s' h' => ?_
    obtain ⟨-, fault, hflush⟩ := h'
    have hio : ∀ P : Prop, ¬ (P ∧ ({ flush := fault } : SeekIo).cached = true) :=
      fun _ h => by cases h.2
    refine .ite (fun herr => .pure ⟨{ flush := fault }, ?_⟩) fun herr =>
      .modify_bind id (.pure ⟨{ flush := fault }, ?_⟩)
    · rw [if_neg hlarge, if_neg hpos, if_neg (hio _), if_pos (by rwa [hflush.res])]
      exact hflush
    · rw [if_neg hlarge, if_neg hpos, if_neg (hio _), if_neg (by rwa [hflush.res])]
      have M := hflush.shows
      exact ⟨rfl, rfl, M.size, M.append, M.reading, M.writing, M.isInline⟩

theorem File.Shows.rawsize (H : f.Shows h) : h.rawsize = f.rawsize := by
  rw [FileHandle.rawsize, File.rawsize, H.pos, H.size, H.writing]

/-- **A seek.** -/
theorem rawseek_answers (H : s.file.Shows h) (offset : Int) (whence : Whence) :
    Returns (rawseek cfg w offset whence) s fun res s' =>
      ∃ io, s'.Answers res (h.rawseek (cfg.handles hmax) io offset whence) := by
  have heq : ∀ io, h.rawseek (cfg.handles hmax) io offset whence =
      if s.file.seekBase whence + offset < 0 then (errInval, h)
      else h.seekTo (cfg.handles hmax) io (s.file.seekBase whence + offset).toNat := fun io => by
    cases whence with
    | set =>
      rw [FileHandle.rawseek, File.seekBase]
      simp only [Int.natCast_zero, Int.zero_add]
    | cur => rw [FileHandle.rawseek, H.pos]; rfl
    | fromEnd => rw [FileHandle.rawseek, H.rawsize]; rfl
  simp only [heq]
  refine .get_bind (.ite (fun hneg => .pure ⟨{}, ?_⟩) fun hneg =>
    (seekTo_answers hmax H _).mono fun res s' h' => ?_)
  · rw [if_pos hneg]
    exact ⟨rfl, H⟩
  · obtain ⟨io, h'⟩ := h'
    refine ⟨io, ?_⟩
    rwa [if_neg hneg]

end FileIo

end LittleFs
