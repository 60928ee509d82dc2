import LittleFs.FileContent

/-! Whole sessions on a file that is not inline: writes, reads, seeks, truncations and flushes do to
the handle what they do to bytes and a position, although blocks turn out to be bad at any time, and
what a flush has stored is on the device.

A session ends with the first call that fails. A seek that keeps the block at whose end a read has
stopped is left out, and so is a truncation that makes the file inline. -/

namespace LittleFs

open BitCount SkipList ZeroFill
open StateLogic StateLogic.Prog
open FileHandle (Whence)

namespace FileIo

/-! ## Sessions -/

inductive Answer where
  | wrote (size : Nat)
  | bytes (bytes : List UInt8)
  | position (pos : Nat)
  | done
  deriving DecidableEq

/-- A result that is negative is an error. -/
def answerOf (res : Int) (a : Nat → Answer) : Except Int Answer :=
  if res < 0 then .error res else .ok (a res.toNat)

def answer (cfg : Config) (w : World) : Call → FileM (Except Int Answer)
  | .write bytes => do
    let res ← rawwrite cfg w bytes
    return answerOf res .wrote
  | .read size => do
    let res ← rawreadFile cfg w size
    return res.map .bytes
  | .seek offset whence => do
    let res ← rawseek cfg w offset whence
    return answerOf res .position
  | .truncate size => do
    let res ← rawtruncate cfg w size
    return answerOf res fun _ => .done
  | .flush => do
    let res ← flush cfg w
    return answerOf res fun _ => .done

/-- The answers of the calls that succeed, up to the first one that fails, and its error. -/
def session (cfg : Config) (w : World) : List Call → FileM (List Answer × Int)
  | [] => return ([], errOk)
  | c :: calls => do
    match ← answer cfg w c with
    | .error err => return ([], err)
    | .ok a => do
      let (answers, err) ← session cfg w calls
      return (a :: answers, err)

/-! ## What they are for -/

/-- The bytes of a file and a position in them. -/
structure Content where
  bytes : List UInt8
  pos : Nat
  append : Bool
  deriving DecidableEq

/-- A call on the bytes; none where it is refused. -/
def Content.call (maxSize : Nat) (c : Content) : Call → Option (Answer × Content)
  | .write bytes =>
    let pos := if c.append ∧ c.pos < c.bytes.length then c.bytes.length else c.pos
    if maxSize < pos + bytes.length then none
    else some (.wrote bytes.length,
      { c with bytes := writeAt 0 c.bytes pos bytes, pos := pos + bytes.length })
  | .read size =>
    some (.bytes (slice c.bytes c.pos size),
      { c with pos := c.pos + min size (c.bytes.length - c.pos) })
  | .seek offset whence =>
    let target := seekBase c.pos c.bytes.length whence + offset
    if target < 0 ∨ maxSize < target then none
    else some (.position target.toNat, { c with pos := target.toNat })
  | .truncate size =>
    if maxSize < size then none
    else some (.done, { c with bytes := ZeroFill.resize 0 c.bytes size })
  | .flush => some (.done, c)

/-- The answers of the calls up to the first one that is refused, and the bytes then. -/
def Content.session (maxSize : Nat) : List Call → Content → List Answer × Content
  | [], c => ([], c)
  | call :: calls, c =>
    match c.call maxSize call with
    | none => ([], c)
    | some (a, c) => (a :: (Content.session maxSize calls c).1, (Content.session maxSize calls c).2)

/-- The position or the end, whichever is behind the other. -/
def Content.extent (c : Content) : Nat := max c.pos c.bytes.length

/-- How far a call gets that is refused: a truncation fills the file up to the greatest size before
it is, unless the size is over `LFS_FILE_MAX`. -/
def Call.overrun (maxSize : Nat) : Call → Nat
  | .truncate size => if fileMax < size then 0 else maxSize
  | _ => 0

/-- The farthest position of the calls up to the first one that is refused. -/
def Content.farthest (maxSize : Nat) : List Call → Content → Nat
  | [], c => c.extent
  | call :: calls, c => max c.extent (match c.call maxSize call with
    | none => call.overrun maxSize
    | some (_, c) => Content.farthest maxSize calls c)

/-! ## The calls that are left out -/

/-- A seek keeps the block at whose end a read has stopped. -/
def File.SlipsTo (cfg : Config) (f : File) (npos : Nat) : Prop :=
  f.writing = false ∧ f.reading = true ∧ f.offset = cfg.blockSize ∧ f.pos < f.size ∧
    f.pos ≠ npos ∧ npos ≤ cfg.fileMaxSize ∧ f.StaysCached cfg npos

/-- No seek of the call slips, and the file does not become inline. -/
def File.Plain (cfg : Config) (f : File) : Call → Prop
  | .seek offset whence =>
    ∀ npos : Nat, (npos : Int) = f.seekBase whence + offset → ¬ f.SlipsTo cfg npos
  | .truncate size =>
    (size < f.rawsize → cfg.inlineMax cfg.cfgBlockSize 8 < size) ∧
      (f.rawsize < size → ¬ f.SlipsTo cfg f.rawsize)
  | _ => True

/-- Each call of the session meets a handle for which it is plain. -/
def PlainSession (cfg : Config) (w : World) : List Call → State → Prop
  | [], _ => True
  | c :: calls, s => s.file.Plain cfg c ∧
      ∀ a s', answer cfg w c s = (some (.ok a), s') → PlainSession cfg w calls s'

/-- Between two calls the handle holds the bytes and is at the position. -/
structure State.Stands (cfg : Config) (P : Nat → Prop) (c : Content) (s : State) : Prop where
  holds : s.Holds cfg P c.bytes
  pos : s.file.pos = c.pos
  append : s.file.append = c.append
  indexes : cfg.Indexes c.pos

/-- A call has brought the handle there. -/
structure Reaches (cfg : Config) (P : Nat → Prop) (s : State) (c : Content) (s' : State) : Prop
    extends State.Stands cfg P c s' where
  follows : Follows s s'

variable {cfg : Config} {w : World} {A : File → (Nat → ByteImage.Image) → Prop}
  {P : Nat → Prop} {full content bytes : List UInt8} {old addr : Nat → Nat} {c : Content}
  {npos pos i k off n : Nat}
  {s s' s'' : State} {f f' : File}

theorem State.Stands.reaches (H : s.Stands cfg P c) : Reaches cfg P s c s := ⟨H, .refl s⟩

theorem Reaches.after (H : Reaches cfg P s' c s'') (h : Follows s s') : Reaches cfg P s c s'' :=
  ⟨H.toStands, h.trans H.follows⟩

/-! ## Positions -/

/-- The position of a handle that neither reads nor writes. -/
theorem Idle.setPos (H : Idle cfg P full old s) (hreading : s.file.reading = false) (pos : Nat) :
    Idle cfg P full old (s.modFile fun f => { f with pos }) where
  writing := H.writing
  isInline := H.isInline
  shared := H.shared
  stored := ⟨H.stored.size, H.stored.head, H.stored.lists, H.stored.length, H.stored.agrees,
    H.stored.visible⟩
  cache := H.cache
  dropped := H.dropped
  placed h := absurd (hreading.symm.trans h) Bool.false_ne_true

/-- A position in the block of the old one. -/
theorem Idle.stay (H : Idle cfg P full old s)
    (hindex : ctzIndex cfg.blockSize npos = (i, off))
    (hstay : (ctzIndex cfg.blockSize s.file.pos).1 = i)
    (hplain : s.file.reading = true → s.file.offset = cfg.blockSize → s.file.size ≤ s.file.pos)
    (hmax : cfg.Indexes npos) :
    Idle cfg P full old (s.modFile fun f => { f with pos := npos, offset := off }) where
  writing := H.writing
  isInline := H.isInline
  shared := H.shared
  stored := ⟨H.stored.size, H.stored.head, H.stored.lists, H.stored.length, H.stored.agrees,
    H.stored.visible⟩
  cache := H.cache
  dropped := H.dropped
  placed hreading := by
    have hnext : (ctzIndex cfg.blockSize npos).1 = i := by rw [hindex]
    cases H.placed hreading with
    | inBlock hi hat hblock =>
      exact .inBlock hi (hnext.trans (hstay.symm.trans hat)) hblock fun _ => by
        change (ctzIndex cfg.blockSize npos).2 = off
        rw [hindex]
    | atEnd hend hpos => exact absurd (hplain hreading hend) (Nat.not_le.mpr hpos)
    | behind hpos hout =>
      rw [hstay, ← hnext] at hout
      refine .behind (Nat.le_of_not_lt fun hlt => ?_) hout
      have hlt : npos < s.file.size := hlt
      have hsize := H.stored.size
      have hlast := (H.stored.length.exact (s.file.size - 1) (by omega)).lt
      have hle := (hmax.exact npos (Nat.le_refl _)).index_le (Nat.lt_of_le_of_lt (by omega) hlast)
      exact Nat.not_lt.mpr hle hout

theorem State.Holds.idle_of (H : s.Holds cfg P bytes) (hwriting : s.file.writing = false) :
    ∃ old, Idle cfg P bytes old s := by
  cases H with
  | idle old H => exact ⟨old, H⟩
  | busy full old content k addr H => cases H.writing.symm.trans hwriting

/-- **A seek** to a position that is known. -/
theorem State.Stands.seekTo (H : s.Stands cfg P c) (Hcfg : cfg.Fits) (hlong : 256 < cfg.cacheSize)
    (hw : w.ProgramsLocal) (ha : w.Allocates cfg P) (hplain : ¬ s.file.SlipsTo cfg npos)
    (hreach : npos ≤ cfg.fileMaxSize → cfg.Indexes npos) :
    Keeps (Allocs (SeesLists cfg)) (seekTo cfg w npos) s fun res s' => res < 0 ∨
      res = npos ∧ npos ≤ cfg.fileMaxSize ∧ Reaches cfg P s { c with pos := npos } s' := by
  refine .get_bind (.ite (fun _ => .pure (.inl (by decide))) fun hmax => ?_)
  have hmax := Nat.le_of_not_lt hmax
  have hat := hreach hmax
  refine .ite (fun hsame => .pure (.inr ⟨rfl, hmax, ⟨H.holds, hsame, H.append, hat⟩, .refl s⟩))
    fun hne => ?_
  refine .ite (fun hstay => ?_) fun _ => ?_
  · obtain ⟨hwriting, hstay⟩ := hstay
    obtain ⟨old, Hi⟩ := H.holds.idle_of hwriting
    have hplain : s.file.reading = true → s.file.offset = cfg.blockSize →
        s.file.size ≤ s.file.pos := fun hreading hend =>
      Nat.le_of_not_lt fun hpos => hplain ⟨hwriting, hreading, hend, hpos, hne, hmax, hstay⟩
    have hblock := hstay.1
    obtain ⟨⟨i, off⟩, hindex⟩ : ∃ place, ctzIndex cfg.blockSize npos = place := ⟨_, rfl⟩
    rw [hindex] at hblock ⊢
    refine .modify_bind (fun HA => HA.of_events rfl) (.pure (.inr ⟨rfl, hmax, ?_⟩))
    exact ⟨⟨.idle old (Hi.stay hindex hblock hplain hat), rfl, H.append, hat⟩,
      rfl, id, fun h => ⟨h, rfl, rfl⟩⟩
  · refine .bind (H.holds.flush Hcfg hlong hw ha) fun err s₁ h => ?_
    obtain ⟨hcode, hok⟩ := h
    refine .ite (fun herr => .pure (.inl (hcode.neg herr))) fun herr => ?_
    obtain ⟨⟨old, Hi⟩, hreading, -, hfollows⟩ := hok (not_not.mp herr)
    refine .modify_bind (fun HA => HA.of_events rfl) (.pure (.inr ⟨rfl, hmax, ?_⟩))
    exact ⟨⟨.idle old (Hi.setPos hreading npos), rfl, hfollows.append.trans H.append, hat⟩,
      hfollows.trans ⟨rfl, id, fun h => ⟨h, rfl, rfl⟩⟩⟩

/-- The end of the file. -/
theorem State.Holds.rawsize (H : s.Holds cfg P bytes) : s.file.rawsize = bytes.length := by
  cases H with
  | idle old H =>
    rw [File.rawsize, if_neg (by rw [H.writing]; exact Bool.false_ne_true)]
    exact H.stored.size
  | busy full old content k addr H hlast hbytes =>
    have hpos := H.pos
    have hsize := H.stored.size
    rw [File.rawsize, if_pos H.writing, hbytes, List.length_append, List.length_drop]
    omega

theorem State.Stands.seekBase (H : s.Stands cfg P c) (whence : Whence) :
    s.file.seekBase whence = LittleFs.seekBase c.pos c.bytes.length whence := by
  cases whence with
  | set => rfl
  | cur => exact H.pos
  | fromEnd => exact H.holds.rawsize

/-- **A seek.** -/
theorem State.Stands.rawseek (H : s.Stands cfg P c) (Hcfg : cfg.Fits) (hlong : 256 < cfg.cacheSize)
    (hw : w.ProgramsLocal) (ha : w.Allocates cfg P) {offset : Int} {whence : Whence}
    (hplain : s.file.Plain cfg (.seek offset whence))
    (hreach : ∀ npos : Nat, (npos : Int) = LittleFs.seekBase c.pos c.bytes.length whence + offset →
      npos ≤ cfg.fileMaxSize → cfg.Indexes npos) :
    Keeps (Allocs (SeesLists cfg)) (rawseek cfg w offset whence) s fun res s' => res < 0 ∨
      ∃ npos : Nat, res = npos ∧ (npos : Int) =
        LittleFs.seekBase c.pos c.bytes.length whence + offset ∧
        npos ≤ cfg.fileMaxSize ∧ Reaches cfg P s { c with pos := npos } s' := by
  refine .get_bind (.ite (fun _ => .pure (.inl (by decide))) fun hneg => ?_)
  have hnpos := Int.toNat_of_nonneg (Int.not_lt.mp hneg)
  have htarget : ((s.file.seekBase whence + offset).toNat : Int) =
      LittleFs.seekBase c.pos c.bytes.length whence + offset := by rw [hnpos, H.seekBase]
  exact .mono (H.seekTo Hcfg hlong hw ha (hplain _ hnpos) (hreach _ htarget)) fun res s' h =>
    h.imp id fun h => ⟨_, h.1, htarget, h.2⟩

theorem State.Stands.length (H : s.Stands cfg P c) : cfg.Indexes c.bytes.length := by
  cases H.holds with
  | idle old Hi => exact Hi.stored.length
  | busy full old content k addr Hb hlast hbytes =>
    refine (Hb.stored.length.max Hb.length).mono ?_
    rw [hbytes, List.length_append, List.length_drop]
    omega

/-! ## Reads -/

theorem Idle.reader (H : Idle cfg P full old s) : Reader cfg full old s s.file :=
  ⟨H.isInline, rfl, rfl, H.cache, H.placed⟩

/-- The handle after a read. -/
theorem Idle.of_read (H : Idle cfg P full old s)
    (h : ReadsOut cfg full old n s.file s (.ok bytes, f') s') :
    Idle cfg P full old (s'.setFile f') := by
  obtain ⟨-, -, Hr⟩ := h.done bytes rfl
  have honly := h.time.onlyReads
  have hkept := h.time.kept (fun _ => True)
  have hsame : SameEntry s.file f' := h.same
  exact {
    writing := by
      rw [hsame]
      exact H.writing
    isInline := Hr.isInline
    shared := by
      change s'.writeCache.block = none
      rw [honly.writeCache]
      exact H.shared
    stored := H.stored.kept ⟨hkept.disk, hkept.readCache⟩ (fun _ _ => trivial) hsame.head
      hsame.size (by rw [State.setFile, hsame])
    cache := by
      change CacheOn cfg _ s'.disk f'.cache
      rw [honly.disk]
      exact Hr.cache
    dropped := fun hreading => by
      have hreading : f'.reading = false := hreading
      rcases h.begun with hbegun | ⟨-, heq⟩ | ⟨err, herr⟩
      · cases hreading.symm.trans hbegun
      · obtain rfl : f' = s.file := heq
        exact H.dropped hreading
      · cases herr
    placed := Hr.placed }

/-- **A read.** -/
theorem State.Stands.rawreadFile (H : s.Stands cfg P c) (Hcfg : cfg.Fits)
    (hlong : 256 < cfg.cacheSize) (hw : w.ProgramsLocal) (ha : w.Allocates cfg P) (n : Nat) :
    Keeps (Allocs (SeesLists cfg)) (rawreadFile cfg w n) s fun res s' => Fails res ∧
      ∀ bytes, res = .ok bytes → bytes = slice c.bytes c.pos n ∧
        Reaches cfg P s { c with pos := c.pos + min n (c.bytes.length - c.pos) } s' := by
  refine .get_bind (.bind (Q := fun err s' => Code err ∧ (err = errOk →
    ∃ old, Idle cfg P c.bytes old s' ∧ s'.file.pos = c.pos ∧ Follows s s'))
    (.ite (fun _ => ?_) fun hwriting => ?_) fun err s₁ h => ?_)
  · refine .mono (H.holds.flush Hcfg hlong hw ha) fun err s' h => ⟨h.1, fun herr => ?_⟩
    obtain ⟨⟨old, Hi⟩, -, hpos, hfollows⟩ := h.2 herr
    exact ⟨old, Hi, hpos.trans H.pos, hfollows⟩
  · obtain ⟨old, Hi⟩ := H.holds.idle_of (Bool.not_eq_true _ ▸ hwriting)
    exact .pure ⟨.ok, fun _ => ⟨old, Hi, H.pos, .refl s⟩⟩
  obtain ⟨hcode, hok⟩ := h
  refine .ite (fun herr => .pure ⟨.error (hcode.neg herr), fun _ h => ?_⟩) fun herr => ?_
  · cases h
  obtain ⟨old, Hi, hpos, hfollows⟩ := hok (not_not.mp herr)
  refine .get_bind (.bind (flushedread_spec Hcfg Hi.stored Hi.reader n) fun r s₂ h => ?_)
  obtain ⟨res, f'⟩ := r
  refine .modify_bind (fun HA => HA.of_events rfl) (.pure ⟨h.fails, fun bytes hres => ?_⟩)
  subst hres
  obtain ⟨hbytes, hpos', -⟩ := h.done bytes rfl
  rw [hpos] at hbytes hpos'
  have hread : Follows s₁ (s₂.setFile f') := .of_sameEntry h.same
  refine ⟨hbytes.trans slice_min, ⟨.idle old (Hi.of_read h), hpos', ?_, ?_⟩,
    hfollows.trans hread⟩
  · exact hread.append.trans (hfollows.append.trans H.append)
  · refine (H.indexes.max H.length).mono ?_
    dsimp only
    omega

/-! ## Writes -/

/-- A handle that holds what was written and the rest of the old bytes. -/
theorem Writes.holds (H : Writes cfg P full old content s) :
    s.Holds cfg P (content ++ full.drop content.length) := by
  cases H with
  | starting H =>
    have hcontent : content ++ full.drop content.length = full :=
      calc content ++ full.drop content.length
        _ = full.take content.length ++ full.drop content.length := by rw [← H.content]
        _ = full := List.take_append_drop ..
    rw [hcontent]
    exact .idle old {
      writing := H.writing
      isInline := H.isInline
      shared := H.shared
      stored := H.stored
      cache := .empty H.cache
      dropped := fun _ => H.cache
      placed := fun h => absurd (H.reading.symm.trans h) Bool.false_ne_true }
  | busy k addr H hlast => exact .busy full old content k addr H hlast rfl

/-- The loop that fills with zeros. -/
theorem Writes.fillZeros (H : Writes cfg P full old content s) (Hcfg : cfg.Fits)
    (hw : w.ProgramsLocal) (ha : w.Allocates cfg P) (hmax : cfg.Indexes pos) (fuel : Nat) :
    Keeps (Allocs (SeesLists cfg)) (fillZeros cfg w pos fuel) s fun res s' => res < 0 ∨
      Writes cfg P full old (content ++ List.replicate (pos - content.length) 0) s' ∧
        Onward cfg (ListBlock cfg full old) s s' := by
  induction fuel generalizing s content with
  | zero => exact .stop
  | succ fuel ih =>
    have hat := H.writer.pos
    refine .get_bind (.ite (fun hlt => ?_) fun hge => ?_)
    · have hroom : cfg.Indexes (content.length + [(0 : UInt8)].length) := hmax.mono (by
        rw [List.length_singleton]
        omega)
      refine .bind (H.flushedwrite Hcfg hw ha hroom) fun res s₁ h => ?_
      refine .ite (fun hneg => .pure (.inl hneg)) fun hnot => ?_
      obtain ⟨-, H₁, honward⟩ := h.resolve_left hnot
      refine .mono (ih H₁) fun res s' h => h.imp id fun h => ⟨?_, honward.trans h.2⟩
      have hzeros : pos - content.length = 1 + (pos - (content.length + 1)) := by omega
      rw [hzeros, List.replicate_add, ← List.append_assoc]
      have h := h.1
      rwa [List.length_append] at h
    · have hzero : pos - content.length = 0 := by omega
      rw [hzero, List.replicate_zero, List.append_nil]
      exact .pure (.inr ⟨H, .refl ..⟩)

/-- The position of a write. -/
def Content.writePos (c : Content) : Nat :=
  if c.append ∧ c.pos < c.bytes.length then c.bytes.length else c.pos

/-- What a write starts from: the bytes before its position, the gap to it filled with zeros. -/
def Content.front (c : Content) : List UInt8 :=
  c.bytes.take c.writePos ++ List.replicate (c.writePos - c.bytes.length) 0

theorem Content.length_front (c : Content) : c.front.length = c.writePos := by
  rw [Content.front, List.length_append, List.length_take, List.length_replicate]
  omega

theorem Content.writeAt_front (c : Content) (bytes : List UInt8) :
    writeAt 0 c.bytes c.writePos bytes =
      c.front ++ bytes ++ c.bytes.drop (c.front ++ bytes).length := by
  rw [List.length_append, c.length_front]
  rfl

/-- What was written goes up to the position of a write. -/
def Begun (cfg : Config) (P : Nat → Prop) (c : Content) (s : State) : Prop :=
  ∃ full old, Writes cfg P full old c.front s ∧
    ∀ n, full.drop (c.writePos + n) = c.bytes.drop (c.writePos + n)

/-- The bytes of a write at its position. -/
theorem Begun.flushedwrite (H : Begun cfg P c s) (Hcfg : cfg.Fits) (hw : w.ProgramsLocal)
    (ha : w.Allocates cfg P) (hmax : cfg.Indexes (c.writePos + bytes.length)) :
    Keeps (Allocs (SeesLists cfg)) (FileIo.flushedwrite cfg w bytes) s fun res s' => res < 0 ∨
      res = bytes.length ∧ s'.Holds cfg P (writeAt 0 c.bytes c.writePos bytes) ∧
        s'.file.pos = c.writePos + bytes.length ∧ Follows s s' := by
  obtain ⟨full, old, Hw, hrest⟩ := H
  have hlength := c.length_front
  refine .mono (Hw.flushedwrite Hcfg hw ha (by rwa [hlength])) fun res s' h => h.imp id fun h => ?_
  obtain ⟨hres, Hw', honward⟩ := h
  have hlength' : (c.front ++ bytes).length = c.writePos + bytes.length := by
    rw [List.length_append, hlength]
  refine ⟨hres, ?_, Hw'.writer.pos.trans hlength', honward.follows⟩
  rw [c.writeAt_front, hlength', ← hrest, ← hlength']
  exact Hw'.holds

/-- The position of a write to a handle that is idle. -/
theorem Idle.start (H : Idle cfg P full old s) (hreading : s.file.reading = false)
    (hpos : s.file.pos = pos) (hle : pos ≤ full.length)
    (happend : s.file.append = true → full.length ≤ pos) :
    Writes cfg P full old (full.take pos) s := by
  have hlength : (full.take pos).length = pos := by
    rw [List.length_take]
    omega
  exact .starting {
    isInline := H.isInline
    reading := hreading
    stored := H.stored
    append := fun h => by
      rw [H.stored.size, hpos]
      exact happend h
    pos := hpos.trans hlength.symm
    length := H.stored.length.mono (by omega)
    writing := H.writing
    shared := H.shared
    cache := H.dropped hreading
    content := by rw [hlength] }

theorem Content.writePos_ge (c : Content) (h : c.append = true) : c.bytes.length ≤ c.writePos := by
  rw [Content.writePos]
  split
  · exact Nat.le_refl _
  · rename_i hnot
    exact Nat.le_of_not_lt fun hlt => hnot ⟨h, hlt⟩

/-- The gap in front of a write to a handle that is idle. -/
theorem Idle.begin (H : Idle cfg P c.bytes old s) (Hcfg : cfg.Fits) (hw : w.ProgramsLocal)
    (ha : w.Allocates cfg P) (hreading : s.file.reading = false) (hpos : s.file.pos = c.writePos)
    (happend : s.file.append = c.append) (hmax : cfg.Indexes c.writePos) :
    Keeps (Allocs (SeesLists cfg))
      (doIf (s.file.writing = false ∧ s.file.pos > s.file.size) (fillGap cfg w)) s
      fun res s' => res < 0 ∨ Begun cfg P c s' ∧ Follows s s' := by
  have hsize := H.stored.size
  refine .ite (fun hgap => ?_) fun hnot => .pure (.inr ⟨⟨c.bytes, old, ?_, fun _ => rfl⟩, .refl s⟩)
  · have hgap := hgap.2
    have hfront : c.front = c.bytes ++ List.replicate (c.writePos - c.bytes.length) 0 := by
      rw [Content.front, List.take_of_length_le (by omega)]
    have Hw := (H.setPos hreading s.file.size).start hreading hsize (Nat.le_refl _)
      fun _ => Nat.le_refl _
    rw [List.take_length] at Hw
    refine .get_bind (.modify_bind (fun HA => HA.of_events rfl) ?_)
    refine .mono (Hw.fillZeros Hcfg hw ha (hpos ▸ hmax) _) fun res s' h => h.imp id fun h => ?_
    obtain ⟨Hw', honward⟩ := h
    rw [hpos, ← hfront] at Hw'
    have hpos : Follows s (s.modFile fun f => { f with pos := f.size }) :=
      ⟨rfl, id, fun h => ⟨h, rfl, rfl⟩⟩
    exact ⟨⟨c.bytes, old, Hw', fun _ => rfl⟩, hpos.trans honward.follows⟩
  · have hle : c.writePos ≤ c.bytes.length := by
      have hnot : ¬ s.file.pos > s.file.size := fun h => hnot ⟨H.writing, h⟩
      omega
    have hfront : c.front = c.bytes.take c.writePos := by
      rw [Content.front, Nat.sub_eq_zero_of_le hle, List.replicate_zero, List.append_nil]
    rw [hfront]
    exact H.start hreading hpos hle fun h => c.writePos_ge (happend.symm.trans h)

/-- A handle that is written to is at the position. -/
theorem Busy.begun (H : Busy cfg P full old content k addr s)
    (hlast : 8 * pointers k < s.file.offset)
    (hbytes : c.bytes = content ++ full.drop content.length)
    (hpos : s.file.pos = c.pos) (happend : s.file.append = c.append) :
    c.writePos = c.pos ∧ Begun cfg P c s := by
  have hat := H.pos
  have hlength := congrArg List.length hbytes
  rw [List.length_append, List.length_drop] at hlength
  have hwrite : c.writePos = c.pos := by
    rw [Content.writePos, if_neg fun h => ?_]
    have hsize := H.append (happend.trans h.1)
    have hfull := H.stored.size
    omega
  refine ⟨hwrite, full, old, ?_, fun n => ?_⟩
  · have hfront : c.front = content := by
      rw [Content.front, hwrite, show c.pos = content.length by omega, hbytes,
        List.take_left, Nat.sub_eq_zero_of_le (by rw [← hbytes]; omega), List.replicate_zero,
        List.append_nil]
    rw [hfront]
    exact .busy k addr H hlast
  · rw [hwrite, show c.pos = content.length by omega, hbytes, ← List.drop_drop (l := full),
      ← List.drop_drop, List.drop_left]

theorem State.Holds.clearErred (H : s.Holds cfg P bytes) :
    (s.modFile fun f => { f with erred := false }).Holds cfg P bytes := by
  have hstored : ∀ {full old}, Stored cfg P full old s →
      Stored cfg P full old (s.modFile fun f => { f with erred := false }) := fun H =>
    ⟨H.size, H.head, H.lists, H.length, H.agrees, H.visible⟩
  cases H with
  | idle old H =>
    exact .idle old ⟨H.writing, H.isInline, H.shared, hstored H.stored, H.cache, H.dropped,
      H.placed⟩
  | busy full old content k addr H hlast hbytes =>
    have hchain := H.chain
    have hwriter : Writer cfg P full old content (s.modFile fun f => { f with erred := false }) :=
      ⟨H.isInline, H.reading, hstored H.stored, H.append, H.pos, H.length⟩
    exact .busy full old content k addr ⟨⟨hwriter, H.writing, H.head, ⟨hchain.lists, hchain.ends,
      hchain.room, hchain.fresh, hchain.older, hchain.cache, hchain.readable⟩, H.apart⟩, H.shared,
      H.filling.held, H.filling.loose⟩ hlast hbytes

/-- **A write** once any reads are dropped. -/
theorem State.Stands.writeBehind (H : s.Stands cfg P c) (Hcfg : cfg.Fits) (hw : w.ProgramsLocal)
    (ha : w.Allocates cfg P) (hreading : s.file.reading = false)
    (hreach : c.writePos + bytes.length ≤ cfg.fileMaxSize →
      cfg.Indexes (c.writePos + bytes.length)) :
    Keeps (Allocs (SeesLists cfg)) (writeBehind cfg w bytes) s fun res s' => res < 0 ∨
      res = bytes.length ∧ c.writePos + bytes.length ≤ cfg.fileMaxSize ∧
        Reaches cfg P s { c with
          bytes := writeAt 0 c.bytes c.writePos bytes, pos := c.writePos + bytes.length } s' := by
  -- the position, and the gap in front of it
  obtain ⟨s₁, hs₁, hpos₁, happend₁, hfollows₁, hgap⟩ : ∃ s₁, (s.modFile fun f =>
      if f.append ∧ f.pos < f.size then { f with pos := f.size } else f) = s₁ ∧
      s₁.file.pos = c.writePos ∧ s₁.file.append = c.append ∧ Follows s s₁ ∧
      (cfg.Indexes c.writePos → Keeps (Allocs (SeesLists cfg))
        (doIf (s₁.file.writing = false ∧ s₁.file.pos > s₁.file.size) (fillGap cfg w)) s₁
        fun res s' => res < 0 ∨ Begun cfg P c s' ∧ Follows s₁ s') := by
    refine ⟨_, rfl, ?_⟩
    rcases H with ⟨Hh, hpos, happend, -⟩
    cases Hh with
    | idle old Hi =>
      have hsize := Hi.stored.size
      have hmod : (s.modFile fun f => if f.append ∧ f.pos < f.size then { f with pos := f.size }
          else f) = s.modFile fun f => { f with pos := c.writePos } := by
        have hwrite : c.writePos = if s.file.append ∧ s.file.pos < s.file.size then s.file.size
            else s.file.pos := by rw [happend, hpos, hsize, Content.writePos]
        rw [State.modFile, State.modFile, hwrite]
        split <;> rfl
      rw [hmod]
      exact ⟨rfl, happend, ⟨rfl, id, fun h => ⟨h, rfl, rfl⟩⟩, fun hmax =>
        (Hi.setPos hreading c.writePos).begin Hcfg hw ha hreading rfl happend hmax⟩
    | busy full old content k addr Hb hlast hbytes =>
      obtain ⟨hwrite, hbegun⟩ := Hb.begun hlast hbytes hpos happend
      have hmod : (s.modFile fun f => if f.append ∧ f.pos < f.size then { f with pos := f.size }
          else f) = s := by
        rw [State.modFile, if_neg fun h => Nat.not_lt.mpr (Hb.append h.1) h.2]
        rfl
      rw [hmod]
      refine ⟨hpos.trans hwrite.symm, happend, .refl s, fun _ => .ite (fun h => ?_) fun _ =>
        .pure (.inr ⟨hbegun, .refl s⟩)⟩
      cases Hb.writing.symm.trans h.1
  refine .modify_bind (fun HA => HA.of_events rfl) ?_
  rw [hs₁]
  refine .get_bind (.ite (fun _ => .pure (.inl (by decide))) fun hmax => ?_)
  have hmax : c.writePos + bytes.length ≤ cfg.fileMaxSize := by omega
  have hat := hreach hmax
  refine .bind (hgap (hat.mono (Nat.le_add_right ..))) fun res s₂ h => ?_
  refine .ite (fun hneg => .pure (.inl hneg)) fun hnot => ?_
  obtain ⟨Hb, hfollows₂⟩ := h.resolve_left hnot
  refine .bind (Hb.flushedwrite Hcfg hw ha hat) fun res s₃ h => ?_
  refine .ite (fun hneg => .pure (.inl hneg)) fun hnot => ?_
  obtain ⟨hres, Hh, hpos, hfollows₃⟩ := h.resolve_left hnot
  have hfollows := (hfollows₁.trans hfollows₂).trans hfollows₃
  refine .modify_bind (fun HA => HA.of_events rfl) (.pure (.inr ⟨hres, hmax, ⟨Hh.clearErred, hpos,
    hfollows.append.trans H.append, hat⟩, hfollows.trans ⟨rfl, fun _ => rfl, fun h =>
    ⟨h, rfl, rfl⟩⟩⟩))

/-- **A write.** -/
theorem State.Stands.rawwrite (H : s.Stands cfg P c) (Hcfg : cfg.Fits) (hlong : 256 < cfg.cacheSize)
    (hw : w.ProgramsLocal) (ha : w.Allocates cfg P) (bytes : List UInt8)
    (hreach : c.writePos + bytes.length ≤ cfg.fileMaxSize →
      cfg.Indexes (c.writePos + bytes.length)) :
    Keeps (Allocs (SeesLists cfg)) (rawwrite cfg w bytes) s fun res s' => res < 0 ∨
      res = bytes.length ∧ c.writePos + bytes.length ≤ cfg.fileMaxSize ∧
        Reaches cfg P s { c with
          bytes := writeAt 0 c.bytes c.writePos bytes, pos := c.writePos + bytes.length } s' := by
  refine .get_bind (.bind (Q := fun err s' => Code err ∧ (err = errOk →
    Reaches cfg P s c s' ∧ s'.file.reading = false)) (.ite (fun _ => ?_) fun hreading => ?_)
    fun err s₁ h => ?_)
  · refine .mono (H.holds.flush Hcfg hlong hw ha) fun err s' h => ⟨h.1, fun herr => ?_⟩
    obtain ⟨⟨old, Hi⟩, hreading, hpos, hfollows⟩ := h.2 herr
    exact ⟨⟨⟨.idle old Hi, hpos.trans H.pos, hfollows.append.trans H.append, H.indexes⟩, hfollows⟩,
      hreading⟩
  · exact .pure ⟨.ok, fun _ => ⟨H.reaches, Bool.not_eq_true _ ▸ hreading⟩⟩
  obtain ⟨hcode, hok⟩ := h
  refine .ite (fun herr => .pure (.inl (hcode.neg herr))) fun herr => ?_
  obtain ⟨H₁, hreading⟩ := hok (not_not.mp herr)
  exact .mono (H₁.writeBehind Hcfg hw ha hreading hreach) fun res s' h =>
    h.imp id fun h => ⟨h.1, h.2.1, h.2.2.after H₁.follows⟩

/-! ## Truncations -/

/-- At the end of the file no seek slips. -/
theorem State.Stands.plain_of_end (H : s.Stands cfg P c) (hend : c.pos = c.bytes.length) :
    ¬ s.file.SlipsTo cfg npos := by
  rintro ⟨hwriting, -, -, hlt, -⟩
  obtain ⟨old, Hi⟩ := H.holds.idle_of hwriting
  have hsize := Hi.stored.size
  have hpos := H.pos
  omega

/-- The loop that fills with zeros up to the new size. -/
theorem State.Stands.extendZeros (H : s.Stands cfg P c) (Hcfg : cfg.Fits)
    (hlong : 256 < cfg.cacheSize) (hw : w.ProgramsLocal) (ha : w.Allocates cfg P)
    (hend : c.pos = c.bytes.length) (hle : c.bytes.length ≤ n)
    (hreach : cfg.Indexes (min n cfg.fileMaxSize)) (fuel : Nat) :
    Keeps (Allocs (SeesLists cfg)) (extendZeros cfg w n fuel) s fun res s' => res < 0 ∨
      n ≤ cfg.fileMaxSize ∧
        Reaches cfg P s { c with bytes := ZeroFill.resize 0 c.bytes n, pos := n } s' := by
  induction fuel generalizing s c with
  | zero => exact .stop
  | succ fuel ih =>
    have hpos := H.pos
    refine .get_bind (.ite (fun hlt => ?_) fun hge => ?_)
    · have hwrite : c.writePos = c.bytes.length := by
        rw [Content.writePos, if_neg fun h => by omega, hend]
      refine .bind (H.rawwrite Hcfg hlong hw ha [0] fun hmax => hreach.mono ?_) fun res s₁ h => ?_
      · rw [hwrite, List.length_singleton] at hmax ⊢
        omega
      refine .ite (fun hneg => .pure (.inl hneg)) fun hnot => ?_
      obtain ⟨-, hmax, H₁⟩ := h.resolve_left hnot
      rw [hwrite, writeAt_length] at H₁
      have hlen : (c.bytes ++ [0]).length = c.bytes.length + 1 := List.length_append
      refine .mono (ih H₁.toStands hlen.symm (by dsimp only; omega)) fun res s' h =>
        h.imp id fun h => ?_
      obtain ⟨hn, H'⟩ := h
      refine ⟨hn, ?_⟩
      have hresize : ZeroFill.resize 0 (c.bytes ++ [0]) n = ZeroFill.resize 0 c.bytes n := by
        have hzeros : n - c.bytes.length = 1 + (n - (c.bytes.length + 1)) := by omega
        rw [resize_of_length_le (by omega), resize_of_length_le hle, hlen, hzeros,
          List.replicate_add, ← List.append_assoc, List.replicate_one]
      rw [← hresize]
      exact H'.after H₁.follows
    · have hn : n = c.pos := by omega
      have hresize : ZeroFill.resize 0 c.bytes n = c.bytes := by
        rw [hn, hend, resize_of_le_length (Nat.le_refl _), List.take_length]
      rw [hresize, hn]
      exact .pure (.inr ⟨H.indexes.le, H.reaches⟩)

theorem Idle.of_time (H : Idle cfg P full old s) (h : OnlyTime s s') :
    Idle cfg P full old s' := by
  have hstored := H.stored.of_time h
  obtain ⟨hwriting, hinline, hshared, -, hcache, hdropped, hplaced⟩ := H
  obtain ⟨⟨hfile, hwriteCache, hdisk⟩, -⟩ := h
  rw [← hfile] at hwriting hinline hcache hdropped hplaced
  rw [← hdisk] at hcache
  exact ⟨hwriting, hinline, by rw [hwriteCache]; exact hshared, hstored, hcache, hdropped, hplaced⟩

/-- The list up to a block, of which a search has found the last byte. -/
theorem Idle.cut (H : Idle cfg P full old s) (hn : 0 < n) (hle : n ≤ full.length)
    (hindex : ctzIndex cfg.blockSize (n - 1) = (i, off)) (hi : i ≤ (cfg.lastByte full).1)
    {cache : WriteCache} (hcache : CacheOn cfg (ListBlock cfg full old) s.disk cache) :
    Idle cfg P (full.take n) old (s.modFile fun f => { f with
      cache, block := old i, pos := n, head := old i, size := n, dirty := true,
      reading := true }) := by
  have hlength : (full.take n).length = n := by
    rw [List.length_take]
    omega
  have hnil : full ≠ [] := List.ne_nil_of_length_pos (by omega)
  have hlast : (cfg.lastByte (full.take n)).1 = i := by rw [Config.lastByte, hlength, hindex]
  have hsub : ∀ b, ListBlock cfg (full.take n) old b → ListBlock cfg full old b := by
    rintro b ⟨-, j, hj, rfl⟩
    rw [hlast] at hj
    exact ⟨hnil, j, hj.trans hi, rfl⟩
  exact {
    writing := H.writing
    isInline := H.isInline
    shared := H.shared
    stored := {
      size := hlength.symm
      head := fun _ => by rw [hlast]; rfl
      lists := fun _ => by
        rw [hlast]
        exact (H.stored.lists hnil).take hi n
      length := H.stored.length.mono (by omega)
      agrees := fun b hb => H.stored.agrees b (hsub b hb)
      visible := .inr rfl }
    cache := fun b hb => hcache b (hsub b hb)
    dropped := fun h => by cases h
    placed := fun _ => by
      have hexact := H.stored.length.exact (n - 1) (by omega)
      have hnext := (H.stored.length.exact n hle).lt
      have hge := hexact.index_le (Nat.lt_of_le_of_lt (Nat.sub_le n 1) hnext)
      rw [hindex] at hge
      have hlow : (ctzIndex cfg.blockSize (n - 1)).1 = i := by rw [hindex]
      rcases Nat.eq_or_lt_of_le hge with heq | hlt
      · exact .inBlock (Nat.le_of_eq hlow.symm) heq.symm rfl fun h => absurd h (Nat.lt_irrefl n)
      · exact .behind (Nat.le_refl n) (Nat.lt_of_le_of_lt (Nat.le_of_eq hlow) hlt) }

/-- **A truncation** to a smaller size. -/
theorem State.Stands.shrinkList (H : s.Stands cfg P c) (Hcfg : cfg.Fits)
    (hlong : 256 < cfg.cacheSize)
    (hw : w.ProgramsLocal) (ha : w.Allocates cfg P) (hn : 0 < n) (hle : n ≤ c.bytes.length) :
    Keeps (Allocs (SeesLists cfg)) (shrinkList cfg w n) s fun res s' => res < 0 ∨
      Reaches cfg P s { c with bytes := c.bytes.take n, pos := n } s' := by
  refine .bind (H.holds.flush Hcfg hlong hw ha) fun err s₁ h => ?_
  obtain ⟨hcode, hok⟩ := h
  refine .ite (fun herr => .pure (.inl (hcode.neg herr))) fun herr => ?_
  obtain ⟨⟨old, Hi⟩, -, -, hfollows⟩ := hok (not_not.mp herr)
  refine .get_bind (.bind (ctzFind_spec Hi.stored (show n - 1 < c.bytes.length by omega)
    Hi.cache) fun r s₂ h => ?_)
  obtain ⟨res, cache⟩ := r
  obtain ⟨htime, hfails, hok⟩ := h
  refine .modify_bind (fun HA => HA.of_events rfl) ?_
  cases res with
  | error err => exact .pure (.inl (hfails _ rfl))
  | ok r =>
    obtain ⟨block, off⟩ := r
    obtain ⟨⟨i, hi, rfl, hindex⟩, hcache⟩ := hok _ _ rfl
    have Hi₂ := Hi.of_time htime
    have hfollows := hfollows.trans (.of_file htime.onlyReads.file)
    refine .modify_bind (fun HA => HA.of_events rfl) (.pure (.inr ⟨⟨.idle old ?_, rfl,
      hfollows.append.trans H.append, ?_⟩, hfollows.append, hfollows.erred, fun h => by cases h⟩))
    · rw [← htime.onlyReads.disk] at hcache
      exact Hi₂.cut hn hle hindex hi hcache
    · exact Hi.stored.length.mono hle

/-- The new size, at some position. -/
theorem State.Stands.resize (H : s.Stands cfg P c) (Hcfg : cfg.Fits) (hlong : 256 < cfg.cacheSize)
    (hw : w.ProgramsLocal) (ha : w.Allocates cfg P) (hplain : s.file.Plain cfg (.truncate n))
    (hreach : cfg.Indexes (min n cfg.fileMaxSize)) :
    Keeps (Allocs (SeesLists cfg)) (FileIo.resize cfg w n) s fun res s' => res < 0 ∨
      n ≤ cfg.fileMaxSize ∧
        ∃ pos, Reaches cfg P s { c with bytes := ZeroFill.resize 0 c.bytes n, pos } s' ∧
          ¬ s'.file.SlipsTo cfg c.pos := by
  have hsize := H.holds.rawsize
  obtain ⟨hshrink, hgrow⟩ := hplain
  have hmax := H.length.le
  refine .get_bind (.ite (fun hlt => .ite (fun hinline => ?_) fun _ => ?_) fun hge =>
    .ite (fun hgt => ?_) fun hle => ?_)
  · exact absurd (hshrink hlt) (Nat.not_lt.mpr hinline)
  · have hpos := hshrink hlt
    have hresize : ZeroFill.resize 0 c.bytes n = c.bytes.take n := resize_of_le_length (by omega)
    refine .mono (H.shrinkList Hcfg hlong hw ha (by omega) (by omega)) fun res s' h =>
      h.imp id fun H' => ⟨by omega, n, ?_⟩
    rw [hresize]
    refine ⟨H', H'.plain_of_end ?_⟩
    rw [List.length_take]
    dsimp only
    omega
  · have hseek : s.file.Plain cfg (.seek 0 .fromEnd) := fun npos hnpos => by
      obtain rfl : npos = s.file.rawsize := by
        rw [File.seekBase] at hnpos
        omega
      exact hgrow hgt
    have hat : ∀ npos : Nat, (npos : Int) = LittleFs.seekBase c.pos c.bytes.length .fromEnd + 0 →
        npos ≤ cfg.fileMaxSize → cfg.Indexes npos := fun npos hnpos _ => by
      rw [LittleFs.seekBase] at hnpos
      exact H.length.mono (by omega)
    refine .bind (H.rawseek Hcfg hlong hw ha hseek hat) fun res s₁ h => ?_
    refine .ite (fun hneg => .pure (.inl hneg)) fun hnot => ?_
    obtain ⟨npos, -, hnpos, -, H₁⟩ := h.resolve_left hnot
    have hend : npos = c.bytes.length := by
      rw [LittleFs.seekBase] at hnpos
      omega
    refine .mono (H₁.extendZeros Hcfg hlong hw ha hend (show c.bytes.length ≤ n by omega)
      hreach _) fun res s' h => h.imp id fun h =>
        ⟨h.1, n, h.2.after H₁.follows, h.2.plain_of_end ?_⟩
    rw [length_resize]
  · have hn : n = c.bytes.length := by omega
    have hresize : ZeroFill.resize 0 c.bytes n = c.bytes := by
      rw [hn, resize_of_le_length (Nat.le_refl _), List.take_length]
    rw [hresize]
    refine .pure (.inr ⟨by omega, c.pos, H.reaches, fun h => ?_⟩)
    obtain ⟨-, -, -, -, hne, -⟩ := h
    exact hne H.pos

/-- **A truncation** that leaves a list. -/
theorem State.Stands.rawtruncate (H : s.Stands cfg P c) (Hcfg : cfg.Fits)
    (hlong : 256 < cfg.cacheSize) (hw : w.ProgramsLocal) (ha : w.Allocates cfg P)
    (hplain : s.file.Plain cfg (.truncate n))
    (hreach : n ≤ fileMax → cfg.Indexes (min n cfg.fileMaxSize)) :
    Keeps (Allocs (SeesLists cfg)) (rawtruncate cfg w n) s fun res s' => res < 0 ∨
      n ≤ cfg.fileMaxSize ∧ Reaches cfg P s { c with bytes := ZeroFill.resize 0 c.bytes n } s' := by
  refine .get_bind (.ite (fun _ => .pure (.inl (by decide))) fun hmax => ?_)
  refine .bind (H.resize Hcfg hlong hw ha hplain (hreach (Nat.le_of_not_lt hmax))) fun res s₁ h =>
    ?_
  refine .ite (fun hneg => .pure (.inl hneg)) fun hnot => ?_
  obtain ⟨hmax, pos, H₁, hslip⟩ := h.resolve_left hnot
  have hseek : s₁.file.Plain cfg (.seek s.file.pos .set) := fun npos hnpos => by
    obtain rfl : npos = s.file.pos := by
      rw [File.seekBase] at hnpos
      omega
    rwa [H.pos]
  have hat : ∀ npos : Nat, (npos : Int) = LittleFs.seekBase pos (ZeroFill.resize 0 c.bytes n).length
      .set + s.file.pos → npos ≤ cfg.fileMaxSize → cfg.Indexes npos := fun npos hnpos _ => by
    rw [LittleFs.seekBase, H.pos] at hnpos
    exact H.indexes.mono (by omega)
  refine .bind (H₁.rawseek Hcfg hlong hw ha hseek hat) fun res s₂ h => ?_
  refine .ite (fun hneg => .pure (.inl hneg)) fun hnot => .pure (.inr ⟨hmax, ?_⟩)
  obtain ⟨npos, -, hnpos, -, H₂⟩ := h.resolve_left hnot
  obtain rfl : npos = c.pos := by
    rw [LittleFs.seekBase, H.pos] at hnpos
    omega
  exact H₂.after H₁.follows

/-! ## Runs -/

theorem fails_answerOf (res : Int) (a : Nat → Answer) : Fails (answerOf res a) := by
  rw [answerOf]
  split
  · exact .error ‹_›
  · exact .ok _

theorem answerOf_ok {res : Int} {a : Nat → Answer} {x : Answer} (h : answerOf res a = .ok x) :
    ¬ res < 0 ∧ x = a res.toNat := by
  rw [answerOf] at h
  split at h
  · cases h
  · cases h
    exact ⟨‹_›, rfl⟩

theorem Content.extent_le_farthest (c : Content) (maxSize : Nat) (calls : List Call) :
    c.extent ≤ c.farthest maxSize calls := by
  cases calls with
  | nil => exact Nat.le_refl _
  | cons => exact Nat.le_max_left ..

theorem Content.farthest_le {maxSize : Nat} {call : Call} {a : Answer} {c' : Content}
    (h : c.call maxSize call = some (a, c')) (calls : List Call) :
    c'.farthest maxSize calls ≤ c.farthest maxSize (call :: calls) := by
  rw [Content.farthest, h]
  exact Nat.le_max_right ..

/-- The position and the size that a call leaves. -/
theorem Content.extent_le {maxSize : Nat} {call : Call} {a : Answer} {c' : Content}
    (h : c.call maxSize call = some (a, c')) (calls : List Call) :
    c'.pos ≤ c.farthest maxSize (call :: calls) ∧
      c'.bytes.length ≤ c.farthest maxSize (call :: calls) := by
  have hle := (c'.extent_le_farthest maxSize calls).trans (Content.farthest_le h calls)
  exact ⟨(Nat.le_max_left ..).trans hle, (Nat.le_max_right ..).trans hle⟩

theorem Content.call_write {maxSize : Nat} (h : c.writePos + bytes.length ≤ maxSize) :
    c.call maxSize (.write bytes) = some (.wrote bytes.length, { c with
      bytes := writeAt 0 c.bytes c.writePos bytes, pos := c.writePos + bytes.length }) :=
  if_neg (Nat.not_lt.mpr h)

theorem Content.call_seek {maxSize : Nat} {offset : Int} {whence : Whence}
    (hnpos : (npos : Int) = LittleFs.seekBase c.pos c.bytes.length whence + offset)
    (h : npos ≤ maxSize) :
    c.call maxSize (.seek offset whence) = some (.position npos, { c with pos := npos }) := by
  rw [Content.call, ← hnpos, if_neg (by omega)]
  rfl

theorem Content.call_truncate {maxSize : Nat} (h : n ≤ maxSize) :
    c.call maxSize (.truncate n) = some (.done, { c with bytes := ZeroFill.resize 0 c.bytes n }) :=
  if_neg (Nat.not_lt.mpr h)

/-- How far a truncation gets. -/
theorem Content.truncate_le {maxSize : Nat} (h : n ≤ fileMax) (calls : List Call) :
    min n maxSize ≤ c.farthest maxSize (.truncate n :: calls) := by
  by_cases hmax : n ≤ maxSize
  · have hle := (Content.extent_le (c.call_truncate hmax) calls).2
    rw [ZeroFill.length_resize] at hle
    exact (Nat.min_le_left ..).trans hle
  · have hcall : c.call maxSize (.truncate n) = none := if_pos (Nat.lt_of_not_le hmax)
    rw [Content.farthest, hcall]
    dsimp only
    rw [Call.overrun, if_neg (Nat.not_lt.mpr h)]
    exact (Nat.min_le_right ..).trans (Nat.le_max_right ..)

/-- **A call** does to the handle what it does to the bytes, or fails. -/
theorem State.Stands.answer (H : s.Stands cfg P c) (Hcfg : cfg.Fits) (hlong : 256 < cfg.cacheSize)
    (hw : w.ProgramsLocal) (ha : w.Allocates cfg P) {call : Call} {calls : List Call}
    (hplain : s.file.Plain cfg call)
    (hreach : cfg.Indexes (c.farthest cfg.fileMaxSize (call :: calls))) :
    Keeps (Allocs (SeesLists cfg)) (FileIo.answer cfg w call) s fun res s' => Fails res ∧
      ∀ a, res = .ok a →
        (∃ c', c.call cfg.fileMaxSize call = some (a, c') ∧ Reaches cfg P s c' s') ∧
        (call = .flush → s'.file.writing = false) := by
  cases call with
  | write bytes =>
    refine .bind (H.rawwrite Hcfg hlong hw ha bytes fun hmax =>
      hreach.mono (Content.extent_le (Content.call_write hmax) calls).1) fun res s' h =>
      .pure ⟨fails_answerOf _ _, fun a heq => ?_⟩
    obtain ⟨hnot, rfl⟩ := answerOf_ok heq
    obtain ⟨rfl, hmax, H'⟩ := h.resolve_left hnot
    exact ⟨⟨_, Content.call_write hmax, H'⟩, fun h => by cases h⟩
  | read size =>
    refine .bind (H.rawreadFile Hcfg hlong hw ha size) fun res s' h => .pure ?_
    obtain ⟨hfails, hok⟩ := h
    cases res with
    | error err => exact ⟨.error (hfails err rfl), fun _ h => by cases h⟩
    | ok bytes =>
      obtain ⟨rfl, H'⟩ := hok bytes rfl
      refine ⟨.ok _, fun a heq => ?_⟩
      cases heq
      exact ⟨⟨_, rfl, H'⟩, fun h => by cases h⟩
  | seek offset whence =>
    refine .bind (H.rawseek Hcfg hlong hw ha hplain fun npos hnpos hmax =>
      hreach.mono (Content.extent_le (Content.call_seek hnpos hmax) calls).1) fun res s' h =>
      .pure ⟨fails_answerOf _ _, fun a heq => ?_⟩
    obtain ⟨hnot, rfl⟩ := answerOf_ok heq
    obtain ⟨npos, rfl, hnpos, hmax, H'⟩ := h.resolve_left hnot
    exact ⟨⟨_, Content.call_seek hnpos hmax, H'⟩, fun h => by cases h⟩
  | truncate size =>
    refine .bind (H.rawtruncate Hcfg hlong hw ha hplain fun hmax =>
      hreach.mono (Content.truncate_le hmax calls)) fun res s' h =>
      .pure ⟨fails_answerOf _ _, fun a heq => ?_⟩
    obtain ⟨hnot, rfl⟩ := answerOf_ok heq
    obtain ⟨hmax, H'⟩ := h.resolve_left hnot
    exact ⟨⟨_, Content.call_truncate hmax, H'⟩, fun h => by cases h⟩
  | flush =>
    refine .bind (H.holds.flush Hcfg hlong hw ha) fun res s' h =>
      .pure ⟨fails_answerOf _ _, fun a heq => ?_⟩
    obtain ⟨hnot, rfl⟩ := answerOf_ok heq
    obtain ⟨⟨old, Hi⟩, -, hpos, hfollows⟩ := h.2 (h.1.resolve_right hnot)
    exact ⟨⟨_, rfl, ⟨.idle old Hi, hpos.trans H.pos, hfollows.append.trans H.append, H.indexes⟩,
      hfollows⟩, fun _ => Hi.writing⟩

/-- **A session** does to the handle what it does to the bytes, up to the first call that fails. -/
theorem State.Stands.session (H : s.Stands cfg P c) (Hcfg : cfg.Fits) (hlong : 256 < cfg.cacheSize)
    (hw : w.ProgramsLocal) (ha : w.Allocates cfg P) (calls : List Call)
    (hplain : PlainSession cfg w calls s)
    (hreach : cfg.Indexes (c.farthest cfg.fileMaxSize calls)) (last : Option Call)
    (hlast : last = some .flush → s.file.writing = false) :
    Keeps (Allocs (SeesLists cfg)) (FileIo.session cfg w calls) s fun r s' =>
      r.1 <+: (c.session cfg.fileMaxSize calls).1 ∧ Code r.2 ∧
        (r.2 = errOk → r.1 = (c.session cfg.fileMaxSize calls).1 ∧
          s'.Stands cfg P (c.session cfg.fileMaxSize calls).2 ∧
            (calls.getLast?.or last = some .flush → s'.file.writing = false)) := by
  induction calls generalizing s c last with
  | nil => exact .pure ⟨List.prefix_refl _, .ok, fun _ => ⟨rfl, H, hlast⟩⟩
  | cons call calls ih =>
    obtain ⟨hplain, hrest⟩ := hplain
    refine .bind (H.answer Hcfg hlong hw ha hplain hreach).attach fun res s₁ h => ?_
    obtain ⟨⟨hfails, hok⟩, hanswer⟩ := h
    cases res with
    | error err =>
      have hneg := hfails err rfl
      exact .pure ⟨List.nil_prefix, .of_neg hneg, fun h => absurd h (Int.ne_of_lt hneg)⟩
    | ok a =>
      obtain ⟨⟨c', hcall, H₁⟩, hflush⟩ := hok a rfl
      rw [Content.session, hcall]
      dsimp only
      refine .bind (ih H₁.toStands (hrest a s₁ hanswer)
        (hreach.mono (Content.farthest_le hcall calls)) (some call) fun h =>
          hflush (Option.some.inj h)) fun r s' h => .pure ?_
      obtain ⟨hanswered, hcode, hall⟩ := h
      refine ⟨(List.prefix_cons_inj a).mpr hanswered, hcode, fun herr => ?_⟩
      obtain ⟨hanswers, H', hwriting⟩ := hall herr
      refine ⟨congrArg (a :: ·) hanswers, H', fun h => hwriting ?_⟩
      rw [List.getLast?_cons] at h
      cases hrest : calls.getLast? with
      | none => rwa [hrest] at h
      | some b => rwa [hrest] at h

/-- A handle that is idle, before a session. -/
theorem Idle.stands (H : Idle cfg P bytes old s) {calls : List Call} (hreach : cfg.Indexes
    (Content.farthest cfg.fileMaxSize calls ⟨bytes, s.file.pos, s.file.append⟩)) :
    s.Stands cfg P ⟨bytes, s.file.pos, s.file.append⟩ :=
  ⟨.idle old H, rfl, rfl,
    hreach.mono ((Nat.le_max_left ..).trans (Content.extent_le_farthest _ _ calls))⟩

/-- **What `lfs_alloc` sees.** Whenever it is called in a session, also in one that fails or does
not end, the lists of the handle can be traversed through its cache. -/
theorem session_allocs (Hcfg : cfg.Fits) (hlong : 256 < cfg.cacheSize) (hw : w.ProgramsLocal)
    (ha : w.Allocates cfg P) (H : Idle cfg P bytes old s) (hevents : s.events = [])
    (calls : List Call) (hplain : PlainSession cfg w calls s)
    (hreach : cfg.Indexes (Content.farthest cfg.fileMaxSize calls
      ⟨bytes, s.file.pos, s.file.append⟩)) :
    Allocs (SeesLists cfg) (session cfg w calls s).2 := by
  have hstart := H.stands hreach
  have hallocs : Allocs (SeesLists cfg) s := fun _ _ he => by
    rw [hevents] at he
    cases he
  exact (hstart.session Hcfg hlong hw ha _ hplain hreach none fun h => by cases h).holds hallocs

/-! ## Two sessions -/

/-- The first block that is free is allocated; the programs of the block `bad` fail. -/
def firstFree (cfg : Config) (first bad : Nat) : World where
  readFails _ _ _ _ := none
  program _ block offset bytes image :=
    if block = bad then (some corruptError, image) else (none, ByteImage.write image offset bytes)
  erase _ _ image := (none, image)
  alloc _ s :=
    (match (List.range cfg.blockCount).find? fun b => first ≤ b ∧ b ∉ s.uncommitted cfg with
      | some b => .ok b
      | none => .error ioError, s.readCache)
  slice _ _ _ := .error (ioError, [])

theorem firstFree_allocates (cfg : Config) (first bad : Nat) :
    (firstFree cfg first bad).Allocates cfg (· < first) where
  block clock s b h := by
    simp only [firstFree] at h
    split at h
    · rename_i hfind
      cases h
      have hb := of_decide_eq_true
        (List.find?_some (p := fun b => decide (first ≤ b ∧ b ∉ s.uncommitted cfg)) hfind)
      exact ⟨List.mem_range.mp (List.mem_of_find?_eq_some hfind), Nat.not_lt.mpr hb.1, hb.2⟩
    · cases h
  cache _ _ := .inl rfl

theorem firstFree_local (cfg : Config) (first bad : Nat) :
    (firstFree cfg first bad).ProgramsLocal := by
  intro clock block offset bytes image i h
  simp only [firstFree]
  split
  · rfl
  · rcases h with h | h
    · exact ByteImage.write_of_lt _ _ h
    · exact ByteImage.write_of_ge _ _ h

def wideCaches : Config where
  blockSize := 512
  blockCount := 8
  writeSize := 16
  cacheSize := 512
  readSize := 16
  fileMaxSize := fileMax
  cfgBlockSize := 512
  fuel := 2000

theorem wideCaches_fits : wideCaches.Fits :=
  ⟨⟨by decide, by decide, by decide, by decide⟩, ⟨by decide, by decide, by decide⟩, by decide,
    by decide, by decide, Nat.le_refl _⟩

theorem wideCaches_indexes (h : n ≤ 1000) : wideCaches.Indexes n :=
  .of_le (by decide) (by decide) (h.trans (by decide)) (Nat.le_refl _) (h.trans_lt (by decide))

/-- A file of three bytes in block 1. -/
def threeBytes : State where
  file := { head := 1, size := 3 }
  disk _ _ := 7

theorem threeBytes_idle (h : P 1) : Idle wideCaches P [7, 7, 7] (fun _ => 1) threeBytes := by
  have hlast : wideCaches.lastByte [7, 7, 7] = (0, 2) := by decide +kernel
  have hblock : ∀ b, ListBlock wideCaches [7, 7, 7] (fun _ => 1) b → b = 1 := fun b hb => by
    obtain ⟨-, i, -, rfl⟩ := hb
    rfl
  refine ⟨rfl, rfl, rfl, ⟨rfl, fun _ => rfl, fun _ => ?_, wideCaches_indexes (by decide),
    fun b _ x _ hhas => ?_,
    .inl fun b hb => ?_⟩, .empty rfl, fun _ => rfl, fun h => ?_⟩
  · rw [hlast]
    refine ⟨⟨by decide, fun _ _ => by decide, fun _ _ => rfl, fun i hi => ?_,
      fun i hi hne => absurd (Nat.le_zero.mp hi) hne⟩, fun i pos off _ hpos => ?_⟩
    · obtain rfl := Nat.le_zero.mp hi
      decide +kernel
    · have hbytes : ([7, 7, 7] : List UInt8) = List.replicate 3 7 := rfl
      simp only [hbytes, List.getElem_replicate]
      rfl
  · cases hhas.1
  · obtain rfl := hblock b hb
    exact h
  · cases h

theorem session_allocs_badBlock : Allocs (SeesLists wideCaches)
    (session wideCaches (firstFree wideCaches 2 2) [.seek 2 .set, .write [1, 2], .flush]
      threeBytes).2 :=
  session_allocs wideCaches_fits (by decide) (firstFree_local _ _ _) (firstFree_allocates _ _ _)
    (threeBytes_idle Nat.one_lt_two) rfl _ ⟨fun _ _ h => absurd h.2.1 Bool.false_ne_true,
      fun _ _ _ => ⟨trivial, fun _ _ _ => ⟨trivial, fun _ _ _ => trivial⟩⟩⟩
    (wideCaches_indexes (by decide +kernel))

/-- A file of 124 bytes in blocks 1 to 3. -/
def threeBlocks : State where
  file := { head := 3, size := 124 }
  disk block i := match block with
    | 1 => UInt8.ofNat i
    | 2 => if i < 8 then (toLe 8 1).getD i 0 else UInt8.ofNat (64 + (i - 8))
    | 3 => if i < 16 then (toLe 8 2 ++ toLe 8 1).getD i 0 else UInt8.ofNat (120 + (i - 16))
    | _ => 0xff

/-- The condition on the caches is needed: with caches of 16 bytes a flush writes other bytes behind
a write than those of the old list. -/
theorem session_stores_slips :
    (session smallBlocks (firstFree smallBlocks 4 9) [.seek 119 .set, .write [255], .flush,
      .seek 121 .set, .read 1] threeBlocks).1 =
        some ([.position 119, .wrote 1, .done, .position 121, .bytes [0]], errOk) ∧
    (Content.session smallBlocks.fileMaxSize [.seek 119 .set, .write [255], .flush,
      .seek 121 .set, .read 1] ⟨(List.range 124).map UInt8.ofNat, 0, false⟩).1 =
        [.position 119, .wrote 1, .done, .position 121, .bytes [121]] := by
  constructor <;> decide +kernel

end FileIo

end LittleFs
