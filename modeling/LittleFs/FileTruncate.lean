import LittleFs.Lib.ZeroFill
import LittleFs.Tag

/-! `lfs_file_rawtruncate` on an open handle: a shrink cuts the CTZ list or makes the file inline,
an extension seeks to the end and writes zeros one at a time. The entry of the call checks
`LFS_FILE_MAX`, each of the writes checks `lfs->file_max_size`.

The blocks behind the handle are modelled by the bytes that are read and written through it, and
the device may fail in every step. -/

namespace LittleFs

open ZeroFill

/-! ## Handles -/

/-- What `lfs_file_rawtruncate` uses of `lfs_t` and its configuration. -/
structure FileConfig where
  blockSize : Nat
  /-- `lfs->cfg->block_size`. -/
  cfgBlockSize : Nat
  cacheSize : Nat
  metadataMax : Nat
  fileMaxSize : Nat
  fileMaxSize_le : fileMaxSize ≤ fileMax

/-- An error code of the device or of the allocator. -/
structure DeviceError where
  code : Int
  neg : code < 0

/-- A step that fails after some bytes, with the flag of its mode set by then or not. -/
structure IoFault where
  err : DeviceError
  done : Nat := 0
  begun : Bool := false

/-- How a seek fares: whether its target is in the cache of the file, and the fault of its flush. -/
structure SeekIo where
  cached : Bool := false
  flush : Option IoFault := none

/-- What the device answers during the call; the writes are told apart by their position. -/
structure TruncateIo where
  seek : SeekIo := {}
  dropReads : Nat → Option IoFault := fun _ => none
  write : Nat → Option IoFault := fun _ => none
  read : Option IoFault := none
  find : Option DeviceError := none
  restore : SeekIo := {}

/-- `lfs_file_t` as its reads and writes see it. -/
structure FileHandle where
  pos : Nat
  /-- `ctz.size`. -/
  size : Nat
  /-- The content as seen through the handle. -/
  content : List UInt8
  isInline : Bool := false
  append : Bool := false
  reading : Bool := false
  writing : Bool := false

namespace FileHandle

def setPos (f : FileHandle) (pos : Nat) : FileHandle := { f with pos }

/-- `lfs_file_rawsize`. -/
def rawsize (f : FileHandle) : Nat := if f.writing then max f.pos f.size else f.size

/-- `lfs_file_flush`. What follows the position is copied behind it byte by byte; a failure leaves
the position where the copy has come to. -/
def flush (f : FileHandle) (fault : Option IoFault) : Int × FileHandle :=
  let f := { f with reading := false }
  if f.writing then
    if f.isInline then (errOk, { f with size := max f.pos f.size, writing := false })
    else match fault with
      | some e => (e.err.code, f.setPos (f.pos + min e.done (f.size - f.pos)))
      | none => (errOk, { f with size := max f.pos f.size, writing := false })
  else (errOk, f)

/-- `lfs_file_rawseek` once the new position is known. -/
def seekTo (f : FileHandle) (cfg : FileConfig) (io : SeekIo) (npos : Nat) : Int × FileHandle :=
  if npos > cfg.fileMaxSize then (errInval, f)
  else if f.pos = npos then (npos, f)
  else if f.writing = false ∧ io.cached then (npos, f.setPos npos)
  else
    let r := f.flush io.flush
    if r.1 ≠ errOk then r else (npos, r.2.setPos npos)

inductive Whence where
  | set
  | cur
  | fromEnd

/-- `lfs_file_rawseek`. A negative position of `LFS_SEEK_SET` is past every `file_max_size`. -/
def rawseek (f : FileHandle) (cfg : FileConfig) (io : SeekIo) (offset : Int) :
    Whence → Int × FileHandle
  | .set => if offset < 0 then (errInval, f) else f.seekTo cfg io offset.toNat
  | .cur =>
    if f.pos + offset < 0 then (errInval, f) else f.seekTo cfg io (f.pos + offset).toNat
  | .fromEnd =>
    if f.rawsize + offset < 0 then (errInval, f) else f.seekTo cfg io (f.rawsize + offset).toNat

/-- The bound on inline files. `lfs_file_flushedwrite` divides the block size by 16,
`lfs_file_rawtruncate` divides the configured one by 8. -/
def inlineMax (cfg : FileConfig) (blockSize divisor : Nat) : Nat :=
  min 0x3fe (min cfg.cacheSize
    ((if cfg.metadataMax ≠ 0 then cfg.metadataMax else blockSize) / divisor))

/-! ## Writing -/

/-- `lfs_file_flushedwrite` of one byte. A failure may come after `LFS_F_WRITING` is set. -/
def flushedwrite (f : FileHandle) (cfg : FileConfig) (fault : Option IoFault) (byte : UInt8) :
    Int × FileHandle :=
  match fault with
  | some e => (e.err.code, { f with writing := f.writing || e.begun })
  | none =>
    (1, { f with
      -- inline file doesn't fit anymore
      isInline :=
        f.isInline && decide (max (f.pos + 1) f.size ≤ inlineMax cfg cfg.blockSize 16)
      writing := true
      content := writeAt 0 f.content f.pos [byte]
      pos := f.pos + 1 })

/-- The loop of `lfs_file_rawwrite` that fills with zeros up to the position. -/
def fillZeros (cfg : FileConfig) (faults : Nat → Option IoFault) :
    (count : Nat) → FileHandle → Int × FileHandle
  | 0, f => (errOk, f)
  | count + 1, f =>
    let r := f.flushedwrite cfg (faults f.pos) 0
    if r.1 < 0 then r else fillZeros cfg faults count r.2

/-- `lfs_file_rawwrite` of one byte. -/
def rawwrite (f : FileHandle) (cfg : FileConfig) (io : TruncateIo) (byte : UInt8) :
    Int × FileHandle :=
  -- drop any reads
  let r := if f.reading then f.flush (io.dropReads f.pos) else (errOk, f)
  if r.1 ≠ errOk then r
  else
    let f := r.2
    let f := if f.append ∧ f.pos < f.size then f.setPos f.size else f
    if f.pos + 1 > cfg.fileMaxSize then (errFbig, f)
    else
      let r := if f.writing = false ∧ f.pos > f.size then
          fillZeros cfg io.write (f.pos - f.size) (f.setPos f.size)
        else (errOk, f)
      if r.1 < 0 then r else r.2.flushedwrite cfg (io.write r.2.pos) byte

/-! ## Truncating -/

/-- `lfs_file_flushedread`, as far as the handle is concerned. -/
def flushedread (f : FileHandle) (fault : Option IoFault) (size : Nat) : Int × FileHandle :=
  if f.pos ≥ f.size then (errOk, f)
  else
    let nsize := min size (f.size - f.pos)
    match fault with
    | some e =>
      (e.err.code, { f with
        pos := f.pos + min e.done nsize
        reading := f.reading || e.begun })
    | none =>
      (nsize, { f with pos := f.pos + nsize, reading := f.reading || decide (0 < nsize) })

/-- The branch of `lfs_file_rawtruncate` for a smaller size. -/
def shrink (f : FileHandle) (cfg : FileConfig) (io : TruncateIo) (size : Nat) :
    Int × FileHandle :=
  if size ≤ inlineMax cfg cfg.cfgBlockSize 8 then
    -- flush+seek to head
    let r := f.rawseek cfg io.seek 0 .set
    if r.1 < 0 then r
    else
      let r := r.2.flushedread io.read size
      if r.1 < 0 then r
      else (errOk, { r.2 with
        size
        content := r.2.content.take size
        isInline := true
        reading := true })
  else
    -- need to flush since directly changing metadata
    let r := f.flush io.seek.flush
    if r.1 ≠ errOk then r
    else match io.find with
      | some e => (e.code, r.2)
      | none =>
        (errOk, { r.2 with pos := size, size, content := r.2.content.take size, reading := true })

/-- The loop of `lfs_file_rawtruncate` that fills with zeros. Each write that succeeds moves the
position on, so `size - pos` rounds are enough. -/
def extendLoop (cfg : FileConfig) (io : TruncateIo) (size : Nat) :
    (fuel : Nat) → FileHandle → Int × FileHandle
  | 0, f => (errOk, f)
  | fuel + 1, f =>
    if f.pos < size then
      let r := f.rawwrite cfg io 0
      if r.1 < 0 then r else extendLoop cfg io size fuel r.2
    else (errOk, f)

/-- The branch of `lfs_file_rawtruncate` for a larger size. -/
def extend (f : FileHandle) (cfg : FileConfig) (io : TruncateIo) (size : Nat) :
    Int × FileHandle :=
  -- flush+seek if not already at end
  let r := f.rawseek cfg io.seek 0 .fromEnd
  if r.1 < 0 then r else extendLoop cfg io size (size - r.2.pos) r.2

/-- `lfs_file_rawtruncate`. -/
def rawtruncate (f : FileHandle) (cfg : FileConfig) (io : TruncateIo) (size : Nat) :
    Int × FileHandle :=
  if size > fileMax then (errInval, f)
  else
    let r := if size < f.rawsize then f.shrink cfg io size
      else if size > f.rawsize then f.extend cfg io size
      else (errOk, f)
    if r.1 < 0 then r
    else
      -- restore pos
      let r := r.2.rawseek cfg io.restore f.pos .set
      if r.1 < 0 then r else (errOk, r.2)

/-! ## What is seen through the handle -/

/-- Size, content and position are the same. -/
structure SameView (f f' : FileHandle) : Prop where
  size : f'.rawsize = f.rawsize
  content : f'.content = f.content
  pos : f'.pos = f.pos

/-- A call on `f` that answers with an error and changes nothing. -/
structure Refused (f : FileHandle) (r : Int × FileHandle) : Prop where
  err : r.1 < 0
  view : f.SameView r.2

/-- The flush needs the device, which fails. -/
def FlushFails (f : FileHandle) (fault : Option IoFault) : Prop :=
  f.writing = true ∧ f.isInline = false ∧ fault.isSome

/-- The flush fails before it has moved the position. -/
def FlushStops (f : FileHandle) (fault : Option IoFault) : Prop :=
  f.writing = true ∧ f.isInline = false ∧
    ∃ e, fault = some e ∧ min e.done (f.size - f.pos) = 0

variable {f f' : FileHandle} {cfg : FileConfig} {io : TruncateIo} {fault : Option IoFault}
  {size npos : Nat}

theorem SameView.refl (f : FileHandle) : f.SameView f := ⟨rfl, rfl, rfl⟩

theorem SameView.trans (h : f.SameView f') (h' : f'.SameView f'') : f.SameView f'' :=
  ⟨h'.size.trans h.size, h'.content.trans h.content, h'.pos.trans h.pos⟩

theorem Refused.of_neg {code : Int} (h : code < 0) : f.Refused (code, f) := ⟨h, .refl f⟩

@[simp] theorem setPos_pos (f : FileHandle) (pos : Nat) : (f.setPos pos).pos = pos := rfl

@[simp] theorem setPos_content (f : FileHandle) (pos : Nat) :
    (f.setPos pos).content = f.content := rfl

@[simp] theorem setPos_writing (f : FileHandle) (pos : Nat) :
    (f.setPos pos).writing = f.writing := rfl

theorem rawsize_of_writing (h : f.writing = true) : f.rawsize = max f.pos f.size := by
  rw [rawsize, if_pos h]

theorem rawsize_of_not_writing (h : f.writing = false) : f.rawsize = f.size := by
  rw [rawsize, if_neg (by rw [h]; exact Bool.false_ne_true)]

theorem setPos_rawsize (h : f.writing = false) (pos : Nat) :
    (f.setPos pos).rawsize = f.rawsize := by
  rw [rawsize_of_not_writing (f := f) h]
  exact rawsize_of_not_writing h

theorem FlushStops.fails (h : f.FlushStops fault) : f.FlushFails fault := by
  obtain ⟨hwriting, hinline, e, rfl, _⟩ := h
  exact ⟨hwriting, hinline, rfl⟩

/-! ## Flushing and seeking -/

/-- A flush that goes through. -/
theorem flush_ok (h : ¬ f.FlushFails fault) : (f.flush fault).1 = errOk ∧
    (f.flush fault).2.writing = false ∧ f.SameView (f.flush fault).2 := by
  cases hwriting : f.writing with
  | false =>
    simp only [flush, hwriting, Bool.false_eq_true, ↓reduceIte, true_and]
    exact ⟨by rw [rawsize_of_not_writing hwriting, rawsize_of_not_writing rfl], rfl, rfl⟩
  | true =>
    cases hinline : f.isInline with
    | true =>
      simp only [flush, hwriting, hinline, ↓reduceIte, true_and]
      exact ⟨by rw [rawsize_of_writing hwriting, rawsize_of_not_writing rfl], rfl, rfl⟩
    | false =>
      cases fault with
      | some e => exact absurd ⟨hwriting, hinline, rfl⟩ h
      | none =>
        simp only [flush, hwriting, hinline, ↓reduceIte, Bool.false_eq_true, true_and]
        exact ⟨by rw [rawsize_of_writing hwriting, rawsize_of_not_writing rfl], rfl, rfl⟩

/-- A flush that fails is seen in the position only. -/
theorem flush_fails (h : f.FlushFails fault) : (f.flush fault).1 < 0 ∧
    (f.flush fault).2.rawsize = f.rawsize ∧ (f.flush fault).2.content = f.content ∧
    ((f.flush fault).2.pos = f.pos ↔ f.FlushStops fault) := by
  obtain ⟨hwriting, hinline, hfault⟩ := h
  obtain ⟨e, rfl⟩ := Option.isSome_iff_exists.mp hfault
  simp only [flush, hwriting, hinline, ↓reduceIte, Bool.false_eq_true]
  refine ⟨e.err.neg, ?_, rfl, ?_⟩
  · rw [rawsize_of_writing hwriting, rawsize_of_writing rfl]
    change max (f.pos + min e.done (f.size - f.pos)) f.size = max f.pos f.size
    omega
  · rw [setPos_pos]
    constructor
    · exact fun hpos => ⟨hwriting, hinline, e, rfl, by omega⟩
    · rintro ⟨_, _, e', he, hdone⟩
      cases he
      omega

theorem refused_flush_iff : f.Refused (f.flush fault) ↔ f.FlushStops fault := by
  constructor
  · intro H
    by_cases h : f.FlushFails fault
    · exact (flush_fails h).2.2.2.mp H.view.pos
    · exact absurd H.err (by rw [(flush_ok h).1]; decide)
  · intro h
    obtain ⟨herr, hsize, hcontent, hpos⟩ := flush_fails h.fails
    exact ⟨herr, hsize, hcontent, hpos.mpr h⟩

/-- A seek to another position that goes through. -/
theorem seekTo_ok {sio : SeekIo} (hmax : npos ≤ cfg.fileMaxSize) (hpos : f.pos ≠ npos)
    (h : ¬ f.FlushFails sio.flush) : (f.seekTo cfg sio npos).1 = npos ∧
    (f.seekTo cfg sio npos).2.writing = false ∧ (f.seekTo cfg sio npos).2.pos = npos := by
  simp only [seekTo, gt_iff_lt, Nat.not_lt.mpr hmax, hpos, ↓reduceIte]
  split
  · exact ⟨rfl, (‹_ ∧ _›).1, rfl⟩
  · obtain ⟨herr, hwriting, _⟩ := flush_ok h
    simp only [herr, ne_eq, not_true_eq_false, ↓reduceIte, setPos_writing, hwriting, setPos_pos,
      and_self]

/-- A seek to another position whose flush fails. -/
theorem seekTo_fails {sio : SeekIo} (hmax : npos ≤ cfg.fileMaxSize) (hpos : f.pos ≠ npos)
    (h : f.FlushFails sio.flush) : f.seekTo cfg sio npos = f.flush sio.flush := by
  have herr := (flush_fails h).1
  have hne : (f.flush sio.flush).1 ≠ errOk := Int.ne_of_lt herr
  simp only [seekTo, gt_iff_lt, Nat.not_lt.mpr hmax, hpos, ↓reduceIte, h.1, Bool.true_eq_false,
    false_and, ne_eq, hne, not_false_eq_true]

/-- No seek is seen in the size or in the content. -/
theorem seekTo_view (f : FileHandle) (cfg : FileConfig) (sio : SeekIo) (npos : Nat) :
    (f.seekTo cfg sio npos).2.rawsize = f.rawsize ∧
    (f.seekTo cfg sio npos).2.content = f.content := by
  unfold seekTo
  split
  · exact ⟨rfl, rfl⟩
  split
  · exact ⟨rfl, rfl⟩
  split
  · exact ⟨setPos_rawsize (‹_ ∧ _›).1 npos, rfl⟩
  · by_cases h : f.FlushFails sio.flush
    · obtain ⟨herr, hsize, hcontent, _⟩ := flush_fails h
      have hne : (f.flush sio.flush).1 ≠ errOk := Int.ne_of_lt herr
      dsimp only
      rw [if_pos hne]
      exact ⟨hsize, hcontent⟩
    · obtain ⟨herr, hwriting, hview⟩ := flush_ok h
      dsimp only
      rw [if_neg (Decidable.not_not.mpr herr)]
      exact ⟨(setPos_rawsize hwriting npos).trans hview.size, hview.content⟩

/-! ## Extending -/

/-- The first write of a zero fails. -/
def WriteStops (f : FileHandle) (cfg : FileConfig) (io : TruncateIo) : Prop :=
  (f.reading = true ∧ f.FlushFails (io.dropReads f.pos)) ∨ f.pos = cfg.fileMaxSize ∨
    (io.write f.pos).isSome

/-- The position is at the end, which is in range. -/
structure AtEnd (f : FileHandle) (cfg : FileConfig) : Prop where
  pos : f.pos = f.rawsize
  le : f.pos ≤ cfg.fileMaxSize

theorem AtEnd.size_le (H : f.AtEnd cfg) : f.size ≤ f.pos := by
  have hpos := H.pos
  unfold rawsize at hpos
  split at hpos <;> omega

theorem AtEnd.of_view (H : f.AtEnd cfg) (h : f.SameView f') : f'.AtEnd cfg :=
  ⟨by rw [h.pos, h.size, H.pos], h.pos ▸ H.le⟩

/-- The drop of the reads before a write. -/
theorem dropReads_ok (h : ¬ (f.reading = true ∧ f.FlushFails fault)) :
    (if f.reading then f.flush fault else (errOk, f)).1 = errOk ∧
      f.SameView (if f.reading then f.flush fault else (errOk, f)).2 := by
  cases hreading : f.reading with
  | false => exact ⟨rfl, .refl f⟩
  | true =>
    obtain ⟨herr, _, hview⟩ := flush_ok fun hfails => h ⟨hreading, hfails⟩
    exact ⟨herr, hview⟩

/-- `lfs_file_rawwrite` at the end of the file, when its reads are dropped. -/
theorem AtEnd.rawwrite_eq (H : f.AtEnd cfg)
    (h : ¬ (f.reading = true ∧ f.FlushFails (io.dropReads f.pos))) (byte : UInt8) :
    ∃ f', f.SameView f' ∧ f.rawwrite cfg io byte =
      if f.pos + 1 > cfg.fileMaxSize then (errFbig, f')
      else f'.flushedwrite cfg (io.write f.pos) byte := by
  obtain ⟨herr, hview⟩ := dropReads_ok h
  have Hend := H.of_view hview
  obtain ⟨r, hr⟩ : ∃ r, (if f.reading then f.flush (io.dropReads f.pos) else (errOk, f)) = r :=
    ⟨_, rfl⟩
  rw [hr] at herr hview Hend
  refine ⟨r.2, hview, ?_⟩
  have hsize := Hend.size_le
  have happend : ¬ (r.2.append = true ∧ r.2.pos < r.2.size) := fun h => Nat.not_lt.mpr hsize h.2
  have hfill : ¬ (r.2.writing = false ∧ r.2.pos > r.2.size) := by
    rintro ⟨hwriting, hgt⟩
    have hpos := Hend.pos
    rw [rawsize_of_not_writing hwriting] at hpos
    omega
  have hok : ¬ errOk < 0 := by decide
  unfold rawwrite
  dsimp only
  rw [hr, if_neg (Decidable.not_not.mpr herr), if_neg happend, if_neg hfill]
  dsimp only
  rw [if_neg hok, hview.pos]

/-- **A zero written at the end.** It is refused, or the file has grown by it. -/
theorem AtEnd.rawwrite_cases (H : f.AtEnd cfg) (io : TruncateIo) (byte : UInt8) :
    (f.WriteStops cfg io ∧ f.Refused (f.rawwrite cfg io byte)) ∨
    (¬ f.WriteStops cfg io ∧ (f.rawwrite cfg io byte).1 = 1 ∧
      (f.rawwrite cfg io byte).2.AtEnd cfg ∧ (f.rawwrite cfg io byte).2.pos = f.pos + 1) := by
  by_cases hdrop : f.reading = true ∧ f.FlushFails (io.dropReads f.pos)
  · refine .inl ⟨.inl hdrop, ?_⟩
    obtain ⟨herr, hsize, hcontent, hpos⟩ := flush_fails hdrop.2
    have hne : (f.flush (io.dropReads f.pos)).1 ≠ errOk := Int.ne_of_lt herr
    obtain ⟨e, he⟩ := Option.isSome_iff_exists.mp hdrop.2.2.2
    -- there is nothing to copy behind the end
    have hstops : f.FlushStops (io.dropReads f.pos) :=
      ⟨hdrop.2.1, hdrop.2.2.1, e, he, by have := H.size_le; omega⟩
    simp only [rawwrite, hdrop.1, ↓reduceIte, ne_eq, hne, not_false_eq_true]
    exact ⟨herr, hsize, hcontent, hpos.mpr hstops⟩
  · obtain ⟨f', hview, heq⟩ := H.rawwrite_eq hdrop byte
    rw [heq]
    by_cases hmax : f.pos = cfg.fileMaxSize
    · rw [if_pos (by omega)]
      exact .inl ⟨.inr (.inl hmax), ⟨show errFbig < 0 by decide, hview⟩⟩
    · have hlt : f.pos < cfg.fileMaxSize := Nat.lt_of_le_of_ne H.le hmax
      rw [if_neg (by omega)]
      cases hfault : io.write f.pos with
      | some e =>
        refine .inl ⟨.inr (.inr (by rw [hfault]; rfl)), e.err.neg, ?_⟩
        refine ⟨?_, hview.content, hview.pos⟩
        have hsize := (H.of_view hview).size_le
        have hpos := (H.of_view hview).pos
        change ({ f' with writing := f'.writing || e.begun } : FileHandle).rawsize = f.rawsize
        rw [← hview.size, ← hpos]
        by_cases hwriting : (f'.writing || e.begun) = true
        · rw [rawsize_of_writing hwriting]
          exact Nat.max_eq_left hsize
        · rw [rawsize_of_not_writing (Bool.eq_false_of_not_eq_true hwriting)]
          have hnot : f'.writing = false := by
            cases h : f'.writing with
            | false => rfl
            | true => exact absurd (by rw [h]; rfl) hwriting
          rw [hpos, rawsize_of_not_writing hnot]
      | none =>
        refine .inr ⟨?_, rfl, ⟨?_, ?_⟩, ?_⟩
        · rintro (h | h | h)
          · exact hdrop h
          · exact hmax h
          · rw [hfault] at h
            cases h
        · have hsize := (H.of_view hview).size_le
          rw [rawsize_of_writing rfl]
          change f'.pos + 1 = max (f'.pos + 1) f'.size
          omega
        · change f'.pos + 1 ≤ cfg.fileMaxSize
          rw [hview.pos]
          exact hlt
        · change f'.pos + 1 = f.pos + 1
          rw [hview.pos]

/-- **The run of zeros.** It cannot come to the end, and it has grown the file unless its first
write stops it. -/
theorem AtEnd.extendLoop_cases (H : f.AtEnd cfg) (io : TruncateIo)
    (hsize : cfg.fileMaxSize < size) (fuel : Nat) (hfuel : cfg.fileMaxSize < f.pos + fuel) :
    (f.WriteStops cfg io ∧ f.Refused (extendLoop cfg io size fuel f)) ∨
    (¬ f.WriteStops cfg io ∧ (extendLoop cfg io size fuel f).1 < 0 ∧
      f.rawsize < (extendLoop cfg io size fuel f).2.rawsize) := by
  induction fuel generalizing f with
  | zero => exact absurd H.le (by omega)
  | succ fuel ih =>
    have hlt : f.pos < size := Nat.lt_of_le_of_lt H.le hsize
    rw [extendLoop, if_pos hlt]
    rcases H.rawwrite_cases io 0 with ⟨hstop, hrefused⟩ | ⟨hstop, hone, Hnext, hpos⟩
    · dsimp only
      rw [if_pos hrefused.err]
      exact .inl ⟨hstop, hrefused⟩
    · have hgrown : (f.rawwrite cfg io 0).2.rawsize = f.rawsize + 1 := by
        rw [← Hnext.pos, hpos, H.pos]
      dsimp only
      rw [if_neg (by rw [hone]; decide)]
      refine .inr ⟨hstop, ?_⟩
      rcases ih Hnext (by omega) with ⟨_, hrefused⟩ | ⟨_, herr, hsize'⟩
      · exact ⟨hrefused.err, by rw [hrefused.view.size, hgrown]; omega⟩
      · exact ⟨herr, by omega⟩

/-- What stops an extension before it changes anything: the end is out of range, the flush of the
seek to it fails, or the handle is there and the first zero is not written. -/
def ExtendStops (f : FileHandle) (cfg : FileConfig) (io : TruncateIo) : Prop :=
  cfg.fileMaxSize < f.rawsize ∨ (f.pos ≠ f.rawsize ∧ f.FlushStops io.seek.flush) ∨
    (f.pos = f.rawsize ∧ f.WriteStops cfg io)

theorem extend_eq (f : FileHandle) (cfg : FileConfig) (io : TruncateIo) (size : Nat) :
    f.extend cfg io size =
      if (f.seekTo cfg io.seek f.rawsize).1 < 0 then f.seekTo cfg io.seek f.rawsize
      else extendLoop cfg io size (size - (f.seekTo cfg io.seek f.rawsize).2.pos)
        (f.seekTo cfg io.seek f.rawsize).2 := by
  have hpos : ¬ ((f.rawsize : Int) < 0) := by omega
  simp only [extend, rawseek, Int.add_zero, hpos, ↓reduceIte, Int.toNat_natCast]

/-- An extension past `file_max_size` always fails. -/
theorem extend_refused_iff (f : FileHandle) (io : TruncateIo) (hsize : cfg.fileMaxSize < size) :
    (f.extend cfg io size).1 < 0 ∧
      (f.Refused (f.extend cfg io size) ↔ f.ExtendStops cfg io) := by
  rw [extend_eq]
  by_cases hmax : cfg.fileMaxSize < f.rawsize
  · have hseek : f.seekTo cfg io.seek f.rawsize = (errInval, f) := if_pos hmax
    have herr : errInval < 0 := by decide
    rw [hseek, if_pos herr]
    exact ⟨herr, fun _ => .inl hmax, fun _ => .of_neg herr⟩
  have hle : f.rawsize ≤ cfg.fileMaxSize := Nat.le_of_not_lt hmax
  by_cases hpos : f.pos = f.rawsize
  · -- the handle is at the end
    have hseek : f.seekTo cfg io.seek f.rawsize = ((f.rawsize : Int), f) := by
      rw [seekTo, if_neg hmax, if_pos hpos]
    have hnonneg : ¬ ((f.rawsize : Int) < 0) := by omega
    rw [hseek]
    dsimp only
    rw [if_neg hnonneg]
    have H : f.AtEnd cfg := ⟨hpos, hpos ▸ hle⟩
    rcases H.extendLoop_cases io hsize (size - f.pos) (by omega) with
      ⟨hstop, hrefused⟩ | ⟨hstop, herr, hgrown⟩
    · exact ⟨hrefused.err, fun _ => .inr (.inr ⟨hpos, hstop⟩), fun _ => hrefused⟩
    · refine ⟨herr, fun h => absurd h.view.size (Nat.ne_of_gt hgrown), ?_⟩
      rintro (h | ⟨h, _⟩ | ⟨_, h⟩)
      · exact absurd h hmax
      · exact absurd hpos h
      · exact absurd h hstop
  by_cases hfails : f.FlushFails io.seek.flush
  · rw [seekTo_fails hle hpos hfails, if_pos (flush_fails hfails).1]
    refine ⟨(flush_fails hfails).1, ?_⟩
    rw [refused_flush_iff]
    constructor
    · exact fun h => .inr (.inl ⟨hpos, h⟩)
    · rintro (h | ⟨_, h⟩ | ⟨h, _⟩)
      · exact absurd h hmax
      · exact h
      · exact absurd h hpos
  · -- the seek has moved the position, and nothing moves it back
    obtain ⟨hres, hwriting, hnpos⟩ := seekTo_ok hle hpos hfails
    have hview : (f.seekTo cfg io.seek f.rawsize).2.rawsize = f.rawsize :=
      (f.seekTo_view cfg io.seek _).1
    obtain ⟨r, hr⟩ : ∃ r, f.seekTo cfg io.seek f.rawsize = r := ⟨_, rfl⟩
    rw [hr] at hres hnpos hview ⊢
    have hnonneg : ¬ (r.1 < 0) := by
      rw [hres]
      omega
    rw [if_neg hnonneg]
    have H : r.2.AtEnd cfg := ⟨hnpos.trans hview.symm, hnpos ▸ hle⟩
    have hnot : ¬ f.ExtendStops cfg io := by
      rintro (h | ⟨_, h⟩ | ⟨h, _⟩)
      · exact absurd h hmax
      · exact absurd h.fails hfails
      · exact absurd h hpos
    rcases H.extendLoop_cases io hsize (size - r.2.pos) (by omega) with
      ⟨_, hrefused⟩ | ⟨_, herr, hgrown⟩
    · refine ⟨hrefused.err, fun h => ?_, fun h => absurd h hnot⟩
      have hsame := h.view.pos.symm.trans (hrefused.view.pos.trans hnpos)
      exact absurd hsame hpos
    · refine ⟨herr, fun h => ?_, fun h => absurd h hnot⟩
      have hsame := h.view.size
      omega

/-! ## Shrinking -/

/-- What stops a shrink without a trace: a flush that fails before it has moved the position, a read
that fails where the position was, a lookup of the new head that fails. -/
def ShrinkStops (f : FileHandle) (cfg : FileConfig) (io : TruncateIo) (size : Nat) : Prop :=
  if size ≤ inlineMax cfg cfg.cfgBlockSize 8 then
    (f.pos ≠ 0 ∧ f.FlushStops io.seek.flush) ∨
      (¬ (f.pos ≠ 0 ∧ f.FlushFails io.seek.flush) ∧
        ∃ e, io.read = some e ∧ min e.done size = f.pos)
  else f.FlushStops io.seek.flush ∨ (¬ f.FlushFails io.seek.flush ∧ io.find.isSome)

/-- How a shrink ends: refused, failed with a trace, or done. -/
inductive ShrinkEnd (f : FileHandle) (cfg : FileConfig) (io : TruncateIo) (size : Nat)
    (r : Int × FileHandle) : Prop where
  | refused : f.ShrinkStops cfg io size → f.Refused r → ShrinkEnd f cfg io size r
  | failed : ¬ f.ShrinkStops cfg io size → r.1 < 0 → ¬ f.SameView r.2 → ShrinkEnd f cfg io size r
  | done : ¬ f.ShrinkStops cfg io size → r.1 = errOk → r.2.rawsize = size →
      ShrinkEnd f cfg io size r

theorem rawsize_of_pos_zero (h : f.pos = 0) : f.rawsize = f.size := by
  unfold rawsize
  split
  · rw [h, Nat.zero_max]
  · rfl

/-- The read of what stays, from the head on. -/
theorem flushedread_fault (hpos : f.pos = 0) (hsize : size < f.rawsize) (e : IoFault) :
    f.flushedread (some e) size =
      (e.err.code, { f with pos := min e.done size, reading := f.reading || e.begun }) := by
  have hlt : size < f.size := rawsize_of_pos_zero hpos ▸ hsize
  have hmin : min size f.size = size := Nat.min_eq_left (Nat.le_of_lt hlt)
  have hnot : ¬ 0 ≥ f.size := by omega
  unfold flushedread
  rw [hpos, if_neg hnot, Nat.sub_zero, hmin]
  simp only [Nat.zero_add]

theorem flushedread_ok (hpos : f.pos = 0) (hsize : size < f.rawsize) :
    f.flushedread none size =
      ((size : Int), { f with pos := size, reading := f.reading || decide (0 < size) }) := by
  have hlt : size < f.size := rawsize_of_pos_zero hpos ▸ hsize
  have hmin : min size f.size = size := Nat.min_eq_left (Nat.le_of_lt hlt)
  have hnot : ¬ 0 ≥ f.size := by omega
  unfold flushedread
  rw [hpos, if_neg hnot, Nat.sub_zero, hmin]
  simp only [Nat.zero_add]

/-- The seek of a shrink to the head. -/
theorem seek_head (f : FileHandle) (cfg : FileConfig) (sio : SeekIo) :
    ((f.pos ≠ 0 ∧ f.FlushFails sio.flush) ∧ f.rawseek cfg sio 0 .set = f.flush sio.flush) ∨
    (¬ (f.pos ≠ 0 ∧ f.FlushFails sio.flush) ∧ (f.rawseek cfg sio 0 .set).1 = 0 ∧
      (f.rawseek cfg sio 0 .set).2.pos = 0) := by
  have hseek : f.rawseek cfg sio 0 .set = f.seekTo cfg sio 0 := rfl
  rw [hseek]
  by_cases hpos : f.pos = 0
  · have hnoop : f.seekTo cfg sio 0 = (0, f) := by
      rw [seekTo, if_neg (Nat.not_lt_zero _), if_pos hpos]
      rfl
    rw [hnoop]
    exact .inr ⟨fun h => h.1 hpos, rfl, hpos⟩
  · by_cases hfails : f.FlushFails sio.flush
    · exact .inl ⟨⟨hpos, hfails⟩, seekTo_fails (Nat.zero_le _) hpos hfails⟩
    · obtain ⟨hres, _, hnpos⟩ := seekTo_ok (Nat.zero_le cfg.fileMaxSize) hpos hfails
      exact .inr ⟨fun h => hfails h.2, hres, hnpos⟩

/-- The shrink that makes the file inline. -/
theorem shrink_inline (hinline : size ≤ inlineMax cfg cfg.cfgBlockSize 8)
    (hsize : size < f.rawsize) : f.ShrinkEnd cfg io size (f.shrink cfg io size) := by
  have hstops : f.ShrinkStops cfg io size ↔ (f.pos ≠ 0 ∧ f.FlushStops io.seek.flush) ∨
      (¬ (f.pos ≠ 0 ∧ f.FlushFails io.seek.flush) ∧
        ∃ e, io.read = some e ∧ min e.done size = f.pos) := by
    rw [ShrinkStops, if_pos hinline]
  rcases f.seek_head cfg io.seek with ⟨hfails, hseek⟩ | ⟨hok, hres, hpos⟩
  · have hflush := flush_fails hfails.2
    have heq : f.shrink cfg io size = f.flush io.seek.flush := by
      simp only [shrink, hinline, ↓reduceIte, hseek, hflush.1]
    rw [heq]
    by_cases h : f.FlushStops io.seek.flush
    · exact .refused (hstops.mpr (.inl ⟨hfails.1, h⟩)) (refused_flush_iff.mpr h)
    · refine .failed (fun hs => ?_) hflush.1 fun hview => h (hflush.2.2.2.mp hview.pos)
      rcases hstops.mp hs with hs | hs
      · exact h hs.2
      · exact hs.1 hfails
  · have hview := f.seekTo_view cfg io.seek 0
    change (f.rawseek cfg io.seek 0 .set).2.rawsize = _ ∧
      (f.rawseek cfg io.seek 0 .set).2.content = _ at hview
    obtain ⟨r, hr⟩ : ∃ r, f.rawseek cfg io.seek 0 .set = r := ⟨_, rfl⟩
    rw [hr] at hres hpos hview
    have hsize' : size < r.2.rawsize := hview.1 ▸ hsize
    have hnonneg : ¬ r.1 < 0 := by
      rw [hres]
      decide
    cases hread : io.read with
    | some e =>
      have heq : f.shrink cfg io size = (e.err.code,
          { r.2 with pos := min e.done size, reading := r.2.reading || e.begun }) := by
        simp only [shrink, hinline, ↓reduceIte, hr, hnonneg, hread,
          flushedread_fault hpos hsize' e, e.err.neg]
      have hsame : (f.shrink cfg io size).2.rawsize = f.rawsize := by
        rw [heq, ← hview.1, rawsize_of_pos_zero hpos]
        have := rawsize_of_pos_zero hpos
        unfold rawsize
        dsimp only
        split <;> omega
      by_cases h : min e.done size = f.pos
      · refine .refused (hstops.mpr (.inr ⟨hok, e, hread, h⟩)) ⟨?_, hsame, ?_, ?_⟩
        · rw [heq]
          exact e.err.neg
        · rw [heq]
          exact hview.2
        · rw [heq]
          exact h
      · refine .failed (fun hs => ?_) (by rw [heq]; exact e.err.neg) fun hsv => h ?_
        · rcases hstops.mp hs with hs | ⟨_, e', he, hdone⟩
          · exact hok ⟨hs.1, hs.2.fails⟩
          · rw [hread] at he
            cases he
            exact h hdone
        · have hp := hsv.pos
          rw [heq] at hp
          exact hp
    | none =>
      refine .done (fun hs => ?_) ?_ ?_
      · rcases hstops.mp hs with hs | ⟨_, e, he, _⟩
        · exact hok ⟨hs.1, hs.2.fails⟩
        · rw [hread] at he
          cases he
      · simp only [shrink, hinline, ↓reduceIte, hr, hnonneg, hread, flushedread_ok hpos hsize',
          show ¬ ((size : Int) < 0) by omega]
      · simp only [shrink, hinline, ↓reduceIte, hr, hnonneg, hread, flushedread_ok hpos hsize',
          show ¬ ((size : Int) < 0) by omega, rawsize, Nat.max_self, ite_self]

/-- The shrink that cuts the list. -/
theorem shrink_ctz (hinline : ¬ size ≤ inlineMax cfg cfg.cfgBlockSize 8) :
    f.ShrinkEnd cfg io size (f.shrink cfg io size) := by
  have hstops : f.ShrinkStops cfg io size ↔ f.FlushStops io.seek.flush ∨
      (¬ f.FlushFails io.seek.flush ∧ io.find.isSome) := by
    rw [ShrinkStops, if_neg hinline]
  by_cases hfails : f.FlushFails io.seek.flush
  · have hflush := flush_fails hfails
    have hne : (f.flush io.seek.flush).1 ≠ errOk := Int.ne_of_lt hflush.1
    have heq : f.shrink cfg io size = f.flush io.seek.flush := by
      simp only [shrink, hinline, ↓reduceIte, ne_eq, hne, not_false_eq_true]
    rw [heq]
    by_cases h : f.FlushStops io.seek.flush
    · exact .refused (hstops.mpr (.inl h)) (refused_flush_iff.mpr h)
    · refine .failed (fun hs => ?_) hflush.1 fun hview => h (hflush.2.2.2.mp hview.pos)
      rcases hstops.mp hs with hs | hs
      · exact h hs
      · exact hs.1 hfails
  · obtain ⟨herr, hwriting, hview⟩ := flush_ok hfails
    cases hfind : io.find with
    | some e =>
      have heq : f.shrink cfg io size = (e.code, (f.flush io.seek.flush).2) := by
        simp only [shrink, hinline, ↓reduceIte, herr, ne_eq, not_true_eq_false, hfind]
      rw [heq]
      exact .refused (hstops.mpr (.inr ⟨hfails, by rw [hfind]; rfl⟩)) ⟨e.neg, hview⟩
    | none =>
      refine .done (fun hs => ?_) ?_ ?_
      · rcases hstops.mp hs with hs | ⟨_, hs⟩
        · exact hfails hs.fails
        · rw [hfind] at hs
          cases hs
      · simp only [shrink, hinline, ↓reduceIte, herr, ne_eq, not_true_eq_false, hfind]
      · simp only [shrink, hinline, ↓reduceIte, herr, ne_eq, not_true_eq_false, hfind, rawsize,
          Nat.max_self, ite_self]

theorem shrink_end (f : FileHandle) (cfg : FileConfig) (io : TruncateIo)
    (hsize : size < f.rawsize) : f.ShrinkEnd cfg io size (f.shrink cfg io size) := by
  by_cases hinline : size ≤ inlineMax cfg cfg.cfgBlockSize 8
  · exact shrink_inline hinline hsize
  · exact shrink_ctz hinline

/-! ## The call -/

/-- What stops a truncate to a size past `file_max_size` before it changes anything. -/
def TruncateStops (f : FileHandle) (cfg : FileConfig) (io : TruncateIo) (size : Nat) : Prop :=
  fileMax < size ∨ (f.rawsize < size ∧ f.ExtendStops cfg io) ∨
    (f.rawsize = size ∧ cfg.fileMaxSize < f.pos) ∨ (size < f.rawsize ∧ f.ShrinkStops cfg io size)

/-- The seek back to the old position. -/
theorem rawseek_set (f : FileHandle) (cfg : FileConfig) (sio : SeekIo) (pos : Nat) :
    f.rawseek cfg sio pos .set = f.seekTo cfg sio pos := by
  have hpos : ¬ ((pos : Int) < 0) := by omega
  simp only [rawseek, hpos, ↓reduceIte, Int.toNat_natCast]

theorem rawtruncate_of_neg {r : Int × FileHandle} (hmax : size ≤ fileMax)
    (hr : (if size < f.rawsize then f.shrink cfg io size
      else if size > f.rawsize then f.extend cfg io size else (errOk, f)) = r) (h : r.1 < 0) :
    f.rawtruncate cfg io size = r := by
  simp only [rawtruncate, gt_iff_lt, Nat.not_lt.mpr hmax, ↓reduceIte]
  simp only [gt_iff_lt] at hr
  rw [hr, if_pos h]

theorem rawtruncate_of_ok {r : Int × FileHandle} (hmax : size ≤ fileMax)
    (hr : (if size < f.rawsize then f.shrink cfg io size
      else if size > f.rawsize then f.extend cfg io size else (errOk, f)) = r) (h : r.1 = errOk) :
    f.rawtruncate cfg io size =
      if (r.2.seekTo cfg io.restore f.pos).1 < 0 then r.2.seekTo cfg io.restore f.pos
      else (errOk, (r.2.seekTo cfg io.restore f.pos).2) := by
  have hnot : ¬ r.1 < 0 := by
    rw [h]
    decide
  simp only [rawtruncate, gt_iff_lt, Nat.not_lt.mpr hmax, ↓reduceIte]
  simp only [gt_iff_lt] at hr
  rw [hr, if_neg hnot, rawseek_set]

/-- **A truncate past `file_max_size`.** It is refused with nothing changed only when it stops
before its first step. -/
theorem rawtruncate_refused_iff (hsize : cfg.fileMaxSize < size) :
    f.Refused (f.rawtruncate cfg io size) ↔ f.TruncateStops cfg io size := by
  by_cases hmax : fileMax < size
  · have heq : f.rawtruncate cfg io size = (errInval, f) := if_pos hmax
    rw [heq]
    exact ⟨fun _ => .inl hmax, fun _ => .of_neg (by decide)⟩
  have hle : size ≤ fileMax := Nat.le_of_not_lt hmax
  rcases Nat.lt_trichotomy size f.rawsize with hlt | heq | hgt
  · -- a shrink
    have hstops : f.TruncateStops cfg io size ↔ f.ShrinkStops cfg io size := by
      unfold TruncateStops
      constructor
      · rintro (h | ⟨h, _⟩ | ⟨h, _⟩ | ⟨_, h⟩)
        · exact absurd h hmax
        · omega
        · omega
        · exact h
      · exact fun h => .inr (.inr (.inr ⟨hlt, h⟩))
    have hr : (if size < f.rawsize then f.shrink cfg io size
      else if size > f.rawsize then f.extend cfg io size else (errOk, f)) = f.shrink cfg io size :=
      if_pos hlt
    rw [hstops]
    cases f.shrink_end cfg io hlt with
    | refused hstop hrefused =>
      rw [rawtruncate_of_neg hle hr hrefused.err]
      exact ⟨fun _ => hstop, fun _ => hrefused⟩
    | failed hstop herr hview =>
      rw [rawtruncate_of_neg hle hr herr]
      exact ⟨fun h => absurd h.view hview, fun h => absurd h hstop⟩
    | done hstop hok hnew =>
      refine ⟨fun h => ?_, fun h => absurd h hstop⟩
      have hview := ((f.shrink cfg io size).2.seekTo_view cfg io.restore f.pos).1
      have hsame := h.view.size
      rw [rawtruncate_of_ok hle hr hok] at hsame
      split at hsame
      · omega
      · dsimp only at hsame
        omega
  · -- no change of size
    have hr : (if size < f.rawsize then f.shrink cfg io size
        else if size > f.rawsize then f.extend cfg io size else (errOk, f)) = (errOk, f) := by
      rw [if_neg (by omega), if_neg (by omega)]
    rw [rawtruncate_of_ok hle hr rfl]
    by_cases hpos : cfg.fileMaxSize < f.pos
    · have hseek : f.seekTo cfg io.restore f.pos = (errInval, f) := if_pos hpos
      have herr : errInval < 0 := by decide
      dsimp only
      rw [hseek, if_pos herr]
      exact ⟨fun _ => .inr (.inr (.inl ⟨heq.symm, hpos⟩)), fun _ => .of_neg herr⟩
    · have hseek : f.seekTo cfg io.restore f.pos = ((f.pos : Int), f) := by
        rw [seekTo, if_neg hpos, if_pos rfl]
      have hnonneg : ¬ ((f.pos : Int) < 0) := by omega
      dsimp only
      rw [hseek]
      dsimp only
      rw [if_neg hnonneg]
      refine ⟨fun h => absurd h.err (show ¬ errOk < 0 by decide), ?_⟩
      rintro (h | ⟨h, _⟩ | ⟨_, h⟩ | ⟨h, _⟩)
      · exact absurd h hmax
      · omega
      · exact absurd h hpos
      · omega
  · -- an extension
    obtain ⟨herr, hiff⟩ := f.extend_refused_iff io hsize
    have hr : (if size < f.rawsize then f.shrink cfg io size
        else if size > f.rawsize then f.extend cfg io size else (errOk, f)) =
        f.extend cfg io size := by
      rw [if_neg (by omega), if_pos hgt]
    rw [rawtruncate_of_neg hle hr herr, hiff]
    constructor
    · exact fun h => .inr (.inl ⟨hgt, h⟩)
    · rintro (h | ⟨_, h⟩ | ⟨h, _⟩ | ⟨h, _⟩)
      · exact absurd h hmax
      · exact h
      · omega
      · omega

/-- The small filesystem of the examples: files of at most twelve bytes. -/
def twelveBytes : FileConfig where
  blockSize := 128
  cfgBlockSize := 128
  cacheSize := 64
  metadataMax := 0
  fileMaxSize := 12
  fileMaxSize_le := by decide

/-- A file that is full already, with the position at its end. -/
theorem rawtruncate_refused_full :
    twelveBytes.fileMaxSize < 20 ∧
      Refused ⟨12, 12, List.replicate 12 7, true, false, false, false⟩
        (rawtruncate ⟨12, 12, List.replicate 12 7, true, false, false, false⟩ twelveBytes {} 20) :=
  ⟨by decide, (rawtruncate_refused_iff (by decide)).mpr
    (.inr (.inl ⟨by decide, .inr (.inr ⟨rfl, .inr (.inl rfl)⟩)⟩))⟩

/-- An inline file of ten bytes, read up to the third: the refused truncate leaves twelve bytes and
the position at their end. -/
theorem rawtruncate_grows :
    (rawtruncate ⟨3, 10, List.replicate 10 7, true, false, true, false⟩ twelveBytes {} 20).1 =
        errFbig ∧
      (rawtruncate ⟨3, 10, List.replicate 10 7, true, false, true, false⟩
        twelveBytes {} 20).2.content = List.replicate 10 7 ++ [0, 0] ∧
      (rawtruncate ⟨3, 10, List.replicate 10 7, true, false, true, false⟩
        twelveBytes {} 20).2.pos = 12 ∧
      ¬ Refused ⟨3, 10, List.replicate 10 7, true, false, true, false⟩
        (rawtruncate ⟨3, 10, List.replicate 10 7, true, false, true, false⟩ twelveBytes {} 20) := by
  refine ⟨by decide, by decide, by decide, fun h => ?_⟩
  exact absurd h.view.pos (by decide)

end FileHandle
end LittleFs
