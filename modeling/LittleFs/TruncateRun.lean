import LittleFs.HandleRun

/-! `lfs_file_rawwrite` of one byte and `lfs_file_rawtruncate`, whose loops write a zero at each
position: the calls on a handle with the caches and the device behind it are calls on `FileHandle`,
in which each position has the answer that its write has met. -/

namespace LittleFs

open StateLogic StateLogic.Prog

/-- `lfs_file_rawwrite` of one byte once any reads are dropped. -/
def FileHandle.writeBehind (f : FileHandle) (cfg : FileConfig) (io : TruncateIo) (byte : UInt8) :
    Int × FileHandle :=
  let f := if f.append ∧ f.pos < f.size then f.setPos f.size else f
  if f.pos + 1 > cfg.fileMaxSize then (errFbig, f)
  else
    let r := if f.writing = false ∧ f.pos > f.size then
        fillZeros cfg io.write (f.pos - f.size) (f.setPos f.size)
      else (errOk, f)
    if r.1 < 0 then r else r.2.flushedwrite cfg (io.write r.2.pos) byte

theorem FileHandle.rawwrite_eq (f : FileHandle) (cfg : FileConfig) (io : TruncateIo)
    (byte : UInt8) : f.rawwrite cfg io byte =
      let r := if f.reading then f.flush (io.dropReads f.pos) else (errOk, f)
      if r.1 ≠ errOk then r else r.2.writeBehind cfg io byte := rfl

namespace FileIo

variable {cfg : Config} {w : World} {s s' s'' : State} {h : FileHandle}
  (hmax : cfg.fileMaxSize ≤ fileMax)

/-! ## A write of one byte -/

/-- The zeros up to a position, each with the answer to its write. -/
theorem fillZeros_answers (H : s.file.Shows h) (pos fuel : Nat) :
    Returns (fillZeros cfg w pos fuel) s fun res s' =>
      ∃ r, s'.AnswersButInline res r ∧ (0 ≤ res → r.2.pos = max h.pos pos) ∧
        ∃ faults : Nat → Option IoFault, ∀ faults',
          (∀ q, h.pos ≤ q → q < pos → faults' q = faults q) →
            FileHandle.fillZeros (cfg.handles hmax) faults' (pos - h.pos) h = r := by
  induction fuel generalizing s h with
  | zero => exact .stop
  | succ fuel ih =>
    refine .get_bind (.ite (fun hpos => ?_) fun hpos => .pure ⟨(errOk, h), .inl ⟨rfl, H⟩, ?_, ?_⟩)
    · have hlt : h.pos < pos := H.pos ▸ hpos
      have hcount : pos - h.pos = (pos - (h.pos + 1)) + 1 := by omega
      refine .bind (flushedwrite_answers hmax H 0) fun res s' h' => ?_
      obtain ⟨fault, hwrite, hmoved⟩ := h'
      have hres := State.AnswersButInline.result hwrite
      refine .ite (fun hneg => .pure ⟨_, hwrite, fun h => by omega, fun _ => fault, ?_⟩)
        fun hneg => ?_
      · intro faults' hfaults
        rw [hcount, FileHandle.fillZeros, hfaults h.pos (Nat.le_refl _) hlt]
        exact if_pos (by rwa [hres])
      · have M := hwrite.answers (Int.not_lt.mp hneg)
        have hnext : (h.flushedwrite (cfg.handles hmax) fault 0).2.pos = h.pos + 1 := by
          rw [M.shows.pos, hmoved (Int.not_lt.mp hneg), H.pos]
        refine (ih M.shows).mono fun res s'' h' => ?_
        obtain ⟨r, hr, hpos', faults, hall⟩ := h'
        rw [hnext] at hpos' hall
        refine ⟨r, hr, fun h => (hpos' h).trans (by omega), Function.update faults h.pos fault,
          fun faults' hfaults => ?_⟩
        have hfault : faults' h.pos = fault := by
          rw [hfaults h.pos (Nat.le_refl _) hlt, Function.update_self]
        rw [hcount, FileHandle.fillZeros, hfault]
        refine (if_neg (by rwa [hres])).trans (hall faults' fun q hlo hhi => ?_)
        rw [hfaults q (by omega) hhi, Function.update_of_ne (by omega)]
    · rw [H.pos]
      exact fun _ => by omega
    · refine ⟨fun _ => none, fun _ _ => ?_⟩
      rw [Nat.sub_eq_zero_of_le (by rw [H.pos]; omega)]
      rfl

theorem writeBehind_answers (H : s.file.Shows h) (byte : UInt8) :
    Returns (writeBehind cfg w [byte]) s fun res s' =>
      ∃ r, s'.AnswersButInline res r ∧ ∃ writes : Nat → Option IoFault, ∀ io : TruncateIo,
        (∀ q, min h.pos h.rawsize ≤ q → q ≤ max h.pos h.rawsize → io.write q = writes q) →
          h.writeBehind (cfg.handles hmax) io byte = r := by
  obtain ⟨g, hg⟩ : ∃ g, (if h.append ∧ h.pos < h.size then h.setPos h.size else h) = g := ⟨_, rfl⟩
  obtain ⟨f, hf⟩ : ∃ f, (if s.file.append ∧ s.file.pos < s.file.size then
      { s.file with pos := s.file.size } else s.file) = f := ⟨_, rfl⟩
  have Hg : f.Shows g := by
    rw [← hg, ← hf, H.append, H.pos, H.size]
    split
    · exact ⟨rfl, H.size, H.append, H.reading, H.writing, H.isInline⟩
    · exact H
  have hbound : min h.pos h.rawsize ≤ g.pos ∧ g.pos ≤ max h.pos h.rawsize ∧
      (g.writing = false → min h.pos h.rawsize ≤ g.size) := by
    by_cases hc : h.append = true ∧ h.pos < h.size
    · obtain rfl := (if_pos hc).symm.trans hg
      have hle : min h.pos h.rawsize ≤ h.size := (Nat.min_le_left ..).trans (Nat.le_of_lt hc.2)
      refine ⟨hle, le_trans ?_ (Nat.le_max_right ..), fun _ => hle⟩
      rw [FileHandle.setPos_pos, FileHandle.rawsize]
      split
      · exact Nat.le_max_right ..
      · exact Nat.le_refl _
    · obtain rfl := (if_neg hc).symm.trans hg
      refine ⟨Nat.min_le_left .., Nat.le_max_left .., fun hw => ?_⟩
      rw [FileHandle.rawsize_of_not_writing hw]
      exact Nat.min_le_right ..
  have heq : ∀ io, h.writeBehind (cfg.handles hmax) io byte =
      if f.pos + 1 > cfg.fileMaxSize then (errFbig, g)
      else
        let r := if f.writing = false ∧ f.pos > f.size then
            FileHandle.fillZeros (cfg.handles hmax) io.write (g.pos - g.size) (g.setPos g.size)
          else (errOk, g)
        if r.1 < 0 then r
        else r.2.flushedwrite (cfg.handles hmax) (io.write r.2.pos) byte := fun io => by
    rw [FileHandle.writeBehind, hg, ← Hg.pos, ← Hg.size, ← Hg.writing]
    rfl
  refine .modify_bind id (.get_bind ?_)
  rw [State.modFile, hf]
  refine .ite (fun (hlarge : f.pos + 1 > cfg.fileMaxSize) => .pure ⟨(errFbig, g), .inl ⟨rfl, Hg⟩,
    fun _ => none, fun _ _ => ?_⟩) fun (hlarge : ¬ f.pos + 1 > cfg.fileMaxSize) => ?_
  · rw [heq, if_pos hlarge]
  refine .bind (Q := fun res s' => ∃ r, s'.AnswersButInline res r ∧ (0 ≤ res → r.2.pos = g.pos) ∧
    ∃ faults : Nat → Option IoFault, ∀ faults',
      (∀ q, min h.pos h.rawsize ≤ q → q < g.pos → faults' q = faults q) →
        (if f.writing = false ∧ f.pos > f.size then
          FileHandle.fillZeros (cfg.handles hmax) faults' (g.pos - g.size) (g.setPos g.size)
        else (errOk, g)) = r)
    (keeps_doIf (fun (hc : f.writing = false ∧ f.pos > f.size) => ?_) fun hc => ?_)
    fun res s' h' => ?_
  · refine .get_bind (.modify_bind id ?_)
    have Hstart : (({ s with file := f } : State).modFile fun f =>
        { f with pos := f.size }).file.Shows (g.setPos g.size) :=
      ⟨Hg.size, Hg.size, Hg.append, Hg.reading, Hg.writing, Hg.isInline⟩
    refine (fillZeros_answers hmax Hstart f.pos cfg.fuel).mono fun res s' h' => ?_
    obtain ⟨r, hr, hpos, faults, hall⟩ := h'
    have hsize : g.size < g.pos := by
      rw [Hg.pos, Hg.size]
      exact hc.2
    refine ⟨r, hr, fun hres => (hpos hres).trans ?_, faults, fun faults' hfaults => ?_⟩
    · rw [← Hg.pos]
      exact Nat.max_eq_right (Nat.le_of_lt hsize)
    · rw [if_pos hc]
      refine Hg.pos ▸ hall faults' fun q hlo hhi => hfaults q ?_ (Hg.pos ▸ hhi)
      exact (hbound.2.2 (Hg.writing.trans hc.1)).trans hlo
  · exact ⟨(errOk, g), .inl ⟨rfl, Hg⟩, fun _ => rfl, fun _ => none, fun _ _ => if_neg hc⟩
  obtain ⟨r, hr, hpos, faults, hall⟩ := h'
  have hres := State.AnswersButInline.result hr
  refine .ite (fun hneg => .pure ⟨r, hr, faults, fun io hio => ?_⟩) fun hneg => ?_
  · rw [heq, if_neg hlarge, hall io.write fun q hlo hhi =>
      hio q hlo ((Nat.le_of_lt hhi).trans hbound.2.1)]
    exact if_pos (by rwa [hres])
  have hge := Int.not_lt.mp hneg
  refine .bind (flushedwrite_answers hmax (hr.answers hge).shows byte) fun res' s'' h' => ?_
  obtain ⟨fault, hwrite, -⟩ := h'
  have hrun : ∀ io : TruncateIo, (∀ q, min h.pos h.rawsize ≤ q → q ≤ max h.pos h.rawsize →
      io.write q = Function.update faults g.pos fault q) →
      h.writeBehind (cfg.handles hmax) io byte =
        r.2.flushedwrite (cfg.handles hmax) fault byte := fun io hio => by
    rw [heq, if_neg hlarge, hall io.write fun q hlo hhi => by
      rw [hio q hlo ((Nat.le_of_lt hhi).trans hbound.2.1),
        Function.update_of_ne (Nat.ne_of_lt hhi)]]
    dsimp only
    rw [if_neg (by rwa [hres]), hpos hge, hio g.pos hbound.1 hbound.2.1, Function.update_self]
  refine .ite (fun _ => .pure ⟨_, hwrite, _, hrun⟩) fun _ =>
    .modify_bind id (.pure ⟨_, ?_, _, hrun⟩)
  -- the flag that is cleared is none that the handle has
  rcases hwrite with M | ⟨hneg, M⟩
  · exact .inl ⟨M.res, M.shows.pos, M.shows.size, M.shows.append, M.shows.reading,
      M.shows.writing, M.shows.isInline⟩
  · exact .inr ⟨hneg, M.res, M.shows.pos, M.shows.size, M.shows.append, M.shows.reading,
      M.shows.writing, M.shows.isInline⟩

/-- **A write of one byte**, with the answers to the flush that drops the reads and to the writes
between the position and the end. -/
theorem rawwrite_answers (H : s.file.Shows h) (byte : UInt8) :
    Returns (rawwrite cfg w [byte]) s fun res s' =>
      ∃ r, s'.AnswersButInline res r ∧ ∃ drop, ∃ writes : Nat → Option IoFault,
        ∀ io : TruncateIo, io.dropReads h.pos = drop →
          (∀ q, min h.pos h.rawsize ≤ q → q ≤ max h.pos h.rawsize → io.write q = writes q) →
            h.rawwrite (cfg.handles hmax) io byte = r := by
  refine .get_bind (.bind (Q := fun err s' => Code err ∧ ∃ fault,
    s'.Answers err (if h.reading then h.flush fault else (errOk, h)))
    (keeps_doIf (fun hc => ?_) fun hc => ?_) fun err s' h' => ?_)
  · refine (flush_answers H).mono fun err s' h' => ?_
    obtain ⟨hcode, fault, hflush⟩ := h'
    refine ⟨hcode, fault, ?_⟩
    rwa [H.reading, if_pos hc]
  · refine ⟨.ok, none, ?_⟩
    rw [H.reading, if_neg hc]
    exact ⟨rfl, H⟩
  obtain ⟨hcode, fault, hdrop⟩ := h'
  refine .ite (fun herr => .pure ⟨_, .inl hdrop, fault, fun _ => none, fun io hio _ => ?_⟩)
    fun herr => ?_
  · rw [FileHandle.rawwrite_eq, hio]
    exact if_pos (by rwa [hdrop.res])
  have hok := hdrop.res.trans (not_not.mp herr)
  have hview : h.SameView (if h.reading then h.flush fault else (errOk, h)).2 := by
    refine (FileHandle.dropReads_ok fun hfails => ?_).2
    rw [if_pos hfails.1] at hok
    exact absurd hok (Int.ne_of_lt (FileHandle.flush_fails hfails.2).1)
  refine (writeBehind_answers hmax hdrop.shows byte).mono fun res s'' h' => ?_
  obtain ⟨r, hr, writes, hall⟩ := h'
  rw [hview.pos, hview.size] at hall
  refine ⟨r, hr, fault, writes, fun io hio hwrites => ?_⟩
  rw [FileHandle.rawwrite_eq, hio]
  exact (if_neg (by rw [hok]; decide)).trans (hall io hwrites)

/-! ## Truncating -/

/-- A seek to the end that succeeds. -/
theorem seekTo_atEnd {fcfg : FileConfig} {sio : SeekIo}
    (hres : 0 ≤ (h.seekTo fcfg sio h.rawsize).1) :
    (h.seekTo fcfg sio h.rawsize).2.AtEnd fcfg := by
  by_cases hlarge : h.rawsize > fcfg.fileMaxSize
  · rw [FileHandle.seekTo, if_pos hlarge] at hres
    exact absurd hres (show ¬ 0 ≤ errInval by decide)
  have hle := Nat.le_of_not_gt hlarge
  by_cases hpos : h.pos = h.rawsize
  · rw [FileHandle.seekTo, if_neg hlarge, if_pos hpos]
    exact ⟨hpos, hpos ▸ hle⟩
  · have hflush : ¬ h.FlushFails sio.flush := fun hfails => by
      rw [FileHandle.seekTo_fails hle hpos hfails] at hres
      have := (FileHandle.flush_fails hfails).1
      omega
    have hnpos := (FileHandle.seekTo_ok hle hpos hflush).2.2
    exact ⟨hnpos.trans (h.seekTo_view fcfg sio _).1.symm, (Nat.le_of_eq hnpos).trans hle⟩

/-- The zeros behind the end, each with the answers to its write. -/
theorem extendZeros_answers (H : s.file.Shows h) (Hend : h.AtEnd (cfg.handles hmax))
    (size fuel : Nat) :
    Returns (extendZeros cfg w size fuel) s fun res s' =>
      ∃ r, s'.AnswersButInline res r ∧ ∃ io : TruncateIo, ∀ io' : TruncateIo,
        (∀ q, h.pos ≤ q → io'.dropReads q = io.dropReads q ∧ io'.write q = io.write q) →
          FileHandle.extendLoop (cfg.handles hmax) io' size (size - h.pos) h = r := by
  induction fuel generalizing s h with
  | zero => exact .stop
  | succ fuel ih =>
    refine .get_bind (.ite (fun hpos => ?_) fun hpos =>
      .pure ⟨(errOk, h), .inl ⟨rfl, H⟩, {}, fun _ _ => ?_⟩)
    · have hlt : h.pos < size := H.pos ▸ hpos
      have hcount : size - h.pos = (size - (h.pos + 1)) + 1 := by omega
      refine .bind (rawwrite_answers hmax H 0) fun res s' h' => ?_
      obtain ⟨r, hr, drop, writes, hall⟩ := h'
      rw [← Hend.pos, Nat.min_self, Nat.max_self] at hall
      have hres := State.AnswersButInline.result hr
      have hrun : ∀ io' : TruncateIo, io'.dropReads h.pos = drop →
          io'.write h.pos = writes h.pos →
          FileHandle.extendLoop (cfg.handles hmax) io' size (size - h.pos) h =
            if r.1 < 0 then r
            else FileHandle.extendLoop (cfg.handles hmax) io' size (size - (h.pos + 1)) r.2 :=
        fun io' hdrop hwrites => by
          rw [hcount, FileHandle.extendLoop, if_pos hlt, hall io' hdrop fun q hlo hhi =>
            Nat.le_antisymm hhi hlo ▸ hwrites]
      refine .ite (fun hneg => .pure ⟨r, hr, { dropReads := fun _ => drop, write := writes },
        fun io' hio => ?_⟩) fun hneg => ?_
      · obtain ⟨hdrop, hwrites⟩ := hio h.pos (Nat.le_refl _)
        rw [hrun io' hdrop hwrites]
        exact if_pos (by rwa [hres])
      · have M := hr.answers (Int.not_lt.mp hneg)
        obtain ⟨Hnext, hpos'⟩ : r.2.AtEnd (cfg.handles hmax) ∧ r.2.pos = h.pos + 1 := by
          have hcases := Hend.rawwrite_cases { dropReads := fun _ => drop, write := writes } 0
          rw [hall { dropReads := fun _ => drop, write := writes } rfl fun _ _ _ => rfl] at hcases
          rcases hcases with ⟨-, hrefused⟩ | ⟨-, -, hnext⟩
          · exact absurd hrefused.err (by rwa [hres])
          · exact hnext
        refine (ih M.shows Hnext).mono fun res s'' h' => ?_
        obtain ⟨r', hr', io, hall'⟩ := h'
        rw [hpos'] at hall'
        refine ⟨r', hr', { io with
          dropReads := Function.update io.dropReads h.pos drop
          write := Function.update io.write h.pos (writes h.pos) }, fun io' hio => ?_⟩
        obtain ⟨hdrop, hwrites⟩ := hio h.pos (Nat.le_refl _)
        rw [hrun io' (hdrop.trans (Function.update_self ..))
          (hwrites.trans (Function.update_self ..)), if_neg (by rwa [hres])]
        refine hall' io' fun q hq => ?_
        obtain ⟨hdrop, hwrites⟩ := hio q (by omega)
        exact ⟨hdrop.trans (Function.update_of_ne (by omega) ..),
          hwrites.trans (Function.update_of_ne (by omega) ..)⟩
    · rw [Nat.sub_eq_zero_of_le (by rw [H.pos]; omega)]
      rfl

/-- A resize and the call on the handle, whatever is answered to the seek behind it. -/
def State.Resizes (s : State) (res : Int) (resize : TruncateIo → Int × FileHandle) : Prop :=
  ∃ r, s.AnswersButInline res r ∧ ∃ io : TruncateIo, ∀ restore, resize { io with restore } = r

theorem extend_answers (H : s.file.Shows h) (size fuel : Nat) :
    Returns (do
      let res ← rawseek cfg w 0 .fromEnd
      if res < 0 then return res else extendZeros cfg w size fuel) s fun res s' =>
        s'.Resizes res fun io => h.extend (cfg.handles hmax) io size := by
  refine .bind (rawseek_answers hmax H 0 .fromEnd) fun res s' h' => ?_
  obtain ⟨sio, hseek⟩ := h'
  refine .ite (fun hneg => .pure ⟨_, .inl hseek, { seek := sio }, fun restore => ?_⟩) fun hneg => ?_
  · exact if_pos (by rwa [hseek.res])
  · have heq : h.rawseek (cfg.handles hmax) sio 0 .fromEnd =
        h.seekTo (cfg.handles hmax) sio h.rawsize := by
      rw [FileHandle.rawseek, Int.add_zero, if_neg (Int.not_lt.mpr (Int.natCast_nonneg _)),
        Int.toNat_natCast]
    rw [heq] at hseek
    have hge : 0 ≤ (h.seekTo (cfg.handles hmax) sio h.rawsize).1 := by
      rw [hseek.res]
      exact Int.not_lt.mp hneg
    refine (extendZeros_answers hmax hseek.shows (seekTo_atEnd hge) size fuel).mono ?_
    intro res s'' h'
    obtain ⟨r, hr, io, hall⟩ := h'
    refine ⟨r, hr, { io with seek := sio }, fun restore => ?_⟩
    dsimp only
    rw [FileHandle.extend_eq]
    exact (if_neg (Int.not_lt.mpr hge)).trans (hall _ fun _ _ => ⟨rfl, rfl⟩)

theorem shrinkInline_answers (H : s.file.Shows h) {size : Nat}
    (hsize : size ≤ cfg.inlineMax cfg.cfgBlockSize 8) :
    Returns (shrinkInline cfg w size) s fun res s' =>
      s'.Resizes res fun io => h.shrink (cfg.handles hmax) io size := by
  have heq : ∀ io, h.shrink (cfg.handles hmax) io size =
      let r := h.rawseek (cfg.handles hmax) io.seek 0 .set
      if r.1 < 0 then r
      else
        let r := r.2.flushedread io.read size
        if r.1 < 0 then r
        else (errOk, { r.2 with
          size
          content := r.2.content.take size
          isInline := true
          reading := true }) := fun io => if_pos hsize
  simp only [heq]
  refine .bind (rawseek_answers hmax H 0 .set) fun res s' h' => ?_
  obtain ⟨sio, hseek⟩ := h'
  obtain ⟨r, hr⟩ : ∃ r, h.rawseek (cfg.handles hmax) sio 0 .set = r := ⟨_, rfl⟩
  rw [hr] at hseek
  refine .ite (fun hneg => .pure ⟨r, .inl hseek, { seek := sio }, fun restore => ?_⟩) fun hneg => ?_
  · dsimp only
    rw [hr]
    exact if_pos (by rwa [hseek.res])
  have hres : ¬ r.1 < 0 := by rwa [hseek.res]
  refine .modify_bind id (.get_bind (.bind (flushedread_answers hseek.shows size) ?_))
  intro r' s'' h'
  obtain ⟨res, f⟩ := r'
  obtain ⟨-, fault, hshows, herror, hok⟩ := h'
  refine .modify_bind id ?_
  cases res with
  | error err =>
    obtain ⟨hneg, herr⟩ := herror err rfl
    refine .pure ⟨r.2.flushedread fault size, .inl ⟨herr, hshows⟩, { seek := sio, read := fault },
      fun restore => ?_⟩
    dsimp only
    rw [hr, if_neg hres]
    exact if_pos (herr ▸ hneg)
  | ok bytes =>
    refine .modify_bind id (.pure ⟨(errOk, { (r.2.flushedread fault size).2 with
      size
      content := (r.2.flushedread fault size).2.content.take size
      isInline := true
      reading := true }), .inl ⟨rfl, ?_⟩, { seek := sio, read := fault }, fun restore => ?_⟩)
    · exact ⟨hshows.pos, rfl, hshows.append, rfl, hshows.writing, rfl⟩
    · dsimp only
      rw [hr, if_neg hres]
      exact if_neg (Int.not_lt.mpr (hok bytes rfl))

theorem shrinkList_answers (H : s.file.Shows h) {size : Nat}
    (hsize : ¬ size ≤ cfg.inlineMax cfg.cfgBlockSize 8) :
    Returns (shrinkList cfg w size) s fun res s' =>
      s'.Resizes res fun io => h.shrink (cfg.handles hmax) io size := by
  refine .bind (flush_answers H) fun err s' h' => ?_
  obtain ⟨-, fault, hflush⟩ := h'
  refine .ite (fun herr => .pure ⟨_, .inl hflush, { seek := { flush := fault } },
    fun restore => (if_neg hsize).trans (if_pos (by rwa [hflush.res]))⟩) fun herr => .get_bind ?_
  have hres : ¬ (h.flush fault).1 ≠ errOk := by rwa [hflush.res]
  refine .bind (Returns.of_keeps (keeps_ctzFind ..)) fun r s'' h' => ?_
  obtain ⟨res, c⟩ := r
  have M : s''.file.Shows (h.flush fault).2 := h'.1.file ▸ hflush.shows
  refine .modify_bind id ?_
  cases res with
  | error err =>
    refine .pure ⟨(err, (h.flush fault).2), .inl ⟨rfl, ?_⟩,
      { seek := { flush := fault }, find := some ⟨err, h'.2 _ rfl⟩ },
      fun restore => (if_neg hsize).trans (if_neg hres)⟩
    exact ⟨M.pos, M.size, M.append, M.reading, M.writing, M.isInline⟩
  | ok found =>
    refine .modify_bind id (.pure ⟨(errOk, { (h.flush fault).2 with
      pos := size, size, content := (h.flush fault).2.content.take size, reading := true }),
      .inl ⟨rfl, ?_⟩, { seek := { flush := fault } },
      fun restore => (if_neg hsize).trans (if_neg hres)⟩)
    exact ⟨rfl, rfl, M.append, rfl, M.writing, M.isInline⟩

theorem resize_answers (H : s.file.Shows h) (size : Nat) :
    Returns (resize cfg w size) s fun res s' => s'.Resizes res fun io =>
      if size < h.rawsize then h.shrink (cfg.handles hmax) io size
      else if size > h.rawsize then h.extend (cfg.handles hmax) io size
      else (errOk, h) := by
  rw [H.rawsize]
  refine .get_bind (.ite (fun hlt => .ite (fun hsize => ?_) fun hsize => ?_) fun hlt =>
    .ite (fun hgt => ?_) fun hgt => .pure ⟨(errOk, h), .inl ⟨rfl, H⟩, {}, fun _ => ?_⟩)
  · simp only [if_pos hlt]
    exact shrinkInline_answers hmax H hsize
  · simp only [if_pos hlt]
    exact shrinkList_answers hmax H hsize
  · simp only [if_neg hlt, if_pos hgt]
    exact extend_answers hmax H size cfg.fuel
  · dsimp only
    rw [if_neg hlt, if_neg hgt]

/-- **A truncation** is one of the handle. -/
theorem rawtruncate_answers (H : s.file.Shows h) (size : Nat) :
    Returns (rawtruncate cfg w size) s fun res s' =>
      ∃ io, s'.AnswersButInline res (h.rawtruncate (cfg.handles hmax) io size) := by
  refine .get_bind (.ite (fun hlarge => .pure ⟨{}, .inl ?_⟩) fun hlarge => ?_)
  · rw [FileHandle.rawtruncate, if_pos hlarge]
    exact ⟨rfl, H⟩
  refine .bind (resize_answers hmax H size) fun res s' h' => ?_
  obtain ⟨r, hr, io, hall⟩ := h'
  have hres := State.AnswersButInline.result hr
  have heq : ∀ restore, h.rawtruncate (cfg.handles hmax) { io with restore } size =
      if r.1 < 0 then r
      else
        let r := r.2.rawseek (cfg.handles hmax) restore h.pos .set
        if r.1 < 0 then r else (errOk, r.2) := fun restore => by
    have hresize := hall restore
    dsimp only at hresize
    rw [FileHandle.rawtruncate, if_neg hlarge, hresize]
  refine .ite (fun hneg => .pure ⟨{ io with restore := {} }, ?_⟩) fun hneg => ?_
  · rw [heq, if_pos (by rwa [hres])]
    exact hr
  · have M := hr.answers (Int.not_lt.mp hneg)
    refine .bind (rawseek_answers hmax M.shows s.file.pos .set) fun res' s'' h' => ?_
    obtain ⟨restore, hseek⟩ := h'
    rw [← H.pos] at hseek
    refine .ite (fun hneg' => .pure ⟨{ io with restore }, .inl ?_⟩) fun hneg' =>
      .pure ⟨{ io with restore }, .inl ?_⟩
    · rw [heq, if_neg (by rwa [hres])]
      dsimp only
      rw [if_pos (by rwa [hseek.res])]
      exact hseek
    · rw [heq, if_neg (by rwa [hres])]
      dsimp only
      rw [if_neg (by rwa [hseek.res])]
      exact ⟨rfl, hseek.shows⟩

/-- An extension past `file_max_size` fails. -/
theorem rawtruncate_past_max (hmax : cfg.fileMaxSize ≤ fileMax) {size : Nat}
    (hlarge : cfg.fileMaxSize < size) (hgrow : s.file.rawsize < size) :
    Returns (rawtruncate cfg w size) s fun res _ => res < 0 := by
  obtain ⟨h, H⟩ : ∃ h, s.file.Shows h := ⟨⟨s.file.pos, s.file.size, [], s.file.isInline,
    s.file.append, s.file.reading, s.file.writing⟩, ⟨rfl, rfl, rfl, rfl, rfl, rfl⟩⟩
  refine (rawtruncate_answers hmax H size).mono fun res s' h' => ?_
  obtain ⟨io, hr⟩ := h'
  rw [← State.AnswersButInline.result hr]
  by_cases hfile : size ≤ fileMax
  · have herr : (h.extend (cfg.handles hmax) io size).1 < 0 :=
      (h.extend_refused_iff io hlarge).1
    rw [FileHandle.rawtruncate_of_neg hfile ?_ herr]
    · exact herr
    · rw [← H.rawsize] at hgrow
      rw [if_neg (Nat.not_lt.mpr (Nat.le_of_lt hgrow)), if_pos hgrow]
  · rw [FileHandle.rawtruncate, if_pos (Nat.lt_of_not_le hfile)]
    exact (by decide : errInval < 0)

end FileIo

end LittleFs
