import LittleFs.FileSync
import LittleFs.VfsAccess
import LittleFs.VfsFlush

/-! The page cache of `VFSFileObject` over a file on the device.

A call on the object asks for calls of `lfs_file_*`: a page that is loaded is sought and read, each
dirty page of a flush is sought and written, and a flush ends with a sync. On the bytes below they
do what the model of the object says, so the device always holds what a flush has saved. -/

namespace LittleFs

open ZeroFill

namespace FileIo

/-! ## Steps that are not refused -/

/-- The steps lead from `x` to `y`, and their syncs save `saves`. -/
inductive Takes (maxSize : Nat) : Saved → List Step → List (List UInt8) → Saved → Prop
  | nil : Takes maxSize x [] [] x
  | call : x.content.call maxSize c = some (a, c') →
      Takes maxSize { x with content := c' } steps saves y →
      Takes maxSize x (.call c :: steps) saves y
  | sync : Takes maxSize { x with saved := x.content.bytes } steps saves y →
      Takes maxSize x (.sync :: steps) (x.content.bytes :: saves) y

def Step.isSync : Step → Bool
  | .call _ => false
  | .sync => true

variable {maxSize : Nat} {steps steps' : List Step} {saves saves' : List (List UInt8)}
  {x y z : Saved} {cfg : Config} {v : Volume}

theorem Takes.append (H : Takes maxSize x steps saves y)
    (K : Takes maxSize y steps' saves' z) :
    Takes maxSize x (steps ++ steps') (saves ++ saves') z := by
  induction H with
  | nil => exact K
  | call hcall _ ih => exact .call hcall (ih K)
  | sync _ ih => exact .sync (ih K)

theorem Takes.length_saves (H : Takes maxSize x steps saves y) :
    saves.length = steps.countP Step.isSync := by
  induction H with
  | nil => rfl
  | call _ _ ih => rw [ih, List.countP_cons_of_neg Bool.false_ne_true]
  | sync _ ih => rw [List.length_cons, ih, List.countP_cons_of_pos rfl]

/-- A call that is not refused with a size limit is not with a greater one. -/
theorem Content.call_mono {max max' : Nat} {c : Content} {call : Call} {r : Answer × Content}
    (h : c.call max call = some r) (hle : max ≤ max') : c.call max' call = some r := by
  cases call with
  | write bytes =>
    simp only [Content.call, Option.ite_none_left_eq_some] at h ⊢
    exact ⟨by omega, h.2⟩
  | read size => exact h
  | seek offset whence =>
    simp only [Content.call, Option.ite_none_left_eq_some] at h ⊢
    exact ⟨by omega, h.2⟩
  | truncate size =>
    simp only [Content.call, Option.ite_none_left_eq_some] at h ⊢
    exact ⟨by omega, h.2⟩
  | flush => exact h

/-- A call that is not refused stays below the limit. -/
theorem Content.extent_call {max : Nat} {c c' : Content} {call : Call} {a : Answer}
    (h : c.call max call = some (a, c')) (hle : c.extent ≤ max) : c'.extent ≤ max := by
  rw [Content.extent] at hle ⊢
  cases call with
  | write bytes =>
    simp only [Content.call, Option.ite_none_left_eq_some, Option.some.injEq, Prod.mk.injEq] at h
    obtain ⟨hlt, -, rfl⟩ := h
    dsimp only
    rw [length_writeAt]
    omega
  | read size =>
    cases h
    dsimp only
    omega
  | seek offset whence =>
    simp only [Content.call, Option.ite_none_left_eq_some, Option.some.injEq, Prod.mk.injEq] at h
    obtain ⟨hlt, -, rfl⟩ := h
    dsimp only
    omega
  | truncate size =>
    simp only [Content.call, Option.ite_none_left_eq_some, Option.some.injEq, Prod.mk.injEq] at h
    obtain ⟨hlt, -, rfl⟩ := h
    dsimp only
    rw [length_resize]
    omega
  | flush =>
    cases h
    exact hle

theorem Takes.mono (H : Takes maxSize x steps saves y) {maxSize' : Nat} (h : maxSize ≤ maxSize') :
    Takes maxSize' x steps saves y := by
  induction H with
  | nil => exact .nil
  | call hcall _ ih => exact .call (Content.call_mono hcall h) ih
  | sync _ ih => exact .sync ih

/-- The steps stay below the limit. -/
theorem Takes.farthest_le (H : Takes maxSize x steps saves y) {maxSize' : Nat}
    (h : maxSize ≤ maxSize') (hle : x.content.extent ≤ maxSize) :
    x.farthest maxSize' steps ≤ maxSize := by
  induction H with
  | nil => exact hle
  | call hcall _ ih =>
    change Content.farthest maxSize' (_ :: _) _ ≤ maxSize
    rw [Content.farthest, Content.call_mono hcall h]
    exact Nat.max_le.mpr ⟨hle, ih (Content.extent_call hcall hle)⟩
  | sync _ ih => exact ih hle

/-- Behind the first `n` steps, what they have saved, and what a sync saves that is next. -/
theorem Takes.take (H : Takes maxSize x steps saves y) (n : Nat) :
    (x.saved :: saves)[(steps.take n).countP Step.isSync]? =
        some (x.run maxSize (steps.take n)).2.saved ∧
      (steps[n]? = some .sync → (x.saved :: saves)[(steps.take n).countP Step.isSync + 1]? =
        some (x.run maxSize (steps.take n)).2.content.bytes) := by
  induction H generalizing n with
  | nil => exact ⟨by simp [Saved.run], fun h => by simp at h⟩
  | call hcall _ ih =>
    rcases n with _ | n
    · exact ⟨rfl, fun h => by cases h⟩
    · have hrun := ih n
      rw [List.take_succ_cons, List.countP_cons_of_neg Bool.false_ne_true, Saved.run, Saved.step,
        hcall]
      exact hrun
  | sync _ ih =>
    rcases n with _ | n
    · exact ⟨rfl, fun _ => rfl⟩
    · have hrun := ih n
      rw [List.take_succ_cons, List.countP_cons_of_pos rfl, List.getElem?_cons_succ,
        List.getElem?_cons_succ]
      exact hrun

/-- The entry holds what the last sync has saved that was answered, or what the next one saves. -/
def Volume.HoldsSaves (cfg : Config) (steps : List Step) (saves : List (List UInt8)) (v : Volume) :
    Prop :=
  ∃ bytes, v.Saves cfg bytes ∧ (saves[(steps.take v.done).countP Step.isSync]? = some bytes ∨
    saves[(steps.take v.done).countP Step.isSync + 1]? = some bytes)

theorem Survives.holdsSaves (H : Survives cfg 0 steps x v)
    (K : Takes cfg.fileMaxSize x steps saves y) :
    v.HoldsSaves cfg steps (x.saved :: saves) := by
  obtain ⟨n, -, hdone, H⟩ := H
  rw [Nat.zero_add] at hdone
  subst hdone
  obtain ⟨hsaved, hnext⟩ := K.take v.done
  rcases H with H | ⟨hsync, H⟩
  · exact ⟨_, H, .inl hsaved⟩
  · exact ⟨_, H, .inr (hnext hsync)⟩

/-- Once every step is answered. -/
theorem Volume.HoldsSaves.last {bytes : List UInt8}
    (H : v.HoldsSaves cfg steps (bytes :: saves)) (hlen : saves.length = steps.countP Step.isSync)
    (hdone : v.done = steps.length) : v.Saves cfg (saves.getLastD bytes) := by
  obtain ⟨b, H, h⟩ := H
  rw [hdone, List.take_length, ← hlen] at h
  rcases h with h | h
  · have hlast : (bytes :: saves).getLast? = some b := by
      rw [List.getLast?_eq_getElem?, List.length_cons, Nat.add_sub_cancel, h]
    rw [List.getLast?_cons, Option.some_inj] at hlast
    rw [List.getLastD_eq_getLast?, hlast]
    exact H
  · rw [List.getElem?_eq_none (by simp)] at h
    cases h

end FileIo

/-! ## What an open file is asked for -/

variable {maxSize n k : Nat} {steps steps' : List FileIo.Step} {f f' f'' : LfsFile}
  {bytes : List UInt8}

def LfsFile.toContent (f : LfsFile) : FileIo.Content := ⟨f.content, f.pos, f.append⟩

/-- `lfs_file_seek` with `LFS_SEEK_SET`, and the call behind it. -/
def seekAnd (offset : Nat) (c : FileIo.Call) : List FileIo.Step :=
  [.call (.seek offset .set), .call c]

/-- The steps, none of which is a sync, make `f'` of `f`. -/
def Asks (maxSize : Nat) (steps : List FileIo.Step) (f f' : LfsFile) : Prop :=
  ∀ saved, FileIo.Takes maxSize ⟨f.toContent, saved⟩ steps [] ⟨f'.toContent, saved⟩

theorem Asks.nil (f : LfsFile) : Asks maxSize [] f f := fun _ => .nil

theorem Asks.append (H : Asks maxSize steps f f') (K : Asks maxSize steps' f' f'') :
    Asks maxSize (steps ++ steps') f f'' := fun saved => (H saved).append (K saved)

theorem seek_accepted (hn : n ≤ maxSize) :
    f.toContent.call maxSize (.seek n .set) = some (.position n, (f.seek n).toContent) := by
  have hbase : (seekBase f.toContent.pos f.toContent.bytes.length .set + n : Int) = n := by
    rw [seekBase, Nat.cast_zero, Int.zero_add]
  rw [FileIo.Content.call, hbase, if_neg (by omega), Int.toNat_natCast]
  rfl

theorem Asks.read (hn : n ≤ maxSize) :
    Asks maxSize (seekAnd n (.read k)) f ((f.seek n).read k).2 := fun _ => by
  refine .call (seek_accepted hn) (.call (a := .bytes (slice f.content n k)) ?_ .nil)
  simp only [FileIo.Content.call, LfsFile.toContent, LfsFile.read, LfsFile.seek, length_slice]

theorem Asks.write (happend : f.append = false) (hn : n + bytes.length ≤ maxSize) :
    Asks maxSize (seekAnd n (.write bytes)) f ((f.seek n).write bytes) := fun _ => by
  refine .call (seek_accepted (by omega)) (.call (a := .wrote bytes.length) ?_ .nil)
  have hseek : (f.seek n).append = false := happend
  simp only [FileIo.Content.call, LfsFile.toContent, LfsFile.write, hseek, Bool.false_eq_true,
    false_and, ↓reduceIte]
  exact if_neg (Nat.not_lt.mpr hn)

/-- What a call on the logical file saves. -/
def LogicalFile.flushed (l : LogicalFile) : VFSFileObject.Call → List (List UInt8)
  | .flush | .truncate _ => [l.content]
  | _ => []

def LogicalFile.flushes : LogicalFile → List VFSFileObject.Call → List (List UInt8)
  | _, [] => []
  | l, c :: calls => l.flushed c ++ (l.call c).flushes calls

namespace VFSFileObject

variable {s s' : VFSFileObject} {l : LogicalFile} {idx : Nat}

/-- What `load_page_if_needed` asks for. -/
def loadRequests (s : VFSFileObject) (pageIdx : Nat) : List FileIo.Step :=
  match s.pages[pageIdx]? with
  | some _ => []
  | none =>
    let pageStart := pageIdx * pageSize
    let diskSz := s.file.size
    if 0 < diskSz ∧ pageStart < diskSz then
      seekAnd pageStart (.read (min pageSize (diskSz - pageStart)))
    else []

/-- What `flush_internal` asks for. -/
def flushRequests (s : VFSFileObject) : List FileIo.Step :=
  if s.isOpen then
    s.flushWrites.flatMap (fun sent => seekAnd sent.1 (.write sent.2)) ++ [.sync]
  else []

/-- What the loop of `read` asks for. -/
def readRequests (s : VFSFileObject) (bytesToRead bytesRead : Nat) : List FileIo.Step :=
  if _ : bytesRead < bytesToRead then
    let currPos := s.pos + bytesRead
    let pageIdx := currPos / pageSize
    let pageOff := currPos % pageSize
    let chunk := min (bytesToRead - bytesRead) (pageSize - pageOff)
    (match s.pages[pageIdx]? with
      | some _ => []
      | none => seekAnd currPos (.read chunk)) ++ readRequests s bytesToRead (bytesRead + chunk)
  else []
termination_by bytesToRead - bytesRead
decreasing_by
  have := Nat.mod_lt (s.pos + bytesRead) (show 0 < pageSize by decide)
  omega

/-- What the loop of `write` asks for. -/
def writeRequests (data : List UInt8) (bytesWritten : Nat) (s : VFSFileObject) : List FileIo.Step :=
  if _ : bytesWritten < data.length then
    let currPos := s.pos + bytesWritten
    let chunk := min (data.length - bytesWritten) (pageSize - currPos % pageSize)
    s.loadRequests (currPos / pageSize) ++ writeRequests data (bytesWritten + chunk)
      (s.writeChunk currPos (slice data bytesWritten chunk) (s.chunk_fits data bytesWritten))
  else []
termination_by data.length - bytesWritten
decreasing_by
  have := Nat.mod_lt (s.pos + bytesWritten) (show 0 < pageSize by decide)
  omega

/-- What a call asks for. -/
def callRequests (s : VFSFileObject) : Call → List FileIo.Step
  | .seek _ _ => []
  | .write data => if ¬ s.isOpen ∨ data.length = 0 then [] else writeRequests data 0 s
  | .read buffer =>
    if ¬ s.isOpen ∨ buffer.length = 0 then []
    else if s.pos ≥ s.fileSize then []
    else s.readRequests (min buffer.length (s.fileSize - s.pos)) 0
  | .flush => s.flushRequests
  | .truncate size => if s.isOpen then s.flushRequests ++ [.call (.truncate size)] else []

def requests : VFSFileObject → List Call → List FileIo.Step
  | _, [] => []
  | s, c :: calls => s.callRequests c ++ (s.call c).requests calls

/-- The call that asserts an access mode. -/
def lfsCall : FileIo.Step → Option LfsCall
  | .call (.read _) => some .rawread
  | .call (.write _) => some .rawwrite
  | .call (.truncate _) => some .rawtruncate
  | _ => none

theorem loadRequests_lfsCalls (s : VFSFileObject) (idx : Nat) :
    (s.loadRequests idx).filterMap lfsCall = s.loadCalls idx := by
  rcases hpage : s.pages[idx]? with _ | page
  · simp only [loadRequests, loadCalls, hpage]
    split <;> rfl
  · simp only [loadRequests, loadCalls, hpage, List.filterMap_nil]

theorem sends_lfsCalls (sends : List (Nat × List UInt8)) :
    (sends.flatMap fun sent => seekAnd sent.1 (.write sent.2)).filterMap lfsCall =
      sends.map fun _ => .rawwrite := by
  induction sends with
  | nil => rfl
  | cons sent sends ih =>
    rw [List.flatMap_cons, List.filterMap_append, ih]
    rfl

theorem flushRequests_lfsCalls (s : VFSFileObject) :
    s.flushRequests.filterMap lfsCall = s.flushCalls := by
  rw [flushRequests, flushCalls]
  split
  · rw [List.filterMap_append, sends_lfsCalls]
    exact List.append_nil _
  · rfl

theorem readRequests_lfsCalls (s : VFSFileObject) (n k : Nat) :
    (s.readRequests n k).filterMap lfsCall = s.readPagesCalls n k := by
  fun_induction readPagesCalls s n k with
  | case1 k h currPos chunk page hpage ih =>
    have hcached : s.pages[(s.pos + k) / pageSize]? = some page := hpage
    rw [readRequests, dif_pos h]
    simp only [hcached]
    exact ih
  | case2 k h currPos chunk hpage ih =>
    have hcached : s.pages[(s.pos + k) / pageSize]? = none := hpage
    rw [readRequests, dif_pos h]
    simp only [hcached]
    exact congrArg (.rawread :: ·) ih
  | case3 k h =>
    rw [readRequests, dif_neg h]
    rfl

theorem writeRequests_lfsCalls (data : List UInt8) (n : Nat) (s : VFSFileObject) :
    (writeRequests data n s).filterMap lfsCall = writePagesCalls data n s := by
  fun_induction writePagesCalls data n s with
  | case1 n s h currPos chunk ih =>
    rw [writeRequests, dif_pos h]
    dsimp only
    rw [List.filterMap_append, loadRequests_lfsCalls, ih]
  | case2 n s h =>
    rw [writeRequests, dif_neg h]
    rfl

/-- The requests of a call make the calls that need an access mode. -/
theorem callRequests_lfsCalls (s : VFSFileObject) (c : Call) :
    (s.callRequests c).filterMap lfsCall = s.lfsCalls (.call c) := by
  cases c with
  | seek offset type => rfl
  | write data =>
    rw [callRequests, lfsCalls]
    split
    · rfl
    · exact writeRequests_lfsCalls data 0 s
  | read buffer =>
    rw [callRequests, lfsCalls]
    split
    · rfl
    · split
      · rfl
      · exact s.readRequests_lfsCalls _ 0
  | flush => exact s.flushRequests_lfsCalls
  | truncate size =>
    rw [callRequests, lfsCalls, ite_not]
    split
    · rw [List.filterMap_append, flushRequests_lfsCalls]
      rfl
    · rfl

/-! ## The file below after them -/

theorem loadRequests_asks (s : VFSFileObject) (idx : Nat)
    (hsize : s.file.content.length ≤ maxSize) :
    Asks maxSize (s.loadRequests idx) s.file (s.loadPageIfNeeded idx).2.file := by
  rcases hpage : s.pages[idx]? with _ | page
  · simp only [loadRequests, loadPageIfNeeded, hpage]
    split
    · rename_i hdisk
      exact .read (Nat.le_trans (Nat.le_of_lt hdisk.2) hsize)
    · exact .nil s.file
  · simp only [loadRequests, loadPageIfNeeded, hpage]
    exact .nil s.file

theorem readRequests_asks (s : VFSFileObject) (n k : Nat) (dst : List UInt8) (file : LfsFile)
    (hn : s.pos + n ≤ maxSize) :
    Asks maxSize (s.readRequests n k) file (s.readPages n k dst file).2.2 := by
  fun_induction readPages s n k dst file with
  | case1 k dst file h currPos pageIdx pageOff chunk page hpage ih =>
    have hcached : s.pages[(s.pos + k) / pageSize]? = some page := hpage
    rw [readRequests, dif_pos h]
    simp only [hcached]
    exact ih
  | case2 k dst file h currPos pageIdx pageOff chunk hpage bytes file' hread ih =>
    have hcached : s.pages[(s.pos + k) / pageSize]? = none := hpage
    have hasks : Asks maxSize (seekAnd currPos (.read chunk)) file
        ((file.seek currPos).read chunk).2 := .read (by omega)
    rw [hread] at hasks
    rw [readRequests, dif_pos h]
    simp only [hcached]
    exact hasks.append ih
  | case3 k dst file h =>
    rw [readRequests, dif_neg h]
    exact .nil file

theorem writeRequests_asks (data : List UInt8) (n : Nat) (s : VFSFileObject)
    (hsize : s.file.content.length ≤ maxSize) :
    Asks maxSize (writeRequests data n s) s.file (writePages data n s).file := by
  fun_induction writePages data n s with
  | case1 n s h currPos chunk hmod ih =>
    rw [writeRequests, dif_pos h]
    have hload := s.loadPageIfNeeded_loaded (currPos / pageSize)
    exact (s.loadRequests_asks _ hsize).append (ih (hload.content.symm ▸ hsize))
  | case2 n s h =>
    rw [writeRequests, dif_neg h]
    exact .nil s.file

theorem sends_asks {sends : List (Nat × List UInt8)} (happend : f.append = false)
    (hfit : ∀ sent ∈ sends, sent.1 + sent.2.length ≤ maxSize) :
    Asks maxSize (sends.flatMap fun sent => seekAnd sent.1 (.write sent.2)) f
      (sends.foldl (fun file sent => (file.seek sent.1).write sent.2) f) := by
  induction sends generalizing f with
  | nil => exact .nil f
  | cons sent sends ih =>
    rw [List.flatMap_cons]
    exact (Asks.write happend (hfit sent (.head _))).append
      (ih happend fun sent' h => hfit sent' (.tail _ h))

theorem flushWrites_fit {sent : Nat × List UInt8} (h : sent ∈ s.flushWrites) :
    sent.1 + sent.2.length ≤ s.fileSize := by
  obtain ⟨idx, -, hsend⟩ := List.mem_filterMap.mp h
  obtain ⟨page, -, hwrite⟩ := Option.bind_eq_some_iff.mp hsend
  rw [pageWrite] at hwrite
  split at hwrite
  · cases hwrite
    rw [length_slice]
    omega
  · cases hwrite

/-- A flush saves what it leaves below. -/
theorem flushRequests_takes (hopen : s.isOpen = true) (happend : s.file.append = false)
    (hsize : s.fileSize ≤ maxSize) (saved : List UInt8) :
    FileIo.Takes maxSize ⟨s.file.toContent, saved⟩ s.flushRequests [s.flushInternal.file.content]
      ⟨s.flushInternal.file.toContent, s.flushInternal.file.content⟩ := by
  rw [flushRequests, if_pos hopen, flushInternal, if_pos hopen, foldl_flushPage_file]
  exact (sends_asks happend (fun sent h => (flushWrites_fit h).trans hsize) saved).append
    (.sync .nil)

/-! ## The object between two calls -/

/-- The object stands for `l`, and so does the file below once the pages are flushed. -/
structure Caches (maxSize : Nat) (s : VFSFileObject) (l : LogicalFile) : Prop
    extends s.Refines l where
  ready : s.Ready
  fits : s.fileSize ≤ maxSize

theorem Refines.logicalBytes (H : s.Refines l) : s.logicalBytes = l.content := by
  have hlength : s.logicalBytes.length = s.fileSize := by
    rw [VFSFileObject.logicalBytes, List.length_map, List.length_range]
  refine ZeroFill.ext 0 (hlength.trans H.size) fun i hi => ?_
  rw [hlength] at hi
  rw [VFSFileObject.logicalBytes, List.getD, List.getElem?_map, List.getElem?_range hi, ← H.bytes i]
  rfl

theorem Caches.flushed (H : s.Caches maxSize l) : s.flushInternal.file.content = l.content :=
  (H.ready.flushInternal_content H.isOpen).trans H.logicalBytes

/-- An object whose bytes are all below. -/
theorem Refines.ready (H : s.Refines l) (hcontent : s.file.content = l.content) : s.Ready where
  append := H.append
  clean := fun idx page hpage _ off hoff => by
    have hbyte := H.bytes (idx * pageSize + off)
    rw [byteAt_of_page (by rw [page_div idx hoff]; exact hpage), page_mod idx hoff] at hbyte
    rw [hbyte, hcontent]
  size := by rw [hcontent, H.size]
  last := .inr (by rw [hcontent, H.size])

theorem Ready.of_pages (H : s.Ready) (hpages : s'.pages = s.pages)
    (hcontent : s'.file.content = s.file.content) (happend : s'.file.append = s.file.append)
    (hsize : s'.fileSize = s.fileSize) : s'.Ready where
  append := happend.trans H.append
  clean := by
    rw [CleanAgrees, hpages, hcontent]
    exact H.clean
  size := by
    rw [hcontent, hsize]
    exact H.size
  last := by
    rw [DirtyAt, hpages, hcontent, hsize]
    exact H.last

theorem Ready.writePages (H : s.Ready) (data : List UInt8) : (writePages data 0 s).Ready := by
  have hwritten := writePages_written data 0 s
  refine ⟨hwritten.append.trans H.append, fun idx page hpage hclean => ?_, ?_, ?_⟩
  · have huntouched : ∀ x, s.pos + 0 ≤ x → x < s.pos + data.length → x / pageSize ≠ idx := by
      intro x hle hlt hx
      obtain ⟨page', hpage', hdirty⟩ := writePages_dirtyAt data 0 s (.inr ⟨x, hle, hlt, hx⟩)
      rw [hpage] at hpage'
      cases hpage'
      cases hclean.symm.trans hdirty
    rw [writePages_untouched data 0 s huntouched] at hpage
    rw [hwritten.content]
    exact H.clean idx page hpage hclean
  · have hsize := H.size
    rw [hwritten.content, hwritten.fileSize]
    split <;> omega
  · have hsize := hwritten.fileSize
    rw [List.drop_zero, Nat.add_zero] at hsize
    rw [hwritten.content, hsize]
    by_cases hgrown : data ≠ [] ∧ s.fileSize < s.pos + data.length
    · have hpos := List.length_pos_iff.mpr hgrown.1
      rw [if_neg hgrown.1, Nat.max_eq_right (Nat.le_of_lt hgrown.2)]
      exact .inl (writePages_dirtyAt data 0 s
        (.inr ⟨s.pos + data.length - 1, by omega, by omega, rfl⟩))
    · have hsame : (if data = [] then s.fileSize else max s.fileSize (s.pos + data.length)) =
          s.fileSize := by
        split
        · rfl
        · rename_i hne
          exact Nat.max_eq_left (Nat.not_lt.mp fun h => hgrown ⟨hne, h⟩)
      rw [hsame]
      exact H.last.imp_left fun h => writePages_dirtyAt data 0 s (.inl h)

/-- No request of the call is refused, and a truncation leaves no old bytes in the cache. -/
def CallFits (maxSize : Nat) (s : VFSFileObject) : Call → Prop
  | .write data => s.pos + data.length ≤ maxSize
  | .truncate size => size ≤ maxSize ∧ s.TruncateOk size
  | _ => True

def CallsFit (maxSize : Nat) : VFSFileObject → List Call → Prop
  | _, [] => True
  | s, c :: calls => s.CallFits maxSize c ∧ CallsFit maxSize (s.call c) calls

/-- Behind a call: the object stands for the logical file, and what was asked for has left the file
below as the object has it, with the logical file saved by each flush. -/
structure Called (maxSize : Nat) (s : VFSFileObject) (l : LogicalFile) (c : Call) : Prop where
  caches : (s.call c).Caches maxSize (l.call c)
  takes : ∀ saved, ∃ saved', FileIo.Takes maxSize ⟨s.file.toContent, saved⟩ (s.callRequests c)
    (l.flushed c) ⟨(s.call c).file.toContent, saved'⟩

theorem Caches.length (H : s.Caches maxSize l) : s.file.content.length ≤ maxSize :=
  H.ready.size.trans H.fits

theorem Caches.seek (H : s.Caches maxSize l) (offset : BitVec 64) (type : SeekType) :
    s.Called maxSize l (.seek offset type) := by
  obtain ⟨hpages, hfile⟩ := s.seek_kept offset type
  have hsize : (s.seek offset type).2.fileSize = s.fileSize := by
    unfold VFSFileObject.seek
    split
    · rfl
    · dsimp only
      split <;> rfl
  refine ⟨⟨H.toRefines.seek offset type, H.ready.of_pages hpages (congrArg _ hfile)
    (congrArg _ hfile) hsize, hsize.trans_le H.fits⟩, fun saved => ⟨saved, ?_⟩⟩
  rw [VFSFileObject.call, hfile]
  exact .nil

theorem Caches.write (H : s.Caches maxSize l) {data : List UInt8}
    (hdata : s.pos + data.length ≤ maxSize) : s.Called maxSize l (.write data) := by
  have hrefines := H.toRefines.write data
  by_cases hnone : ¬ s.isOpen ∨ data.length = 0
  · have hsame : (s.write data).2 = s := by rw [VFSFileObject.write, if_pos hnone]
    rw [hsame] at hrefines
    refine ⟨?_, fun saved => ⟨saved, ?_⟩⟩
    · rw [VFSFileObject.call, hsame]
      exact ⟨hrefines, H.ready, H.fits⟩
    · rw [VFSFileObject.call, hsame, callRequests, if_pos hnone]
      exact .nil
  · have hsame : (s.write data).2 = { writePages data 0 s with pos := s.pos + data.length } := by
      rw [VFSFileObject.write, if_neg hnone]
    have hfits : (writePages data 0 s).fileSize ≤ maxSize := by
      have hfits := H.fits
      rw [(writePages_written data 0 s).fileSize, List.drop_zero, Nat.add_zero]
      split <;> omega
    rw [hsame] at hrefines
    refine ⟨?_, fun saved => ⟨saved, ?_⟩⟩
    · rw [VFSFileObject.call, hsame]
      exact ⟨hrefines, (H.ready.writePages data).of_pages rfl rfl rfl rfl, hfits⟩
    · rw [VFSFileObject.call, hsame, callRequests, if_neg hnone]
      exact writeRequests_asks data 0 s H.length saved

theorem Caches.read (H : s.Caches maxSize l) (buffer : List UInt8) :
    s.Called maxSize l (.read buffer) := by
  have hspec := (read_spec H.isOpen buffer).2
  refine ⟨⟨(H.toRefines.read buffer).2, H.ready.of_pages hspec.pages hspec.content hspec.append
    hspec.fileSize, hspec.fileSize.trans_le H.fits⟩, fun saved => ⟨saved, ?_⟩⟩
  rw [callRequests, VFSFileObject.call, VFSFileObject.read]
  split
  · exact .nil
  · split
    · exact .nil
    · have hfits := H.fits
      exact readRequests_asks s _ 0 buffer s.file (by omega) saved

theorem Caches.flushRequests (H : s.Caches maxSize l) (saved : List UInt8) :
    FileIo.Takes maxSize ⟨s.file.toContent, saved⟩ s.flushRequests [l.content]
      ⟨s.flushInternal.file.toContent, l.content⟩ := by
  have hflush := flushRequests_takes H.isOpen H.append H.fits saved
  rwa [H.flushed] at hflush

theorem Caches.flush (H : s.Caches maxSize l) : s.Called maxSize l .flush :=
  ⟨⟨H.toRefines.flush, H.toRefines.flush.ready H.flushed,
    (flushInternal_kept H.isOpen).fileSize.trans_le H.fits⟩,
    fun saved => ⟨_, H.flushRequests saved⟩⟩

/-- The bytes behind a truncation: the page that holds the new end is zero from there on. -/
theorem Caches.byteAt_truncate (H : s.Caches maxSize l) (hok : (s.truncate n).1 = errOk)
    (hzero : s.TruncateOk n) (i : Nat) :
    (s.truncate n).2.byteAt i = (resize 0 l.content n).getD i 0 := by
  rw [getD_resize]
  by_cases hi : i < n
  · have hpage := truncate_pages H.isOpen hok (i / pageSize)
    rw [if_pos (by unfold pageSize; omega)] at hpage
    rw [if_pos hi, ← H.bytes i]
    refine byteAt_congr hpage fun hnone => ?_
    rw [truncate_content H.isOpen hok, H.flushed, getD_resize, if_pos hi, ← H.bytes i,
      byteAt_of_none hnone]
  · rw [if_neg hi]
    exact (hzero.zeroed H.isOpen hok (Nat.not_lt.mp hi)).byteAt

theorem Caches.truncate_refines (H : s.Caches maxSize l) (hn : n ≤ fileMax)
    (hzero : s.TruncateOk n) :
    (s.truncate n).2.Refines (l.call (.truncate n)) ∧ (s.truncate n).2.file =
      { s.flushInternal.file with content := (l.call (.truncate n)).content } := by
  have heq := truncate_eq (n := n) H.isOpen
  rw [if_neg (Nat.not_lt.mpr hn)] at heq
  have hbytes := H.byteAt_truncate (congrArg Prod.fst heq) hzero
  have hkept := flushInternal_kept H.isOpen
  rw [heq] at hbytes ⊢
  refine ⟨⟨hkept.isOpen.trans H.isOpen, hkept.append.trans H.append, ?_, length_resize.symm,
    hbytes⟩, by rw [H.flushed]; rfl⟩
  rw [hkept.pos, H.pos, LogicalFile.call, Nat.min_def]
  dsimp only
  split <;> split <;> omega

theorem Caches.truncate (H : s.Caches maxSize l) (hmax : maxSize ≤ fileMax) (hn : n ≤ maxSize)
    (hzero : s.TruncateOk n) : s.Called maxSize l (.truncate n) := by
  obtain ⟨hrefines, hfile⟩ := H.truncate_refines (hn.trans hmax) hzero
  refine ⟨⟨hrefines, hrefines.ready (congrArg LfsFile.content hfile),
    (hrefines.size.trans length_resize).trans_le hn⟩, fun saved => ⟨l.content, ?_⟩⟩
  rw [callRequests, if_pos H.isOpen, VFSFileObject.call, hfile]
  refine (H.flushRequests saved).append (.call (a := .done) ?_ .nil)
  rw [FileIo.Content.call, if_neg (Nat.not_lt.mpr hn), LfsFile.toContent, H.flushed]
  rfl

/-- **A call.** -/
theorem Caches.call (H : s.Caches maxSize l) (hmax : maxSize ≤ fileMax)
    (hcall : s.CallFits maxSize c) : s.Called maxSize l c := by
  cases c with
  | seek offset type => exact H.seek offset type
  | write data => exact H.write hcall
  | read buffer => exact H.read buffer
  | flush => exact H.flush
  | truncate size => exact H.truncate hmax hcall.1 hcall.2

theorem Caches.calls (H : s.Caches maxSize l) (hmax : maxSize ≤ fileMax) (calls : List Call)
    (hcalls : s.CallsFit maxSize calls) (saved : List UInt8) :
    ∃ y, FileIo.Takes maxSize ⟨s.file.toContent, saved⟩ (s.requests calls) (l.flushes calls) y := by
  induction calls generalizing s l saved with
  | nil => exact ⟨_, .nil⟩
  | cons c calls ih =>
    have hcalled := H.call hmax hcalls.1
    obtain ⟨saved', htakes⟩ := hcalled.takes saved
    obtain ⟨y, hrest⟩ := ih hcalled.caches hcalls.2 saved'
    exact ⟨y, htakes.append hrest⟩

/-- A file that is opened without `kFileAppend` and `kFileTruncate`. -/
theorem openFile_caches {flags : BitVec 32} (happend : flags &&& kFileAppend = 0)
    (htrunc : flags &&& kFileTruncate = 0) {content : List UInt8}
    (hfits : content.length ≤ maxSize) :
    (openFile flags content).Caches maxSize ⟨content, 0⟩ ∧
      (openFile flags content).file = { content } := by
  have hrefines := openFile_refines happend htrunc content
  have hfile : (openFile flags content).file = { content } := by
    simp only [openFile, initFileState, lfsFlags_append happend, lfsFlags_trunc htrunc, ne_eq,
      not_true_eq_false, ↓reduceIte, decide_false]
  exact ⟨⟨hrefines, hrefines.ready (by rw [hfile]), hrefines.size.trans_le hfits⟩, hfile⟩

/-! ## The device -/

variable {cfg : FileIo.Config} {m : FileIo.Media} {v : FileIo.Volume} {old : Nat → Nat}

/-- **What survives.** Whenever the requests of the calls stop, the entry of the file on the device
holds what the logical file was at the last flush that returned, or what the one under way saves. -/
theorem requests_survive (Hcfg : cfg.Fits) (hlong : 256 < cfg.cacheSize) (hm : m.Sound cfg)
    (hmax : cfg.Indexes maxSize) (H : FileIo.Idle cfg (· ∈ v.committed cfg) bytes old v.state)
    (hpos : v.state.file.pos ≤ maxSize) (hevents : v.state.events = [])
    (herred : v.state.file.erred = false)
    (hentry : v.entry = .ctz v.state.file.head v.state.file.size) (hattached : v.removed = false)
    (hdone : v.done = 0) (Hs : s.Caches maxSize l)
    (hfile : s.file.toContent = ⟨bytes, v.state.file.pos, v.state.file.append⟩) (calls : List Call)
    (hcalls : s.CallsFit maxSize calls)
    (hplain : FileIo.PlainSteps cfg m (s.requests calls) v) :
    (FileIo.runSteps cfg m (s.requests calls)).Ensures v
      (fun r v' => v'.HoldsSaves cfg (s.requests calls) (bytes :: l.flushes calls) ∧
        r.1 = (FileIo.Saved.run cfg.fileMaxSize ((s.requests calls).take v'.done)
          ⟨s.file.toContent, bytes⟩).1 ∧
        (r.2 = errOk → v'.Saves cfg ((l.flushes calls).getLastD bytes)))
      fun v' => v'.HoldsSaves cfg (s.requests calls) (bytes :: l.flushes calls) := by
  obtain ⟨y, htakes⟩ := Hs.calls (hmax.le.trans Hcfg.maxSize) calls hcalls bytes
  have hlength : bytes.length ≤ maxSize := by
    have h := Hs.length
    rwa [show s.file.content = bytes from congrArg FileIo.Content.bytes hfile] at h
  rw [hfile] at htakes ⊢
  have hreach := htakes.farthest_le hmax.le (Nat.max_le.mpr ⟨hpos, hlength⟩)
  replace htakes := htakes.mono hmax.le
  refine (FileIo.runSteps_survives Hcfg hlong hm H hevents herred hentry hattached hdone _
    hplain (hmax.mono hreach)).mono (fun r v' h => ?_) fun v' h => h.holdsSaves htakes
  obtain ⟨hsurvives, -, hanswers, hall⟩ := h
  have hsaves := hsurvives.holdsSaves htakes
  exact ⟨hsaves, hanswers, fun hok => hsaves.last htakes.length_saves (hall hok)⟩

/-! ## A page that is rewritten -/

def threeSevens : VFSFileObject := openFile (kFileRead ||| kFileWrite) [7, 7, 7]

theorem threeSevens_caches : threeSevens.Caches 1000 ⟨[7, 7, 7], 0⟩ ∧
    threeSevens.file = { content := [7, 7, 7] } :=
  openFile_caches (by decide) (by decide) (by decide)

def rewriting : List Call := [.write [1, 2], .flush]

def rewritten : List FileIo.Step :=
  [.call (.seek 0 .set), .call (.read 3), .call (.seek 0 .set), .call (.write [1, 2, 7]), .sync]

theorem threeSevens_write : (threeSevens.write [1, 2]).2 =
    { threeSevens.writeChunk 0 [1, 2] (by decide) with pos := 2 } := by
  rw [write, if_neg (by decide +kernel), writePages, dif_pos (by decide), writePages,
    dif_neg (by decide +kernel)]
  rfl

theorem threeSevens_writeRequests :
    writeRequests [1, 2] 0 threeSevens = seekAnd 0 (.read 3) := by
  rw [writeRequests, dif_pos (by decide)]
  have hidx : (threeSevens.pos + 0) / pageSize = 0 := by decide +kernel
  have hnone : threeSevens.pages[0]? = none := Std.TreeMap.getElem?_emptyc
  have hsize : threeSevens.file.size = 3 := by rw [threeSevens_caches.2]; rfl
  dsimp only
  rw [writeRequests, dif_neg (by decide +kernel), List.append_nil, hidx, loadRequests, hnone]
  dsimp only
  rw [hsize, Nat.zero_mul]
  exact if_pos (by decide)

theorem requests_rewriting : threeSevens.requests rewriting = rewritten := by
  have hopen : (threeSevens.call (.write [1, 2])).isOpen = true :=
    (threeSevens_caches.1.toRefines.write [1, 2]).isOpen
  have hflush : (threeSevens.call (.write [1, 2])).flushWrites = [(0, [1, 2, 7])] := by
    rw [call, threeSevens_write]
    decide +kernel
  rw [rewriting, requests, callRequests, if_neg (by decide +kernel), threeSevens_writeRequests,
    requests, callRequests, flushRequests, if_pos hopen, hflush]
  rfl

theorem rewritten_plain : FileIo.PlainSteps FileIo.wideCaches
    (FileIo.losesPower FileIo.wideCaches 0 4) rewritten FileIo.threeBytesSaved := by
  refine .cons (fun _ h => ?_) (.cons (fun _ h => ?_) (.cons (fun _ h => ?_)
    (.cons (fun _ h => ?_) (.cons (fun _ h => ?_) trivial))))
  · cases h
    exact fun _ _ hslips => absurd hslips.2.1 Bool.false_ne_true
  · cases h
    trivial
  · cases h
    exact fun _ _ hslips => absurd hslips.2.2.1 (by decide +kernel)
  · cases h
    trivial
  · cases h

/-- The sync fails, but the page has reached the device. -/
theorem requests_survive_rewriting :
    (FileIo.runSteps FileIo.wideCaches (FileIo.losesPower FileIo.wideCaches 0 4) rewritten
        FileIo.threeBytesSaved).1 =
      some ([.position 0, .bytes [7, 7, 7], .position 0, .wrote 3], errIo) ∧
    (FileIo.runSteps FileIo.wideCaches (FileIo.losesPower FileIo.wideCaches 0 4) rewritten
        FileIo.threeBytesSaved).2.entry = .ctz 2 3 ∧
    (FileIo.runSteps FileIo.wideCaches (FileIo.losesPower FileIo.wideCaches 0 4)
        (threeSevens.requests rewriting)).Ensures FileIo.threeBytesSaved
      (fun r v' =>
        v'.HoldsSaves FileIo.wideCaches (threeSevens.requests rewriting) [[7, 7, 7], [1, 2, 7]] ∧
        r.1 = (FileIo.Saved.run FileIo.wideCaches.fileMaxSize
          ((threeSevens.requests rewriting).take v'.done)
          ⟨threeSevens.file.toContent, [7, 7, 7]⟩).1 ∧
        (r.2 = errOk → v'.Saves FileIo.wideCaches [1, 2, 7]))
      fun v' =>
        v'.HoldsSaves FileIo.wideCaches (threeSevens.requests rewriting) [[7, 7, 7], [1, 2, 7]] :=
  ⟨by decide +kernel, by decide +kernel, requests_survive FileIo.wideCaches_fits (by decide)
    (FileIo.losesPower_sound _ _ _) (FileIo.wideCaches_indexes (Nat.le_refl 1000))
    (FileIo.threeBytes_idle (by decide +kernel)) (by decide) rfl rfl rfl rfl rfl
      threeSevens_caches.1 (by rw [threeSevens_caches.2]; rfl) rewriting
    ⟨(show threeSevens.pos + 2 ≤ 1000 by decide +kernel), trivial, trivial⟩
    (requests_rewriting ▸ rewritten_plain)⟩

end VFSFileObject

end LittleFs
