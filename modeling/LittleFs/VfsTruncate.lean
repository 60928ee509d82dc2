import LittleFs.VfsRead

/-! Bytes that a truncation cut off.

A truncation drops the pages past the new end, but the page that holds the new end stays cached as
it is. Its bytes past the end are out of reach only until the file is extended over them: then the
cache hands them out again, and the next flush of the page writes them back. -/

namespace LittleFs
namespace VFSFileObject

open ZeroFill

variable {s s' : VFSFileObject} {x n : Nat}

/-! ## What a flush sends -/

/-- The write that a flush of page `idx` makes. -/
def send (s : VFSFileObject) (idx : Nat) : Option (Nat × List UInt8) :=
  s.pages[idx]?.bind (s.pageWrite idx)

/-- The writes that `flush_internal` makes, in order. -/
def flushWrites (s : VFSFileObject) : List (Nat × List UInt8) := s.dirtyPages.filterMap s.send

theorem flushPage_send (s : VFSFileObject) (idx i : Nat) : (s.flushPage idx).send i = s.send i := by
  have hkept := s.flushPage_kept idx
  have hdata := hkept.data i
  rcases hpage : s.pages[i]? with _ | page
  · rw [hpage, Option.map_none, Option.map_eq_none_iff] at hdata
    rw [send, send, hdata, hpage]
    rfl
  · rw [hpage, Option.map_some, Option.map_eq_some_iff] at hdata
    obtain ⟨page', hpage', heq⟩ := hdata
    simp only [send, hpage', hpage, Option.bind_some, pageWrite, hkept.fileSize, heq]

theorem flushPage_file (s : VFSFileObject) (idx : Nat) :
    (s.flushPage idx).file =
      (s.send idx).elim s.file fun sent => (s.file.seek sent.1).write sent.2 := by
  rcases hpage : s.pages[idx]? with _ | page
  · simp only [flushPage, send, hpage, Option.bind_none, Option.elim_none]
  · simp only [flushPage, send, hpage, Option.bind_some]
    rcases s.pageWrite idx page with _ | ⟨start, bytes⟩ <;> rfl

/-- `flushWrites` is what the layer below receives. -/
theorem foldl_flushPage_file (indices : List Nat) :
    (indices.foldl flushPage s).file = (indices.filterMap s.send).foldl
      (fun file sent => (file.seek sent.1).write sent.2) s.file := by
  induction indices generalizing s with
  | nil => rfl
  | cons idx rest ih =>
    have hsend : (s.flushPage idx).send = s.send := funext fun i => s.flushPage_send idx i
    rw [List.foldl_cons, ih, hsend, flushPage_file, List.filterMap_cons]
    rcases s.send idx with _ | sent <;> rfl

/-! ## Truncating -/

theorem truncate_eq (hopen : s.isOpen = true) : s.truncate n =
    if n > fileMax then (errInval, s.flushInternal)
    else (errOk, { s.flushInternal with
      file := { s.flushInternal.file with content := resize 0 s.flushInternal.file.content n }
      fileSize := n
      pos := if s.flushInternal.pos > n then n else s.flushInternal.pos
      pages := s.flushInternal.pages.filter fun idx _ =>
        ¬ idx ≥ (n + pageSize - 1) / pageSize }) := by
  unfold truncate
  rw [if_neg (by simp [hopen])]
  by_cases hmax : n > fileMax
  · simp only [LfsFile.truncate, if_pos hmax, show errInval ≠ errOk by decide, ↓reduceIte]
  · simp only [LfsFile.truncate, if_neg hmax, ↓reduceIte]

/-- What stays of the cache: the pages before the new end. -/
theorem truncate_pages (hopen : s.isOpen = true) (hok : (s.truncate n).1 = errOk) (i : Nat) :
    ((s.truncate n).2.pages[i]?).map Page.data =
      if i < (n + pageSize - 1) / pageSize then (s.pages[i]?).map Page.data else none := by
  rw [truncate_eq hopen] at hok ⊢
  split at hok
  · cases hok
  · rw [if_neg ‹_›, Std.TreeMap.getElem?_filter', ← (flushInternal_kept hopen).data]
    rcases s.flushInternal.pages[i]? with _ | page
    · simp
    · by_cases hi : i < (n + pageSize - 1) / pageSize
      · simp [Option.filter, hi]
      · simp [Option.filter, hi, Nat.le_of_not_lt hi]

theorem truncate_content (hopen : s.isOpen = true) (hok : (s.truncate n).1 = errOk) :
    (s.truncate n).2.file.content = resize 0 s.flushInternal.file.content n := by
  rw [truncate_eq hopen] at hok ⊢
  split at hok
  · cases hok
  · rw [if_neg ‹_›]

/-! ## What stays zero -/

/-- Offset `x` reads as zero, from its page and from the layer below. -/
structure Zeroed (s : VFSFileObject) (x : Nat) : Prop where
  byteAt : s.byteAt x = 0
  content : s.file.content.getD x 0 = 0

theorem byteAt_of_data (h : (s'.pages[x / pageSize]?).map Page.data = some data) :
    s'.byteAt x = data.getD (x % pageSize) 0 := by
  obtain ⟨page, hpage, rfl⟩ := Option.map_eq_some_iff.mp h
  exact byteAt_of_page hpage

/-- The condition on a truncation: the cached page that holds the new end is zero from there on. -/
def TruncateOk (s : VFSFileObject) (n : Nat) : Prop :=
  n % pageSize ≠ 0 → ∀ page, s.pages[n / pageSize]? = some page →
    ∀ off < pageSize, n % pageSize ≤ off → page.data.getD off 0 = 0

theorem TruncateOk.zeroed (H : s.TruncateOk n) (hopen : s.isOpen = true)
    (hok : (s.truncate n).1 = errOk) (hx : n ≤ x) : (s.truncate n).2.Zeroed x := by
  have hcontent : (s.truncate n).2.file.content.getD x 0 = 0 := by
    rw [truncate_content hopen hok, getD_resize, if_neg (Nat.not_lt.mpr hx)]
  refine ⟨?_, hcontent⟩
  have hpages := truncate_pages hopen hok (x / pageSize)
  by_cases hidx : x / pageSize < (n + pageSize - 1) / pageSize
  · rw [if_pos hidx] at hpages
    -- only the page that holds the new end is kept and has offsets past it
    have hend : n % pageSize ≠ 0 ∧ x / pageSize = n / pageSize ∧ n % pageSize ≤ x % pageSize := by
      unfold pageSize at *
      omega
    rcases hpage : s.pages[x / pageSize]? with _ | page
    · rw [hpage, Option.map_none, Option.map_eq_none_iff] at hpages
      rw [byteAt_of_none hpages, hcontent]
    · rw [hpage, Option.map_some] at hpages
      rw [byteAt_of_data hpages]
      exact H hend.1 page (hend.2.1 ▸ hpage) _ (Nat.mod_lt _ (by decide)) hend.2.2
  · rw [if_neg hidx, Option.map_eq_none_iff] at hpages
    rw [byteAt_of_none hpages, hcontent]

/-- Every page that a call flushes lands at its own place, which fails only for handles opened with
`kFileAppend`. -/
def CallOk (s : VFSFileObject) : Call → Prop
  | .flush | .truncate _ => s.Placed s.dirtyPages
  | _ => True

def CallsOk : VFSFileObject → List Call → Prop
  | _, [] => True
  | s, c :: calls => s.CallOk c ∧ CallsOk (s.call c) calls

/-- The offsets that a call writes. -/
def WritesAt (s : VFSFileObject) : Call → Nat → Prop
  | .write data, x => s.pos ≤ x ∧ x < s.pos + data.length
  | _, _ => False

/-- The offsets written by a sequence of calls. -/
def Writes : VFSFileObject → List Call → Nat → Prop
  | _, [], _ => False
  | s, c :: calls, x => s.WritesAt c x ∨ Writes (s.call c) calls x

theorem Zeroed.flush (H : s.Zeroed x) (hok : s.Placed s.dirtyPages) : s.flushInternal.Zeroed x := by
  by_cases hopen : s.isOpen = true
  · have hflush := flushInternal_flushed hopen hok
    refine ⟨(hflush.byteAt x).trans H.byteAt, ?_⟩
    rw [hflush.content]
    split
    · exact H.byteAt
    · exact H.content
  · rwa [flushInternal, if_neg hopen]

theorem Zeroed.truncate (H : s.Zeroed x) (hok : s.Placed s.dirtyPages) :
    (s.truncate n).2.Zeroed x := by
  by_cases hopen : s.isOpen = true
  · have hflush := H.flush hok
    by_cases hmax : n > fileMax
    · rw [truncate_eq hopen, if_pos hmax]
      exact hflush
    · have herr : (s.truncate n).1 = errOk := by rw [truncate_eq hopen, if_neg hmax]
      have hcontent : (s.truncate n).2.file.content.getD x 0 = 0 := by
        rw [truncate_content hopen herr, getD_resize]
        split
        · exact hflush.content
        · rfl
      refine ⟨?_, hcontent⟩
      have hpages := truncate_pages hopen herr (x / pageSize)
      split at hpages
      · rcases hpage : s.pages[x / pageSize]? with _ | page
        · rw [hpage, Option.map_none, Option.map_eq_none_iff] at hpages
          rw [byteAt_of_none hpages, hcontent]
        · rw [hpage, Option.map_some] at hpages
          rw [byteAt_of_data hpages, ← byteAt_of_page hpage, H.byteAt]
      · rw [Option.map_eq_none_iff] at hpages
        rw [byteAt_of_none hpages, hcontent]
  · rwa [VFSFileObject.truncate, if_pos hopen]

theorem Zeroed.write (H : s.Zeroed x) (hx : ¬s.WritesAt (.write data) x) :
    (s.write data).2.Zeroed x := by
  unfold VFSFileObject.write
  split
  · exact H
  · have hwritten := writePages_written data 0 s
    rw [List.drop_zero, Nat.add_zero] at hwritten
    refine ⟨(hwritten.byteAt x).trans ?_, ?_⟩
    · exact (if_neg hx).trans H.byteAt
    · exact (congrArg (·.getD x 0) hwritten.content).trans H.content

theorem Zeroed.read (H : s.Zeroed x) (buffer : List UInt8) : (s.read buffer).2.2.Zeroed x := by
  by_cases hopen : s.isOpen = true
  · have hspec := (read_spec hopen buffer).2
    exact ⟨(hspec.byteAt x).trans H.byteAt, (congrArg (·.getD x 0) hspec.content).trans H.content⟩
  · rwa [VFSFileObject.read, if_pos (.inl hopen)]

theorem Zeroed.seek (H : s.Zeroed x) (offset : BitVec 64) (type : SeekType) :
    (s.seek offset type).2.Zeroed x := by
  obtain ⟨hpages, hfile⟩ := s.seek_kept offset type
  refine ⟨(byteAt_congr (by rw [hpages]) fun _ => by rw [hfile]).trans H.byteAt, ?_⟩
  rw [hfile]
  exact H.content

/-- One call. -/
theorem Zeroed.call (H : s.Zeroed x) (hok : s.CallOk c) (hx : ¬s.WritesAt c x) :
    (s.call c).Zeroed x := by
  cases c with
  | seek offset type => exact H.seek offset type
  | write data => exact H.write hx
  | read buffer => exact H.read buffer
  | flush => exact H.flush hok
  | truncate size => exact H.truncate hok

theorem Zeroed.calls {calls : List Call} (H : s.Zeroed x) (hok : s.CallsOk calls)
    (hx : ¬s.Writes calls x) : (calls.foldl VFSFileObject.call s).Zeroed x := by
  induction calls generalizing s with
  | nil => exact H
  | cons c calls ih =>
    exact ih (H.call hok.1 fun h => hx (.inl h)) hok.2 fun h => hx (.inr h)

theorem Zeroed.read_eq_zero_iff (H : s.Zeroed (s.pos + j)) (buffer : List UInt8)
    (hj : j < (s.read buffer).1) :
    (s.read buffer).2.1.getD j 0 = 0 ↔ (s.Hole (s.pos + j) → buffer.getD j 0 = 0) := by
  by_cases hopen : s.isOpen = true
  · rw [(read_spec hopen buffer).2.getD]
    by_cases hhole : s.Hole (s.pos + j)
    · rw [if_neg fun h => h.2 hhole]
      exact ⟨fun h _ => h, fun h => h hhole⟩
    · rw [if_pos ⟨hj, hhole⟩]
      exact ⟨fun _ h => absurd h hhole, fun _ => H.byteAt⟩
  · rw [VFSFileObject.read, if_pos (.inl hopen)] at hj
    exact absurd hj (Nat.not_lt_zero j)

theorem Zeroed.flushWrites (H : s.Zeroed (start + j)) (hsent : (start, bytes) ∈ s.flushWrites) :
    bytes.getD j 0 = 0 := by
  obtain ⟨idx, _, hsend⟩ := List.mem_filterMap.mp hsent
  obtain ⟨page, hpage, hwrite⟩ := Option.bind_eq_some_iff.mp hsend
  simp only [pageWrite, Option.ite_none_right_eq_some, Option.some.injEq, Prod.mk.injEq] at hwrite
  obtain ⟨_, rfl, rfl⟩ := hwrite
  rw [getD_slice, Nat.zero_add]
  split
  · have hj : j < pageSize := by omega
    have hbyte := H.byteAt
    rwa [byteAt_of_page (by rw [page_div idx hj]; exact hpage), page_mod idx hj] at hbyte
  · rfl

/-- **Truncated bytes stay gone.** After a truncation that meets the condition and any calls that
place their pages, an offset past the truncation that was not written since is read as zero if and
only if it is no hole or the caller's buffer was zero there, and no flush sends anything else. -/
theorem truncated_stays_zero (hopen : s.isOpen = true)
    (hok : (s.truncate n).1 = errOk) (htruncate : s.TruncateOk n) {calls : List Call}
    (hcalls : (s.truncate n).2.CallsOk calls) (hx : n ≤ x)
    (hwrites : ¬(s.truncate n).2.Writes calls x) :
    let t := calls.foldl VFSFileObject.call (s.truncate n).2
    (∀ buffer j, j < (t.read buffer).1 → t.pos + j = x →
      ((t.read buffer).2.1.getD j 0 = 0 ↔ (t.Hole x → buffer.getD j 0 = 0))) ∧
    ∀ start bytes j, (start, bytes) ∈ t.flushWrites → start + j = x → bytes.getD j 0 = 0 := by
  have H := (htruncate.zeroed hopen hok hx).calls hcalls hwrites
  refine ⟨fun buffer j hj hpos => ?_, fun start bytes j hsent hpos => ?_⟩
  · subst hpos
    exact H.read_eq_zero_iff buffer hj
  · subst hpos
    exact H.flushWrites hsent

/-! ## What comes back -/

/-- The calls that extend a file over offset `x` and go back to it. -/
def extendOver (x : Nat) : List Call :=
  [.seek (BitVec.ofNat 64 (x + 1)) .seekSet, .write [0], .seek (BitVec.ofNat 64 x) .seekSet]

theorem seek_seekSet (hopen : s.isOpen = true) (hx : x < 2 ^ 63) :
    (s.seek (BitVec.ofNat 64 x) .seekSet).2 = { s with pos := x } := by
  have hnat : (BitVec.ofNat 64 x).toNat = x := by
    rw [BitVec.toNat_ofNat]
    exact Nat.mod_eq_of_lt (by omega)
  have hpos : ¬(BitVec.ofNat 64 x).toInt < 0 := by
    rw [BitVec.toInt_eq_toNat_of_lt (by omega)]
    omega
  simp only [seek, hopen, not_true_eq_false, ↓reduceIte, newPos, hpos, hnat]

/-- A byte of a page that stays cached past the new end is read again once the file is extended
over it. -/
theorem truncated_resurfaces (hopen : s.isOpen = true) (hok : (s.truncate n).1 = errOk)
    (hx : x + 1 < 2 ^ 63) (hidx : x / pageSize < (n + pageSize - 1) / pageSize)
    (hpage : s.pages[x / pageSize]? = some page) :
    let t := (extendOver x).foldl VFSFileObject.call (s.truncate n).2
    t.pos = x ∧ (t.read [0]).1 = 1 ∧
      (t.read [0]).2.1.getD 0 0 = page.data.getD (x % pageSize) 0 := by
  intro t
  have hopen₁ : (s.truncate n).2.isOpen = true := by
    rw [truncate_eq hopen]
    split <;> exact (flushInternal_kept hopen).isOpen.trans hopen
  have hpages := truncate_pages hopen hok (x / pageSize)
  rw [if_pos hidx, hpage, Option.map_some] at hpages
  obtain ⟨page₁, hpage₁, hdata⟩ := Option.map_eq_some_iff.mp hpages
  let u : VFSFileObject := { (s.truncate n).2 with pos := x + 1 }
  have hwritten := writePages_written [0] 0 u
  rw [List.drop_zero, Nat.add_zero] at hwritten
  have hopen₂ : (writePages [0] 0 u).isOpen = true := hwritten.isOpen.trans hopen₁
  have ht : t = { writePages [0] 0 u with pos := x } := by
    have hu : ((s.truncate n).2.seek (BitVec.ofNat 64 (x + 1)) .seekSet).2 = u :=
      seek_seekSet hopen₁ hx
    have hw : (u.write [0]).2 = { writePages [0] 0 u with pos := u.pos + 1 } := by
      rw [write, if_neg (by simp [u, hopen₁])]
      rfl
    have hback := seek_seekSet (s := (u.write [0]).2) (by rw [hw]; exact hopen₂)
      (show x < 2 ^ 63 by omega)
    change ((((s.truncate n).2.seek (BitVec.ofNat 64 (x + 1)) .seekSet).2.write [0]).2.seek
      (BitVec.ofNat 64 x) .seekSet).2 = _
    rw [hu, hback, hw]
  have hcached : ∃ page, t.pages[x / pageSize]? = some page := by
    rw [ht]
    by_cases htouch : (x + 1) / pageSize = x / pageSize
    · obtain ⟨page, hp, _⟩ := writePages_dirtyAt [0] 0 u
        (.inr ⟨x + 1, Nat.le_refl _, Nat.lt_succ_self _, htouch⟩)
      exact ⟨page, hp⟩
    · refine ⟨page₁, (writePages_untouched [0] 0 u fun y hy hlt => ?_).trans hpage₁⟩
      have : y = x + 1 := by
        simp only [u, List.length_singleton] at hy hlt
        omega
      rwa [this]
  have hbyte : t.byteAt x = page.data.getD (x % pageSize) 0 := by
    have hu : u.byteAt x = page₁.data.getD (x % pageSize) 0 := byteAt_of_page hpage₁
    rw [ht, ← hdata, ← hu]
    exact (hwritten.byteAt x).trans (if_neg fun h => by simp only [u] at h; omega)
  have hsize : x + 2 ≤ t.fileSize := by
    have hmax : (writePages [0] 0 u).fileSize = max u.fileSize (x + 1 + 1) := hwritten.fileSize
    rw [ht]
    exact (Nat.le_max_right _ _).trans_eq hmax.symm
  have hpos : t.pos = x := by rw [ht]
  obtain ⟨hcount, hspec⟩ := read_spec (s := t) (by rw [ht]; exact hopen₂) [0]
  have hone : (t.read [0]).1 = 1 := by
    rw [hcount, hpos]
    simp only [List.length_singleton]
    omega
  refine ⟨hpos, hone, ?_⟩
  obtain ⟨page', hpage'⟩ := hcached
  have hhole : ¬t.Hole x := fun h => by rw [h.1] at hpage'; cases hpage'
  rw [hspec.getD, hone, hpos, if_pos ⟨Nat.zero_lt_one, hhole⟩]
  exact hbyte

theorem extendOver_not_writes (hopen : s.isOpen = true) (hx : x + 1 < 2 ^ 63) :
    ¬s.Writes (extendOver x) x := by
  rintro (h | h | h | h)
  · exact h
  · have hpos : (s.call (.seek (BitVec.ofNat 64 (x + 1)) .seekSet)).pos = x + 1 :=
      congrArg VFSFileObject.pos (seek_seekSet hopen hx)
    have hle := h.1
    omega
  · exact h
  · exact h

/-- A file of three bytes whose page is cached because its first byte was written. -/
def threeBytes : VFSFileObject :=
  [.write [65]].foldl VFSFileObject.call (openFile (kFileRead ||| kFileWrite) [65, 66, 67])

theorem threeBytes_refines : threeBytes.Refines ⟨[65, 66, 67], 1⟩ :=
  (openFile_refines (by decide) (by decide) [65, 66, 67]).write [65]

theorem threeBytes_page : ∃ page, threeBytes.pages[0]? = some page ∧ page.data.getD 1 0 = 66 := by
  obtain ⟨page, hpage, _⟩ := writePages_dirtyAt [65] 0
    (openFile (kFileRead ||| kFileWrite) [65, 66, 67]) (.inr ⟨0, Nat.le_refl _, by decide, rfl⟩)
  exact ⟨page, hpage, (byteAt_of_page (i := 1) hpage).symm.trans (threeBytes_refines.bytes 1)⟩

/-- Truncated to one byte and extended over the second again, which then still reads as 66. -/
theorem truncated_stays_zero_fails :
    ¬ ∀ (content : List UInt8) (calls later : List Call) (n x j : Nat) (buffer : List UInt8),
      let s := calls.foldl VFSFileObject.call (openFile (kFileRead ||| kFileWrite) content)
      let t := later.foldl VFSFileObject.call (s.truncate n).2
      n < s.fileSize → (s.truncate n).1 = errOk → n ≤ x → ¬(s.truncate n).2.Writes later x →
      j < (t.read buffer).1 → t.pos + j = x → (t.read buffer).2.1.getD j 0 = 0 := by
  intro h
  have hopen := threeBytes_refines.isOpen
  have hsize : threeBytes.fileSize = 3 := threeBytes_refines.size
  have hok : (threeBytes.truncate 1).1 = errOk := by
    rw [truncate_eq hopen, if_neg (by decide)]
  have hopen₁ : (threeBytes.truncate 1).2.isOpen = true := by
    rw [truncate_eq hopen, if_neg (by decide)]
    exact (flushInternal_kept hopen).isOpen.trans hopen
  obtain ⟨page, hpage, hbyte⟩ := threeBytes_page
  obtain ⟨hpos, hcount, hread⟩ := truncated_resurfaces (x := 1) hopen hok (by decide) (by decide)
    hpage
  have hlt : 1 < threeBytes.fileSize := by rw [hsize]; decide
  have hj : 0 <
    (((extendOver 1).foldl VFSFileObject.call (threeBytes.truncate 1).2).read [0]).1 := by
    rw [hcount]
    decide
  have hzero : (((extendOver 1).foldl VFSFileObject.call (threeBytes.truncate 1).2).read
      [0]).2.1.getD 0 0 = 0 :=
    h [65, 66, 67] [.write [65]] (extendOver 1) 1 1 0 [0] hlt hok (Nat.le_refl _)
      (extendOver_not_writes hopen₁ (by decide)) hj hpos
  exact absurd (hzero.symm.trans (hread.trans hbyte)) (by decide)

/-- The same truncation when no page is cached yet. -/
theorem truncated_stays_zero_uncached :
    let u := ((openFile (kFileRead ||| kFileWrite) [65, 66, 67]).truncate 1).2
    let t := (extendOver 1).foldl VFSFileObject.call u
    (∀ buffer j, j < (t.read buffer).1 → t.pos + j = 1 →
      ((t.read buffer).2.1.getD j 0 = 0 ↔ (t.Hole 1 → buffer.getD j 0 = 0))) ∧
    ∀ start bytes j, (start, bytes) ∈ t.flushWrites → start + j = 1 → bytes.getD j 0 = 0 := by
  have hok : ((openFile (kFileRead ||| kFileWrite) [65, 66, 67]).truncate 1).1 = errOk := by
    rw [truncate_eq rfl, if_neg (by decide)]
  have hopen₁ : ((openFile (kFileRead ||| kFileWrite) [65, 66, 67]).truncate 1).2.isOpen =
    true := by
    rw [truncate_eq rfl, if_neg (by decide)]
    exact (flushInternal_kept rfl).isOpen
  have htruncate : (openFile (kFileRead ||| kFileWrite) [65, 66, 67]).TruncateOk 1 := by
    intro _ page hpage
    rw [show (openFile _ _).pages = ∅ from rfl, Std.TreeMap.getElem?_emptyc] at hpage
    cases hpage
  exact truncated_stays_zero rfl hok htruncate ⟨trivial, trivial, trivial, trivial⟩ (Nat.le_refl 1)
    (extendOver_not_writes hopen₁ (by decide))

end VFSFileObject

end LittleFs
