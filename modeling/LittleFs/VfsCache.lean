import LittleFs.VfsFile
import LittleFs.Lib.Run

/-! What the steps of the page cache do to the bytes of the file: `byteAt` is the byte at an offset
as the cached pages and the layer below have it together, whether or not the page was written,
loaded or never touched. -/

namespace LittleFs
namespace VFSFileObject

open ZeroFill

variable {s s' : VFSFileObject} {idx off i x n : Nat}

/-- The byte at an offset: from its page when that is cached, else from the layer below. -/
def byteAt (s : VFSFileObject) (i : Nat) : UInt8 :=
  match s.pages[i / pageSize]? with
  | some page => page.data.getD (i % pageSize) 0
  | none => s.file.content.getD i 0

theorem byteAt_of_page (h : s.pages[i / pageSize]? = some page) :
    s.byteAt i = page.data.getD (i % pageSize) 0 := by
  simp only [byteAt, h]

theorem byteAt_of_none (h : s.pages[i / pageSize]? = none) :
    s.byteAt i = s.file.content.getD i 0 := by
  simp only [byteAt, h]

theorem byteAt_congr (hpage : (s'.pages[i / pageSize]?).map Page.data =
      (s.pages[i / pageSize]?).map Page.data)
    (hcontent : s.pages[i / pageSize]? = none →
      s'.file.content.getD i 0 = s.file.content.getD i 0) : s'.byteAt i = s.byteAt i := by
  rcases h : s.pages[i / pageSize]? with _ | page
  · rw [h, Option.map_none, Option.map_eq_none_iff] at hpage
    rw [byteAt_of_none h, byteAt_of_none hpage, hcontent h]
  · rw [h, Option.map_some, Option.map_eq_some_iff] at hpage
    obtain ⟨page', h', hdata⟩ := hpage
    rw [byteAt_of_page h, byteAt_of_page h', hdata]

theorem page_div (idx : Nat) (h : off < pageSize) : (idx * pageSize + off) / pageSize = idx := by
  unfold pageSize at *
  omega

theorem page_mod (idx : Nat) (h : off < pageSize) : (idx * pageSize + off) % pageSize = off := by
  unfold pageSize at *
  omega

theorem getElem?_insert_self {pages : Std.TreeMap Nat Page} :
    (pages.insert idx page)[idx]? = some page := by
  rw [Std.TreeMap.getElem?_insert, Nat.compare_eq_eq.mpr rfl, if_pos rfl]

theorem getElem?_insert_of_ne {pages : Std.TreeMap Nat Page} (h : i ≠ idx) :
    (pages.insert idx page)[i]? = pages[i]? := by
  rw [Std.TreeMap.getElem?_insert, if_neg fun heq => h (Nat.compare_eq_eq.mp heq).symm]

theorem Page.getD_ofBytes {bytes : List UInt8} (h : i < pageSize) :
    (Page.ofBytes bytes).data.getD i 0 = bytes.getD i 0 := by
  rw [Page.ofBytes, getD_resize, if_pos h]

/-- A chunk stays in one page. -/
theorem chunk_page (currPos chunk j : Nat) (hchunk : chunk ≤ pageSize - currPos % pageSize)
    (hj : j < chunk) :
    (currPos + j) / pageSize = currPos / pageSize ∧
      (currPos + j) % pageSize = currPos % pageSize + j := by
  unfold pageSize at *
  omega

/-! ## Loading a page -/

/-- What a step that only loads pages keeps. -/
structure Loaded (s s' : VFSFileObject) : Prop where
  content : s'.file.content = s.file.content
  append : s'.file.append = s.file.append
  pos : s'.pos = s.pos
  fileSize : s'.fileSize = s.fileSize
  isOpen : s'.isOpen = s.isOpen

/-- A page that is loaded holds the bytes of the file there. -/
theorem loadPageIfNeeded_getD (s : VFSFileObject) (h : off < pageSize) :
    (s.loadPageIfNeeded idx).1.data.getD off 0 = s.byteAt (idx * pageSize + off) := by
  have hdiv := page_div idx h
  have hmod := page_mod idx h
  rcases hpage : s.pages[idx]? with _ | page
  · rw [byteAt_of_none (by rw [hdiv]; exact hpage)]
    simp only [loadPageIfNeeded, hpage]
    by_cases hdisk : 0 < s.file.size ∧ idx * pageSize < s.file.size
    · rw [if_pos hdisk, LfsFile.read, LfsFile.seek, Page.getD_ofBytes h, getD_slice]
      split
      · rfl
      · rw [getD_eq_of_length_le (by simp only [LfsFile.size] at *; omega)]
    · have hend : s.file.content.length ≤ idx * pageSize + off := by
        simp only [LfsFile.size] at hdisk
        omega
      rw [if_neg hdisk, Page.getD_ofBytes h, getD_eq_of_length_le hend]
      rfl
  · rw [byteAt_of_page (by rw [hdiv]; exact hpage), hmod]
    simp only [loadPageIfNeeded, hpage]

theorem loadPageIfNeeded_loaded (s : VFSFileObject) (idx : Nat) :
    Loaded s (s.loadPageIfNeeded idx).2 := by
  unfold loadPageIfNeeded
  split
  · exact ⟨rfl, rfl, rfl, rfl, rfl⟩
  · dsimp only
    split <;> exact ⟨rfl, rfl, rfl, rfl, rfl⟩

theorem loadPageIfNeeded_pages (s : VFSFileObject) (h : i ≠ idx) :
    (s.loadPageIfNeeded idx).2.pages[i]? = s.pages[i]? := by
  unfold loadPageIfNeeded
  split
  · rfl
  · exact getElem?_insert_of_ne h

/-! ## Writing -/

/-- What a write of `bytes` at `currPos` does. -/
structure Written (s s' : VFSFileObject) (currPos : Nat) (bytes : List UInt8) : Prop where
  byteAt : ∀ i, s'.byteAt i =
    if currPos ≤ i ∧ i < currPos + bytes.length then bytes.getD (i - currPos) 0 else s.byteAt i
  fileSize : s'.fileSize = if bytes = [] then s.fileSize else max s.fileSize
    (currPos + bytes.length)
  content : s'.file.content = s.file.content
  append : s'.file.append = s.file.append
  pos : s'.pos = s.pos
  isOpen : s'.isOpen = s.isOpen

theorem writeChunk_pages (h : currPos % pageSize + bytes.length ≤ pageSize) :
    (s.writeChunk currPos bytes h).pages[i]? =
      if i = currPos / pageSize then
        some ((s.loadPageIfNeeded (currPos / pageSize)).1.write (currPos % pageSize) bytes h)
      else s.pages[i]? := by
  simp only [writeChunk]
  split
  · subst i
    exact getElem?_insert_self
  · rw [getElem?_insert_of_ne ‹_›, loadPageIfNeeded_pages s ‹_›]

theorem writeChunk_written (s : VFSFileObject)
    (h : currPos % pageSize + bytes.length ≤ pageSize) (hne : bytes ≠ []) :
    Written s (s.writeChunk currPos bytes h) currPos bytes := by
  have hload := loadPageIfNeeded_loaded s (currPos / pageSize)
  refine ⟨fun i => ?_, ?_, hload.content, hload.append, hload.pos, hload.isOpen⟩
  · have hdm := Nat.div_add_mod' i pageSize
    have hcur := Nat.div_add_mod' currPos pageSize
    have hmod : i % pageSize < pageSize := Nat.mod_lt _ (by decide)
    by_cases hidx : i / pageSize = currPos / pageSize
    · rw [byteAt_of_page ((writeChunk_pages h).trans (if_pos hidx)), Page.write, getD_writeAt,
        loadPageIfNeeded_getD s hmod, ← hidx, hdm]
      rw [hidx] at hdm
      by_cases hin : currPos ≤ i ∧ i < currPos + bytes.length
      · rw [if_pos (by omega), if_pos hin]
        congr 1
        omega
      · rw [if_neg (by omega), if_neg hin]
    · have hout : ¬(currPos ≤ i ∧ i < currPos + bytes.length) := by
        unfold pageSize at *
        omega
      rw [if_neg hout]
      refine byteAt_congr (by rw [writeChunk_pages, if_neg hidx]) fun _ => ?_
      exact congrArg (fun content : List UInt8 => content.getD i 0) hload.content
  · rw [if_neg hne]
    simp only [writeChunk, hload.fileSize, Nat.max_def]
    split <;> split <;> omega

theorem Written.refl (s : VFSFileObject) (currPos : Nat) : Written s s currPos [] := by
  refine ⟨fun i => ?_, (if_pos rfl).symm, rfl, rfl, rfl, rfl⟩
  rw [if_neg (by rw [List.length_nil]; omega)]

theorem Written.trans (H : Written s s' currPos bytes)
    (K : Written s' s'' (currPos + bytes.length) rest) :
    Written s s'' currPos (bytes ++ rest) := by
  refine ⟨fun i => ?_, ?_, K.content.trans H.content, K.append.trans H.append, K.pos.trans H.pos,
    K.isOpen.trans H.isOpen⟩
  · rw [K.byteAt, H.byteAt, List.length_append, getD_append]
    by_cases hrest : currPos + bytes.length ≤ i ∧ i < currPos + bytes.length + rest.length
    · rw [if_pos hrest, if_pos (by omega), if_neg (by omega), Nat.sub_sub]
    · rw [if_neg hrest]
      by_cases hbytes : currPos ≤ i ∧ i < currPos + bytes.length
      · rw [if_pos hbytes, if_pos (by omega), if_pos (by omega)]
      · rw [if_neg hbytes, if_neg (by omega)]
  · rw [K.fileSize, H.fileSize, List.length_append]
    rcases bytes with _ | ⟨b, bytes⟩ <;> rcases rest with _ | ⟨r, rest⟩ <;> simp
    omega

/-- The loop of `write` writes the rest of the data. -/
theorem writePages_written (data : List UInt8) (n : Nat) (s : VFSFileObject) :
    Written s (writePages data n s) (s.pos + n) (data.drop n) := by
  fun_induction writePages data n s with
  | case1 n s h currPos chunk hmod ih =>
    have hne : slice data n chunk ≠ [] := by
      rw [← List.length_pos_iff_ne_nil, length_slice]
      omega
    have hfits : currPos % pageSize + (slice data n chunk).length ≤ pageSize := by
      rw [length_slice]
      omega
    have hchunk := s.writeChunk_written hfits hne
    rw [hchunk.pos] at ih
    have hpos : s.pos + (n + chunk) = currPos + (slice data n chunk).length := by
      rw [length_slice]
      omega
    rw [hpos] at ih
    rw [← slice_append_drop (n := chunk)]
    exact hchunk.trans ih
  | case2 n s h =>
    rw [List.drop_eq_nil_of_le (by omega)]
    exact .refl s _

theorem writeChunk_pos (h : currPos % pageSize + bytes.length ≤ pageSize) :
    (s.writeChunk currPos bytes h).pos = s.pos :=
  (loadPageIfNeeded_loaded s _).pos

theorem writePages_untouched (data : List UInt8) (n : Nat) (s : VFSFileObject)
    (h : ∀ x, s.pos + n ≤ x → x < s.pos + data.length → x / pageSize ≠ idx) :
    (writePages data n s).pages[idx]? = s.pages[idx]? := by
  fun_induction writePages data n s with
  | case1 n s hn currPos chunk hmod ih =>
    rw [writeChunk_pos] at ih
    rw [ih fun x hx => h x (by omega), writeChunk_pages,
      if_neg (h _ (Nat.le_refl _) (by omega)).symm]
  | case2 n s hn => rfl

/-- A page that is cached and dirty. -/
def DirtyAt (s : VFSFileObject) (idx : Nat) : Prop :=
  ∃ page, s.pages[idx]? = some page ∧ page.dirty = true

theorem writeChunk_dirtyAt (h : currPos % pageSize + bytes.length ≤ pageSize)
    (hdirty : s.DirtyAt idx ∨ idx = currPos / pageSize) :
    (s.writeChunk currPos bytes h).DirtyAt idx := by
  by_cases hidx : idx = currPos / pageSize
  · exact ⟨_, (writeChunk_pages h).trans (if_pos hidx), rfl⟩
  · obtain ⟨page, hpage, hd⟩ := hdirty.resolve_right hidx
    exact ⟨page, by rw [writeChunk_pages, if_neg hidx, hpage], hd⟩

/-- The pages that a write touches are dirty, and dirty pages stay so. -/
theorem writePages_dirtyAt (data : List UInt8) (n : Nat) (s : VFSFileObject)
    (h : s.DirtyAt idx ∨ ∃ x, s.pos + n ≤ x ∧ x < s.pos + data.length ∧ x / pageSize = idx) :
    (writePages data n s).DirtyAt idx := by
  fun_induction writePages data n s with
  | case1 n s hn currPos chunk hmod ih =>
    rw [writeChunk_pos] at ih
    apply ih
    rcases h with hdirty | ⟨x, hle, hlt, hx⟩
    · exact .inl (writeChunk_dirtyAt _ (.inl hdirty))
    · by_cases hlater : s.pos + (n + chunk) ≤ x
      · exact .inr ⟨x, hlater, hlt, hx⟩
      · have hpage := (chunk_page currPos chunk (x - currPos) (by omega) (by omega)).1
        rw [Nat.add_sub_cancel' (by omega), hx] at hpage
        exact .inl (writeChunk_dirtyAt _ (.inr hpage))
  | case2 n s hn =>
    refine h.resolve_right ?_
    rintro ⟨x, hle, hlt, _⟩
    omega

theorem writePages_dirtyAt_iff (data : List UInt8) (n : Nat) (s : VFSFileObject) :
    (writePages data n s).DirtyAt idx ↔
      s.DirtyAt idx ∨ ∃ x, s.pos + n ≤ x ∧ x < s.pos + data.length ∧ x / pageSize = idx := by
  refine ⟨fun h => ?_, writePages_dirtyAt data n s⟩
  by_cases htouched : ∃ x, s.pos + n ≤ x ∧ x < s.pos + data.length ∧ x / pageSize = idx
  · exact .inr htouched
  · rw [DirtyAt, writePages_untouched data n s fun x hx hlt heq => htouched ⟨x, hx, hlt, heq⟩] at h
    exact .inl h

/-- A cached page stays cached. -/
theorem writePages_cached (data : List UInt8) (n : Nat) (s : VFSFileObject)
    (h : (s.pages[idx]?).isSome) : ((writePages data n s).pages[idx]?).isSome := by
  by_cases htouched : ∃ x, s.pos + n ≤ x ∧ x < s.pos + data.length ∧ x / pageSize = idx
  · obtain ⟨page, hpage, _⟩ := writePages_dirtyAt data n s (.inr htouched)
    rw [hpage, Option.isSome_some]
  · rwa [writePages_untouched data n s fun x hx hlt heq => htouched ⟨x, hx, hlt, heq⟩]

/-! ## Flushing -/

theorem mem_dirtyPages : idx ∈ s.dirtyPages ↔ s.DirtyAt idx := by
  simp only [DirtyAt, dirtyPages, List.mem_map, List.mem_filter, Prod.exists, exists_and_right,
    exists_eq_right, Std.TreeMap.mem_toList_iff_getElem?_eq_some]

theorem dirtyPages_pairwise (s : VFSFileObject) : s.dirtyPages.Pairwise (· < ·) := by
  rw [dirtyPages, List.pairwise_map]
  refine List.Pairwise.filter _ (s.pages.ordered_keys_toList.imp fun h => ?_)
  exact Nat.compare_eq_lt.mp h

/-- What every flush of the pages `flushed` does to the object. -/
structure FlushKept (s s' : VFSFileObject) (flushed : List Nat) : Prop where
  pages : ∀ i, s'.pages[i]? = (s.pages[i]?).map fun page =>
    if i ∈ flushed then { page with dirty := false } else page
  append : s'.file.append = s.file.append
  pos : s'.pos = s.pos
  fileSize : s'.fileSize = s.fileSize
  isOpen : s'.isOpen = s.isOpen

theorem FlushKept.data (H : FlushKept s s' flushed) (i : Nat) :
    (s'.pages[i]?).map Page.data = (s.pages[i]?).map Page.data := by
  rw [H.pages, Option.map_map]
  congr 1
  funext page
  dsimp only [Function.comp_apply]
  split <;> rfl

theorem FlushKept.refl (s : VFSFileObject) : FlushKept s s [] :=
  ⟨fun i => by simp only [List.not_mem_nil, ↓reduceIte, Option.map_id'], rfl, rfl, rfl, rfl⟩

theorem FlushKept.trans (H : FlushKept s s' [idx]) (K : FlushKept s' s'' rest) :
    FlushKept s s'' (idx :: rest) := by
  refine ⟨fun i => ?_, K.append.trans H.append, K.pos.trans H.pos, K.fileSize.trans H.fileSize,
    K.isOpen.trans H.isOpen⟩
  rw [K.pages, H.pages, Option.map_map]
  congr 1
  funext page
  simp only [Function.comp_apply, List.mem_cons]
  by_cases hidx : i = idx <;> by_cases hrest : i ∈ rest <;> simp [hidx, hrest]

theorem flushPage_kept (s : VFSFileObject) (idx : Nat) : FlushKept s (s.flushPage idx) [idx] := by
  rcases h : s.pages[idx]? with _ | page
  · have hself : s.flushPage idx = s := by simp only [flushPage, h]
    rw [hself]
    refine ⟨fun i => ?_, rfl, rfl, rfl, rfl⟩
    rcases hpage : s.pages[i]? with _ | page
    · rfl
    · have hne : i ≠ idx := fun heq => by rw [heq, h] at hpage; cases hpage
      simp [hne]
  · refine ⟨fun i => ?_, ?_, ?_, ?_, ?_⟩ <;> simp only [flushPage, h]
    · by_cases hi : i = idx
      · subst hi
        rw [getElem?_insert_self, h, Option.map_some, if_pos (List.mem_singleton.mpr rfl)]
      · rw [getElem?_insert_of_ne hi]
        simp [hi]
    · split <;> rfl

theorem foldl_flushPage_kept (s : VFSFileObject) (indices : List Nat) :
    FlushKept s (indices.foldl flushPage s) indices := by
  induction indices generalizing s with
  | nil => exact .refl s
  | cons idx rest ih => exact (s.flushPage_kept idx).trans (ih _)

theorem flushInternal_kept (hopen : s.isOpen = true) :
    FlushKept s s.flushInternal s.dirtyPages := by
  rw [flushInternal, if_pos hopen]
  exact s.foldl_flushPage_kept _

/-- With `LFS_O_APPEND` the layer below moves a page that starts before its end. -/
def PlacedPage (s : VFSFileObject) (idx : Nat) : Prop :=
  s.file.append = true → s.file.content.length ≤ idx * pageSize

/-- Every page of a flush lands at its own place. -/
def Placed : VFSFileObject → List Nat → Prop
  | _, [] => True
  | s, idx :: rest => s.PlacedPage idx ∧ Placed (s.flushPage idx) rest

/-- What a flush does to the bytes when its pages land at their places. -/
structure Flushed (s s' : VFSFileObject) (flushed : List Nat) : Prop where
  byteAt : ∀ i, s'.byteAt i = s.byteAt i
  content : ∀ i, s'.file.content.getD i 0 =
    if i / pageSize ∈ flushed ∧ i < s.fileSize then s.byteAt i else s.file.content.getD i 0

theorem write_placed {f : LfsFile} {bytes : List UInt8}
    (h : f.append = true → f.content.length ≤ n) :
    ((f.seek n).write bytes).content = writeAt 0 f.content n bytes := by
  rw [LfsFile.write, if_neg fun hmove => absurd (h hmove.1) (Nat.not_le.mpr hmove.2)]
  rfl

theorem flushPage_content (h : s.pages[idx]? = some page) (hplaced : s.PlacedPage idx) :
    (s.flushPage idx).file.content =
      if idx * pageSize < s.fileSize then
        writeAt 0 s.file.content (idx * pageSize)
          (slice page.data 0 (min pageSize (s.fileSize - idx * pageSize)))
      else s.file.content := by
  by_cases hsize : idx * pageSize < s.fileSize
  · rw [if_pos hsize]
    simp only [flushPage, h, pageWrite, if_pos hsize]
    exact write_placed hplaced
  · rw [if_neg hsize]
    simp only [flushPage, h, pageWrite, if_neg hsize]

theorem flushPage_flushed (h : s.pages[idx]? = some page) (hplaced : s.PlacedPage idx) :
    Flushed s (s.flushPage idx) [idx] := by
  have hcontent : ∀ i, (s.flushPage idx).file.content.getD i 0 =
      if i / pageSize = idx ∧ i < s.fileSize then s.byteAt i else s.file.content.getD i 0 := by
    intro i
    have hdm := Nat.div_add_mod' i pageSize
    have hmod : i % pageSize < pageSize := Nat.mod_lt _ (by decide)
    rw [flushPage_content h hplaced]
    by_cases hsize : idx * pageSize < s.fileSize
    · rw [if_pos hsize, getD_writeAt, length_slice, page.length_data, getD_slice, Nat.zero_add]
      by_cases hidx : i / pageSize = idx
      · subst hidx
        have hoff : i - i / pageSize * pageSize = i % pageSize := by omega
        rw [byteAt_of_page h, hoff]
        by_cases hi : i < s.fileSize
        · rw [if_pos (by omega), if_pos (by omega), if_pos ⟨rfl, hi⟩]
        · rw [if_neg (by omega), if_neg (by omega)]
      · have hout : ¬(idx * pageSize ≤ i ∧ i < idx * pageSize + pageSize) := by
          unfold pageSize at *
          omega
        rw [if_neg (by omega), if_neg (by omega)]
    · rw [if_neg hsize, if_neg]
      rintro ⟨rfl, hi⟩
      omega
  refine ⟨fun i => byteAt_congr ((s.flushPage_kept idx).data _) fun hnone => ?_, fun i => ?_⟩
  · rw [hcontent, if_neg]
    rintro ⟨rfl, _⟩
    rw [h] at hnone
    cases hnone
  · simp only [hcontent, List.mem_singleton]

theorem Flushed.refl (s : VFSFileObject) : Flushed s s [] :=
  ⟨fun _ => rfl, fun i => by rw [if_neg fun h => nomatch h.1]⟩

theorem Flushed.trans (H : Flushed s s' [idx]) (hsize : s'.fileSize = s.fileSize)
    (K : Flushed s' s'' rest) : Flushed s s'' (idx :: rest) := by
  refine ⟨fun i => (K.byteAt i).trans (H.byteAt i), fun i => ?_⟩
  rw [K.content, H.content, H.byteAt, hsize]
  simp only [List.mem_cons, List.not_mem_nil, or_false]
  by_cases hrest : i / pageSize ∈ rest ∧ i < s.fileSize
  · rw [if_pos hrest, if_pos ⟨.inr hrest.1, hrest.2⟩]
  · rw [if_neg hrest]
    by_cases hidx : i / pageSize = idx ∧ i < s.fileSize
    · rw [if_pos hidx, if_pos ⟨.inl hidx.1, hidx.2⟩]
    · rw [if_neg hidx, if_neg]
      rintro ⟨heq | hmem, hlt⟩
      · exact hidx ⟨heq, hlt⟩
      · exact hrest ⟨hmem, hlt⟩

/-- The loop of `flush_internal`. -/
theorem foldl_flushPage {indices : List Nat} (hpages : ∀ idx ∈ indices, (s.pages[idx]?).isSome)
    (hplaced : s.Placed indices) : Flushed s (indices.foldl flushPage s) indices := by
  induction indices generalizing s with
  | nil => exact .refl s
  | cons idx rest ih =>
    obtain ⟨page, hpage⟩ := Option.isSome_iff_exists.mp (hpages idx (.head _))
    have hkept := s.flushPage_kept idx
    refine (flushPage_flushed hpage hplaced.1).trans hkept.fileSize (ih (fun j hj => ?_) hplaced.2)
    rw [hkept.pages, Option.isSome_map]
    exact hpages j (.tail _ hj)

theorem flushInternal_flushed (hopen : s.isOpen = true) (hplaced : s.Placed s.dirtyPages) :
    Flushed s s.flushInternal s.dirtyPages := by
  rw [flushInternal, if_pos hopen]
  refine foldl_flushPage (fun idx hidx => ?_) hplaced
  obtain ⟨page, hpage, _⟩ := mem_dirtyPages.mp hidx
  rw [hpage, Option.isSome_some]

/-! ## Reading -/

/-- An offset whose page is not cached, at or past the end of the layer below. -/
def Hole (s : VFSFileObject) (i : Nat) : Prop :=
  s.pages[i / pageSize]? = none ∧ s.file.content.length ≤ i

instance : Decidable (s.Hole i) := inferInstanceAs (Decidable (_ ∧ _))

/-- What the loop of `read` leaves in the caller's buffer: the bytes of the file, except that it
does not touch the buffer where the file has a hole. -/
theorem readPages_spec (s : VFSFileObject) (n k : Nat) (dst : List UInt8) (file : LfsFile)
    (hfile : file.content = s.file.content) (hk : k ≤ n) (hn : n ≤ dst.length) :
    (readPages s n k dst file).1 = n ∧
    (readPages s n k dst file).2.1.length = dst.length ∧
    (∀ j, (readPages s n k dst file).2.1.getD j 0 =
      if k ≤ j ∧ j < n ∧ ¬s.Hole (s.pos + j) then s.byteAt (s.pos + j) else dst.getD j 0) ∧
    (readPages s n k dst file).2.2.content = s.file.content ∧
    (readPages s n k dst file).2.2.append = file.append := by
  fun_induction readPages s n k dst file with
  | case1 k dst file h currPos pageIdx pageOff chunk page hpage ih =>
    have hlen : (slice page.data pageOff chunk).length = chunk := by
      rw [length_slice, page.length_data]
      omega
    have hwrite : (writeAt 0 dst k (slice page.data pageOff chunk)).length = dst.length := by
      rw [length_writeAt, hlen]
      omega
    obtain ⟨hcount, hlength, hget, hcontent, happend⟩ :=
      ih hfile (by omega) (by rw [hwrite]; exact hn)
    refine ⟨hcount, hlength.trans hwrite, fun j => ?_, hcontent, happend⟩
    rw [hget, getD_writeAt, hlen]
    by_cases hlater : k + chunk ≤ j
    · rw [if_neg (c := k ≤ j ∧ j < k + chunk) (by omega)]
      exact if_congr (and_congr_left fun _ => ⟨fun _ => by omega, fun _ => hlater⟩) rfl rfl
    · rw [if_neg (fun hc => hlater hc.1)]
      by_cases hj : k ≤ j
      · have hspan := chunk_page currPos chunk (j - k) (by omega) (by omega)
        have hpos : currPos + (j - k) = s.pos + j := by omega
        rw [hpos] at hspan
        have hcached : s.pages[(s.pos + j) / pageSize]? = some page := by rw [hspan.1]; exact hpage
        have hnot : ¬s.Hole (s.pos + j) := fun hole => by rw [hole.1] at hcached; cases hcached
        rw [if_pos (by omega), if_pos ⟨hj, by omega, hnot⟩, byteAt_of_page hcached, getD_slice,
          if_pos (by omega), hspan.2]
      · rw [if_neg (by omega), if_neg fun hc => hj hc.1]
  | case2 k dst file h currPos pageIdx pageOff chunk hpage bytes file' hread ih =>
    have hbytes : bytes = slice s.file.content currPos chunk := by
      rw [← hfile]
      exact (congrArg Prod.fst hread).symm
    have hfile' : file'.content = file.content ∧ file'.append = file.append := by
      have := congrArg Prod.snd hread
      subst this
      exact ⟨rfl, rfl⟩
    have hlen : bytes.length = min chunk (s.file.content.length - currPos) := by
      rw [hbytes, length_slice]
    have hwrite : (writeAt 0 dst k bytes).length = dst.length := by
      rw [length_writeAt, hlen]
      omega
    obtain ⟨hcount, hlength, hget, hcontent, happend⟩ :=
      ih (hfile'.1.trans hfile) (by omega) (by rw [hwrite]; exact hn)
    refine ⟨hcount, hlength.trans hwrite, fun j => ?_, hcontent, happend.trans hfile'.2⟩
    rw [hget, getD_writeAt, hlen]
    by_cases hlater : k + chunk ≤ j
    · rw [if_neg (c := k ≤ j ∧ _) (by omega)]
      exact if_congr (and_congr_left fun _ => ⟨fun _ => by omega, fun _ => hlater⟩) rfl rfl
    · rw [if_neg (fun hc => hlater hc.1)]
      by_cases hj : k ≤ j
      · have hspan := chunk_page currPos chunk (j - k) (by omega) (by omega)
        have hpos : currPos + (j - k) = s.pos + j := by omega
        rw [hpos] at hspan
        have hnone : s.pages[(s.pos + j) / pageSize]? = none := by rw [hspan.1]; exact hpage
        -- the read is short exactly where the file has a hole
        by_cases hdisk : s.pos + j < s.file.content.length
        · rw [if_pos (by omega), if_pos ⟨hj, by omega, fun hole => by have := hole.2; omega⟩,
            byteAt_of_none hnone, hbytes, getD_slice, if_pos (by omega), hpos]
        · rw [if_neg (by omega), if_neg fun hc => hc.2.2 ⟨hnone, by omega⟩]
      · rw [if_neg (by omega), if_neg fun hc => hj hc.1]
  | case3 k dst file h =>
    refine ⟨by dsimp only; omega, rfl, fun j => ?_, hfile, rfl⟩
    rw [if_neg (by omega)]

end VFSFileObject

end LittleFs
