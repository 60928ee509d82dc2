import Mathlib.Data.List.Sort
import LittleFs.VfsTruncate

/-! Writing through a handle opened with `kFileAppend`.

The flag reaches the layer below, which moves every write to the end of the file, but the object
starts at position 0, positions each page explicitly and keeps its own size. A flush therefore
appends whole pages: it appends the new bytes and nothing else exactly when the first of them starts
a page, and the object knows the size of the file only if the file was empty. -/

namespace LittleFs
namespace VFSFileObject

open ZeroFill

variable {s s' : VFSFileObject} {written : List UInt8} {flushed idx a n x : Nat}

/-- The data of a call of `write`. -/
def Call.data : Call → List UInt8
  | .write data => data
  | _ => []

/-- The data of all writes, in order. -/
def writtenData (calls : List Call) : List UInt8 := calls.flatMap Call.data

/-- A write or a flush. -/
def Call.IsAppend (c : Call) : Prop := c = .flush ∨ ∃ data, c = .write data

/-- The flags of an append handle. -/
def appendFlags : BitVec 32 := kFileRead ||| kFileWrite ||| kFileAppend

theorem openFile_append (old : List UInt8) :
    openFile appendFlags old = initFileState { content := old, append := true } := by
  have htrunc : lfsFlags appendFlags &&& lfsOTrunc = 0 := by decide
  have happend : lfsFlags appendFlags &&& lfsOAppend ≠ 0 := by decide
  simp only [openFile, htrunc, happend, ne_eq, not_true_eq_false, ↓reduceIte, not_false_eq_true,
    decide_true]

/-! ## What a flush appends -/

theorem write_append {f : LfsFile} {bytes : List UInt8} (happend : f.append = true)
    (h : n ≤ f.content.length) : ((f.seek n).write bytes).content = f.content ++ bytes := by
  rw [← writeAt_length (z := 0)]
  by_cases hlt : n < f.content.length
  · rw [LfsFile.write, if_pos ⟨happend, hlt⟩]
    rfl
  · rw [LfsFile.write, if_neg fun h => hlt h.2, Nat.le_antisymm h (Nat.le_of_not_lt hlt)]
    rfl

/-- The layer below appends consecutive pages one after the other. -/
theorem foldl_write_append {f : LfsFile} (happend : f.append = true)
    (ha : a * pageSize ≤ f.content.length)
    (hn : ∀ k < n, (a + k) * pageSize < written.length) :
    ((List.range' a n).foldl (fun file idx =>
      (file.seek (idx * pageSize)).write (slice written (idx * pageSize) pageSize)) f).content =
      f.content ++ slice written (a * pageSize) (n * pageSize) := by
  induction n generalizing a f with
  | zero => simp [slice]
  | succ n ih =>
    have hwrite : ((f.seek (a * pageSize)).write (slice written (a * pageSize) pageSize)).content =
        f.content ++ slice written (a * pageSize) pageSize := write_append happend ha
    have hnext : n = 0 ∨ (a + 1) * pageSize < written.length := by
      rcases n with _ | n
      · exact .inl rfl
      · exact .inr (hn 1 (by omega))
    have hpages : (n + 1) * pageSize = pageSize + n * pageSize := by
      rw [Nat.add_mul, Nat.one_mul, Nat.add_comm]
    have hstart : (a + 1) * pageSize = a * pageSize + pageSize := by
      rw [Nat.add_mul, Nat.one_mul]
    rw [List.range'_succ, List.foldl_cons]
    rcases hnext with rfl | hnext
    · rw [List.range'_zero, List.foldl_nil, hwrite, Nat.zero_add, Nat.one_mul]
    · have hlen : (a + 1) * pageSize ≤
          ((f.seek (a * pageSize)).write
            (slice written (a * pageSize) pageSize)).content.length := by
        rw [hwrite, List.length_append, length_slice]
        omega
      have hrest : ∀ k < n, (a + 1 + k) * pageSize < written.length := fun k hk => by
        have := hn (k + 1) (by omega)
        rwa [Nat.add_comm k 1, ← Nat.add_assoc] at this
      have happend' : ((f.seek (a * pageSize)).write
          (slice written (a * pageSize) pageSize)).append = true := happend
      rw [ih happend' hlen hrest, hwrite, List.append_assoc, hstart, slice_append_slice, hpages]

/-! ## The handle of an empty file -/

/-- What holds of an append handle of an empty file through which `written` was written, the first
`flushed` bytes of it before the last flush. -/
structure Appending (s : VFSFileObject) (written : List UInt8) (flushed : Nat) : Prop where
  isOpen : s.isOpen = true
  append : s.file.append = true
  pos : s.pos = written.length
  fileSize : s.fileSize = written.length
  cached : ∀ i < written.length, (s.pages[i / pageSize]?).isSome
  bytes : ∀ i < written.length, s.byteAt i = written.getD i 0
  dirty : ∀ idx, s.DirtyAt idx ↔
    flushed < written.length ∧ flushed / pageSize ≤ idx ∧ idx * pageSize < written.length
  flushed_le : flushed ≤ written.length
  flushed_le_content : flushed ≤ s.file.content.length
  content : s.file.content.length = flushed → s.file.content = written.take flushed

theorem Appending.send (H : Appending s written flushed) (hidx : idx * pageSize < written.length) :
    s.send idx = some (idx * pageSize, slice written (idx * pageSize) pageSize) := by
  have hcached := H.cached (idx * pageSize) hidx
  have hdiv : idx * pageSize / pageSize = idx :=
    Nat.mul_div_cancel idx (show 0 < pageSize by decide)
  rw [hdiv] at hcached
  obtain ⟨page, hpage⟩ := Option.isSome_iff_exists.mp hcached
  rw [VFSFileObject.send, hpage, Option.bind_some, pageWrite, H.fileSize, if_pos hidx]
  congr 2
  refine ZeroFill.ext 0 ?_ fun j hj => ?_
  · rw [length_slice, length_slice, page.length_data]
    omega
  · rw [length_slice, page.length_data] at hj
    have hpos : j < pageSize := by omega
    have hbyte := H.bytes (idx * pageSize + j) (by omega)
    rw [byteAt_of_page (by rw [page_div idx hpos]; exact hpage), page_mod idx hpos] at hbyte
    rw [getD_slice, if_pos (by omega), getD_slice, if_pos hpos, Nat.zero_add, hbyte]

theorem Appending.dirtyPages (H : Appending s written flushed) (hlt : flushed < written.length) :
    s.dirtyPages = List.range' (flushed / pageSize)
      ((written.length + pageSize - 1) / pageSize - flushed / pageSize) := by
  have hpairwise : (List.range' (flushed / pageSize)
      ((written.length + pageSize - 1) / pageSize - flushed / pageSize)).Pairwise (· < ·) :=
    List.pairwise_lt_range'
  refine s.dirtyPages_pairwise.eq_of_mem_iff hpairwise fun idx => ?_
  rw [mem_dirtyPages, H.dirty, List.mem_range'_1]
  unfold pageSize
  omega

/-- A flush appends everything from the start of the first dirty page on. -/
theorem Appending.flush_content (H : Appending s written flushed) :
    s.flushInternal.file.content = if flushed < written.length then
      s.file.content ++ written.drop (flushed / pageSize * pageSize) else s.file.content := by
  rw [flushInternal, if_pos H.isOpen]
  split
  · have hlt : flushed < written.length := ‹_›
    have hle := H.flushed_le_content
    have hstart : flushed / pageSize * pageSize ≤ s.file.content.length :=
      (Nat.div_mul_le_self ..).trans hle
    have hpages : ∀ k < (written.length + pageSize - 1) / pageSize - flushed / pageSize,
        (flushed / pageSize + k) * pageSize < written.length := by
      unfold pageSize
      omega
    have hsends : s.dirtyPages.filterMap s.send = s.dirtyPages.map fun idx =>
        (idx * pageSize, slice written (idx * pageSize) pageSize) := by
      rw [← List.filterMap_eq_map]
      refine List.filterMap_congr fun idx hidx => H.send ?_
      exact ((H.dirty idx).mp (mem_dirtyPages.mp hidx)).2.2
    rw [foldl_flushPage_file, hsends, List.foldl_map, H.dirtyPages hlt]
    rw [foldl_write_append H.append hstart hpages, slice_eq_drop]
    unfold pageSize
    omega
  · have hnone : s.dirtyPages = [] := by
      refine List.eq_nil_iff_forall_not_mem.mpr fun idx hidx => ?_
      exact ‹¬flushed < written.length› ((H.dirty idx).mp (mem_dirtyPages.mp hidx)).1
    rw [hnone]
    rfl

theorem Appending.flush_length (H : Appending s written flushed) :
    s.flushInternal.file.content.length = written.length ↔
      s.file.content.length = flushed ∧ (flushed < written.length → flushed % pageSize = 0) := by
  have hle := H.flushed_le
  have hcontent := H.flushed_le_content
  have hdm := Nat.div_add_mod' flushed pageSize
  rw [H.flush_content]
  split
  · rw [List.length_append, List.length_drop]
    omega
  · omega

theorem Appending.flush (H : Appending s written flushed) :
    Appending s.flushInternal written written.length := by
  have hkept := flushInternal_kept H.isOpen
  have hle := H.flushed_le
  have hcontent := H.flushed_le_content
  have hdm := Nat.div_add_mod' flushed pageSize
  refine ⟨hkept.isOpen.trans H.isOpen, hkept.append.trans H.append, hkept.pos.trans H.pos,
    hkept.fileSize.trans H.fileSize, fun i hi => ?_, fun i hi => ?_, fun idx => ?_, Nat.le_refl _,
    ?_, fun hlen => ?_⟩
  · rw [hkept.pages, Option.isSome_map]
    exact H.cached i hi
  · refine (byteAt_congr (hkept.data _) fun hnone => ?_).trans (H.bytes i hi)
    have := H.cached i hi
    rw [hnone] at this
    cases this
  · refine ⟨fun ⟨page, hpage, hdirty⟩ => ?_, fun h => absurd h.1 (Nat.lt_irrefl _)⟩
    rw [hkept.pages, Option.map_eq_some_iff] at hpage
    obtain ⟨page₀, hpage₀, rfl⟩ := hpage
    by_cases hmem : idx ∈ s.dirtyPages
    · rw [if_pos hmem] at hdirty
      cases hdirty
    · rw [if_neg hmem] at hdirty
      exact absurd (mem_dirtyPages.mpr ⟨page₀, hpage₀, hdirty⟩) hmem
  · rw [H.flush_content]
    split
    · rw [List.length_append, List.length_drop]
      omega
    · omega
  · obtain ⟨hfirst, halign⟩ := H.flush_length.mp hlen
    rw [H.flush_content, List.take_length]
    split
    · have hstart : flushed / pageSize * pageSize = flushed := by
        have := halign ‹_›
        omega
      rw [H.content hfirst, hstart, List.take_append_drop]
    · rw [H.content hfirst, List.take_of_length_le (by omega)]

theorem Appending.write (H : Appending s written flushed) (data : List UInt8) :
    Appending (s.write data).2 (written ++ data) flushed := by
  by_cases hdata : data.length = 0
  · rw [VFSFileObject.write, if_pos (.inr hdata), List.eq_nil_of_length_eq_zero hdata,
      List.append_nil]
    exact H
  · have hw := writePages_written data 0 s
    rw [List.drop_zero, Nat.add_zero] at hw
    have hle := H.flushed_le
    have hpos := H.pos
    rw [VFSFileObject.write, if_neg (by simp [H.isOpen, hdata])]
    refine ⟨hw.isOpen.trans H.isOpen, hw.append.trans H.append, ?_, ?_, fun i hi => ?_,
      fun i hi => ?_, fun idx => ?_, ?_, ?_, fun hlen => ?_⟩
    · rw [List.length_append, ← hpos]
    · have hsize := hw.fileSize
      rw [if_neg fun h => hdata (congrArg List.length h), H.fileSize, hpos] at hsize
      rw [List.length_append]
      exact hsize.trans (Nat.max_eq_right (Nat.le_add_right ..))
    · by_cases hold : i < written.length
      · exact writePages_cached data 0 s (H.cached i hold)
      · rw [List.length_append] at hi
        obtain ⟨page, hpage, _⟩ := writePages_dirtyAt data 0 s (.inr ⟨i, by omega, by omega, rfl⟩)
        exact Option.isSome_iff_exists.mpr ⟨page, hpage⟩
    · rw [List.length_append] at hi
      refine (hw.byteAt i).trans ?_
      rw [getD_append, hpos]
      by_cases hold : i < written.length
      · rw [if_neg (by omega), if_pos hold, H.bytes i hold]
      · rw [if_pos (by omega), if_neg hold]
    · refine (writePages_dirtyAt_iff data 0 s).trans ?_
      rw [H.dirty, hpos, List.length_append]
      constructor
      · rintro (h | ⟨x, hx, hlt, rfl⟩)
        · omega
        · unfold pageSize
          omega
      · rintro ⟨hlt, hfirst, hlast⟩
        by_cases hold : flushed < written.length ∧ idx * pageSize < written.length
        · exact .inl ⟨hold.1, hfirst, hold.2⟩
        · refine .inr ⟨max written.length (idx * pageSize), by omega, by omega, ?_⟩
          unfold pageSize at *
          omega
    · rw [List.length_append]
      omega
    · exact H.flushed_le_content.trans_eq (congrArg List.length hw.content).symm
    · have hsame : (writePages data 0 s).file.content = s.file.content := hw.content
      have hlen' : s.file.content.length = flushed := hsame ▸ hlen
      rw [List.take_append_of_le_length hle, ← H.content hlen']
      exact hsame

/-! ## Runs of writes and flushes -/

/-- Every flush of the calls, and one after them, that has something to write starts at a page
boundary; `total` bytes are written before and `flushed` of them flushed. -/
def Aligned (total flushed : Nat) : List Call → Prop
  | [] => flushed < total → flushed % pageSize = 0
  | .flush :: calls => (flushed < total → flushed % pageSize = 0) ∧ Aligned total total calls
  | c :: calls => Aligned (total + c.data.length) flushed calls

theorem Appending.calls {calls : List Call} (H : Appending s written flushed)
    (hcalls : ∀ c ∈ calls, c.IsAppend) :
    Appending (calls.foldl VFSFileObject.call s).flushInternal (written ++ writtenData calls)
      (written ++ writtenData calls).length ∧
    ((calls.foldl VFSFileObject.call s).flushInternal.file.content.length =
        (written ++ writtenData calls).length ↔
      s.file.content.length = flushed ∧ Aligned written.length flushed calls) := by
  induction calls generalizing s written flushed with
  | nil =>
    rw [writtenData, List.flatMap_nil, List.append_nil]
    exact ⟨H.flush, H.flush_length⟩
  | cons c calls ih =>
    have hrest : ∀ c ∈ calls, c.IsAppend := fun c hc => hcalls c (.tail _ hc)
    have hdata : writtenData (c :: calls) = c.data ++ writtenData calls := List.flatMap_cons ..
    rw [hdata, ← List.append_assoc, List.foldl_cons]
    rcases hcalls c (.head _) with rfl | ⟨data, rfl⟩
    · obtain ⟨hinv, hlen⟩ := ih H.flush hrest
      simp only [Call.data, List.append_nil, Aligned]
      refine ⟨hinv, hlen.trans ?_⟩
      rw [H.flush_length, and_assoc]
    · obtain ⟨hinv, hlen⟩ := ih (H.write data) hrest
      refine ⟨hinv, hlen.trans ?_⟩
      have hcontent : (s.write data).2.file.content = s.file.content := by
        rw [VFSFileObject.write]
        split
        · rfl
        · exact (writePages_written data 0 s).content
      rw [hcontent, List.length_append]
      rfl

theorem openFile_appending : Appending (openFile appendFlags []) [] 0 := by
  rw [openFile_append]
  refine ⟨rfl, rfl, rfl, rfl, fun i hi => absurd hi (Nat.not_lt_zero i),
    fun i hi => absurd hi (Nat.not_lt_zero i), fun idx => ?_, Nat.le_refl 0, Nat.le_refl 0,
    fun _ => rfl⟩
  refine ⟨fun ⟨page, hpage, _⟩ => ?_, fun h => absurd h.1 (Nat.lt_irrefl 0)⟩
  rw [show (initFileState _).pages = ∅ from rfl, Std.TreeMap.getElem?_emptyc] at hpage
  cases hpage

/-- Whenever a flush is followed by more data, the data before it fills whole pages. -/
def FlushAligned (calls : List Call) : Prop :=
  ∀ pre post, calls = pre ++ .flush :: post → writtenData post ≠ [] →
    (writtenData pre).length % pageSize = 0

theorem aligned_iff {calls : List Call} {total : Nat} (hcalls : ∀ c ∈ calls, c.IsAppend)
    (hle : flushed ≤ total) :
    Aligned total flushed calls ↔
      ((flushed < total ∨ writtenData calls ≠ []) → flushed % pageSize = 0) ∧
      ∀ pre post, calls = pre ++ .flush :: post → writtenData post ≠ [] →
        (total + (writtenData pre).length) % pageSize = 0 := by
  induction calls generalizing total flushed with
  | nil => simp [Aligned, writtenData]
  | cons c calls ih =>
    have hrest : ∀ c ∈ calls, c.IsAppend := fun c hc => hcalls c (.tail _ hc)
    have hdata : writtenData (c :: calls) = c.data ++ writtenData calls := List.flatMap_cons ..
    rcases hcalls c (.head _) with rfl | ⟨data, rfl⟩
    · have haligned : Aligned total flushed (.flush :: calls) ↔
          (flushed < total → flushed % pageSize = 0) ∧ Aligned total total calls := Iff.rfl
      rw [haligned, ih hrest (Nat.le_refl _), hdata, show Call.flush.data = [] from rfl,
        List.nil_append]
      constructor
      · rintro ⟨hfirst, hmore, hsplit⟩
        refine ⟨fun h => ?_, fun pre post heq hpost => ?_⟩
        · rcases h with hlt | hne
          · exact hfirst hlt
          · rcases Nat.lt_or_eq_of_le hle with hlt | rfl
            · exact hfirst hlt
            · exact hmore (.inr hne)
        · rcases pre with _ | ⟨c, pre⟩
          · cases heq
            exact hmore (.inr hpost)
          · obtain ⟨rfl, rfl⟩ := List.cons.inj heq
            exact hsplit pre post rfl hpost
      · rintro ⟨hmore, hsplit⟩
        refine ⟨fun hlt => hmore (.inl hlt), fun h => ?_, fun pre post heq hpost => ?_⟩
        · exact hsplit [] calls rfl (h.resolve_left (Nat.lt_irrefl _))
        · exact hsplit (.flush :: pre) post (by rw [heq]; rfl) hpost
    · have haligned : Aligned total flushed (.write data :: calls) ↔
          Aligned (total + data.length) flushed calls := Iff.rfl
      rw [haligned, ih hrest (by omega), hdata, show (Call.write data).data = data from rfl]
      have hmore : flushed < total + data.length ∨ writtenData calls ≠ [] ↔
          flushed < total ∨ data ++ writtenData calls ≠ [] := by
        by_cases hnil : writtenData calls = []
        · rw [hnil, List.append_nil, ← List.length_pos_iff_ne_nil (l := data)]
          simp only [ne_eq, not_true_eq_false, or_false]
          omega
        · simp [hnil]
      rw [hmore]
      refine and_congr_right fun _ =>
        ⟨fun h pre post heq hpost => ?_, fun h pre post heq hpost => ?_⟩
      · rcases pre with _ | ⟨c, pre⟩
        · cases heq
        · obtain ⟨rfl, rfl⟩ := List.cons.inj heq
          have := h pre post rfl hpost
          rwa [Nat.add_assoc, ← List.length_append] at this
      · have := h (.write data :: pre) post (by rw [heq]; rfl) hpost
        rwa [Nat.add_assoc, ← List.length_append]

/-- What the object knows of its size. -/
structure Sized (s : VFSFileObject) (old total : Nat) : Prop where
  isOpen : s.isOpen = true
  pos : s.pos = total
  fileSize : s.fileSize = max old total

theorem Sized.flush (H : Sized s old total) : Sized s.flushInternal old total := by
  have hkept := flushInternal_kept H.isOpen
  exact ⟨hkept.isOpen.trans H.isOpen, hkept.pos.trans H.pos, hkept.fileSize.trans H.fileSize⟩

theorem Sized.calls {calls : List Call} (H : Sized s old total)
    (hcalls : ∀ c ∈ calls, c.IsAppend) :
    Sized (calls.foldl VFSFileObject.call s) old (total + (writtenData calls).length) := by
  induction calls generalizing s total with
  | nil => exact H
  | cons c calls ih =>
    have hrest : ∀ c ∈ calls, c.IsAppend := fun c hc => hcalls c (.tail _ hc)
    have hdata : writtenData (c :: calls) = c.data ++ writtenData calls := List.flatMap_cons ..
    rw [hdata, List.length_append, ← Nat.add_assoc]
    rcases hcalls c (.head _) with rfl | ⟨data, rfl⟩
    · exact ih H.flush hrest
    · refine ih ?_ hrest
      by_cases hlen : data.length = 0
      · have hsame : (s.write data).2 = s := by rw [VFSFileObject.write, if_pos (.inr hlen)]
        rw [Call.data, hlen, VFSFileObject.call, hsame]
        exact H
      · have hw := writePages_written data 0 s
        have hsize := hw.fileSize
        rw [List.drop_zero, if_neg fun h => hlen (congrArg List.length h), H.fileSize, H.pos,
          Nat.add_zero] at hsize
        rw [VFSFileObject.call, VFSFileObject.write, if_neg (by simp [H.isOpen, hlen])]
        refine ⟨hw.isOpen.trans H.isOpen, by rw [← H.pos]; rfl, hsize.trans ?_⟩
        rw [Call.data]
        omega

/-- Calls that write nothing leave a handle without dirty pages as it is. -/
theorem calls_of_writtenData_nil {calls : List Call} (hclean : s.dirtyPages = [])
    (hcalls : ∀ c ∈ calls, c.IsAppend) (hnone : writtenData calls = []) :
    calls.foldl VFSFileObject.call s = s := by
  induction calls with
  | nil => rfl
  | cons c calls ih =>
    have hrest : ∀ c ∈ calls, c.IsAppend := fun c hc => hcalls c (.tail _ hc)
    have hdata : writtenData (c :: calls) = c.data ++ writtenData calls := List.flatMap_cons ..
    rw [hdata, List.append_eq_nil_iff] at hnone
    have hsame : s.call c = s := by
      rcases hcalls c (.head _) with rfl | ⟨data, rfl⟩
      · simp only [VFSFileObject.call, VFSFileObject.flush, flushInternal, hclean, List.foldl_nil,
          ite_self]
      · have hlen : data.length = 0 := congrArg List.length hnone.1
        simp only [VFSFileObject.call, VFSFileObject.write, hlen, or_true, ↓reduceIte]
    rw [List.foldl_cons, hsame]
    exact ih hrest hnone.2

theorem openFile_dirtyPages (flags : BitVec 32) (old : List UInt8) :
    (openFile flags old).dirtyPages = [] := rfl

/-- **Append mode appends** exactly when nothing is written, or the file was empty and every flush
that is followed by more data comes at a page boundary. -/
theorem append_iff (old : List UInt8) {calls : List Call} (hcalls : ∀ c ∈ calls, c.IsAppend) :
    let s := (calls.foldl VFSFileObject.call (openFile appendFlags old)).flush
    (s.file.content = old ++ writtenData calls ∧ s.size = (old ++ writtenData calls).length) ↔
      writtenData calls = [] ∨ (old = [] ∧ FlushAligned calls) := by
  intro s
  have hopen := openFile_append old
  have hsized : Sized s old.length (writtenData calls).length := by
    have hstart : Sized (openFile appendFlags old) old.length 0 := by
      rw [hopen]
      exact ⟨rfl, rfl, (Nat.max_zero _).symm⟩
    have := (hstart.calls hcalls).flush
    rwa [Nat.zero_add] at this
  have hsize : s.size = (old ++ writtenData calls).length ↔
      max old.length (writtenData calls).length = old.length + (writtenData calls).length := by
    rw [size, if_pos hsized.isOpen, hsized.fileSize, List.length_append]
    exact Int.ofNat_inj
  rw [hsize]
  by_cases hnone : writtenData calls = []
  · have hsame : s = openFile appendFlags old := by
      have hcalls' := calls_of_writtenData_nil (openFile_dirtyPages appendFlags old) hcalls hnone
      change (calls.foldl VFSFileObject.call (openFile appendFlags old)).flush = _
      rw [hcalls', flush, flushInternal, openFile_dirtyPages]
      exact ite_self _
    simp only [hnone, true_or, iff_true, List.append_nil, List.length_nil]
    refine ⟨?_, by omega⟩
    rw [hsame, hopen]
    rfl
  · have hpos : 0 < (writtenData calls).length := List.length_pos_iff_ne_nil.mpr hnone
    rcases old with _ | ⟨b, old⟩
    · obtain ⟨hinv, hlen⟩ := openFile_appending.calls hcalls
      rw [List.nil_append] at hinv hlen
      have hzero : (openFile appendFlags []).file.content.length = 0 := by rw [hopen]; rfl
      have hcontent : s.file.content = writtenData calls ↔
          s.file.content.length = (writtenData calls).length :=
        ⟨congrArg List.length, fun h => (hinv.content h).trans List.take_length⟩
      have haligned : Aligned 0 0 calls ↔ FlushAligned calls := by
        rw [aligned_iff hcalls (Nat.le_refl 0)]
        simp only [Nat.zero_mod, implies_true, true_and, Nat.zero_add, FlushAligned]
      simp only [List.nil_append, List.length_nil, Nat.zero_add, Nat.zero_max, and_true, hnone,
        false_or, true_and]
      rw [hcontent, ← haligned]
      exact hlen.trans (and_iff_right hzero)
    · simp only [hnone, reduceCtorEq, false_and, or_self, iff_false, List.length_cons]
      rintro ⟨_, hmax⟩
      omega

/-- Two bytes written to an empty file with a flush in between: the second flush appends the first
byte again. -/
theorem append_fails :
    ¬ ∀ (old : List UInt8) (calls : List Call), (∀ c ∈ calls, c.IsAppend) →
      let s := (calls.foldl VFSFileObject.call (openFile appendFlags old)).flush
      s.file.content = old ++ writtenData calls ∧ s.size = (old ++ writtenData calls).length := by
  intro h
  have hcalls : ∀ c ∈ [.write [1], .flush, .write [2]], Call.IsAppend c := by
    simp [Call.IsAppend]
  have hlen := (openFile_appending.calls hcalls).2.mp
    (congrArg List.length (h [] [.write [1], .flush, .write [2]] hcalls).1)
  exact absurd (hlen.2.2 (by decide)) (by decide)

/-- Without the flush in between both bytes are appended. -/
theorem append_iff_twoBytes :
    let calls : List Call := [.write [1], .write [2], .flush]
    let s := (calls.foldl VFSFileObject.call (openFile appendFlags [])).flush
    (s.file.content = [] ++ writtenData calls ∧ s.size = ([] ++ writtenData calls).length) ↔
      writtenData calls = [] ∨ (([] : List UInt8) = [] ∧ FlushAligned calls) := by
  have hcalls : ∀ c ∈ [.write [1], .write [2], .flush], Call.IsAppend c := by
    simp [Call.IsAppend]
  exact append_iff [] hcalls

end VFSFileObject

end LittleFs
