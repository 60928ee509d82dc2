import LittleFs.VfsTruncate

/-! What a flush leaves in the layer below: the logical file, in whatever order the map lists its
pages, as long as the layer takes each of them. A page that it does not take is lost. -/

namespace LittleFs
namespace VFSFileObject

open ZeroFill

variable {s s' : VFSFileObject} {idx i n : Nat} {listed : List Nat}

/-! ## The sorted pages -/

/-- `flush_internal` for an unordered map that lists its dirty pages in some order. -/
def flushListed (s : VFSFileObject) (listed : List Nat) : VFSFileObject :=
  if s.isOpen then (listed.mergeSort fun a b => a ≤ b).foldl flushPage s else s

theorem mergeSort_eq_dirtyPages (h : listed.Perm s.dirtyPages) :
    (listed.mergeSort fun a b => a ≤ b) = s.dirtyPages := by
  have hsorted : (listed.mergeSort fun a b => a ≤ b).Pairwise (· ≤ ·) :=
    (List.pairwise_mergeSort (fun a b c hab hbc => by
      simp only [decide_eq_true_eq] at *
      omega) (fun a b => by
      simp only [Bool.or_eq_true, decide_eq_true_eq]
      omega) listed).imp fun h => of_decide_eq_true h
  refine ((List.mergeSort_perm listed _).trans h).eq_of_pairwise (fun a b _ _ => Nat.le_antisymm)
    hsorted (s.dirtyPages_pairwise.imp Nat.le_of_lt)

theorem flushListed_eq (h : listed.Perm s.dirtyPages) : s.flushListed listed = s.flushInternal := by
  rw [flushListed, mergeSort_eq_dirtyPages h, flushInternal]

/-! ## The logical file -/

/-- The clean pages hold what the layer below holds, with zeros past its end. -/
def CleanAgrees (s : VFSFileObject) : Prop :=
  ∀ idx page, s.pages[idx]? = some page → page.dirty = false →
    ∀ off < pageSize, page.data.getD off 0 = s.file.content.getD (idx * pageSize + off) 0

/-- How far the write of one page reaches. -/
theorem lt_length_flushPage (h : s.pages[idx]? = some page) (happend : s.file.append = false) :
    n < (s.flushPage idx).file.content.length ↔ n < s.file.content.length ∨
      idx * pageSize < s.fileSize ∧ n < min (idx * pageSize + pageSize) s.fileSize := by
  have hplaced : s.PlacedPage idx := fun htrue => by rw [happend] at htrue; cases htrue
  rw [flushPage_content h hplaced]
  by_cases hsize : idx * pageSize < s.fileSize
  · rw [if_pos hsize, length_writeAt, length_slice, page.length_data]
    omega
  · rw [if_neg hsize]
    omega

theorem lt_length_flushPages {indices : List Nat} (happend : s.file.append = false)
    (hpages : ∀ idx ∈ indices, (s.pages[idx]?).isSome) :
    n < (indices.foldl flushPage s).file.content.length ↔ n < s.file.content.length ∨
      ∃ idx ∈ indices, idx * pageSize < s.fileSize ∧
        n < min (idx * pageSize + pageSize) s.fileSize := by
  induction indices generalizing s with
  | nil => simp
  | cons idx rest ih =>
    obtain ⟨page, hpage⟩ := Option.isSome_iff_exists.mp (hpages idx (.head _))
    have hkept := s.flushPage_kept idx
    have hrest : ∀ i ∈ rest, ((s.flushPage idx).pages[i]?).isSome := fun i hi => by
      rw [hkept.pages, Option.isSome_map]
      exact hpages i (.tail _ hi)
    rw [List.foldl_cons, ih (hkept.append.trans happend) hrest, lt_length_flushPage hpage happend,
      hkept.fileSize, List.exists_mem_cons_iff, or_assoc]

/-- The page that reaches the end of the file holds its last byte. -/
theorem reaches_end_iff (hpos : 0 < n) :
    (idx * pageSize < n ∧ n - 1 < min (idx * pageSize + pageSize) n) ↔
      idx = (n - 1) / pageSize := by
  unfold pageSize
  omega

theorem flushInternal_length_iff (hopen : s.isOpen = true) (happend : s.file.append = false)
    (hsize : s.file.content.length ≤ s.fileSize) :
    s.flushInternal.file.content.length = s.fileSize ↔
      s.DirtyAt ((s.fileSize - 1) / pageSize) ∨ s.file.content.length = s.fileSize := by
  have hlt : ∀ n, n < s.flushInternal.file.content.length ↔ n < s.file.content.length ∨
      ∃ idx ∈ s.dirtyPages, idx * pageSize < s.fileSize ∧
        n < min (idx * pageSize + pageSize) s.fileSize := fun n => by
    rw [flushInternal, if_pos hopen]
    refine lt_length_flushPages happend fun idx hidx => ?_
    obtain ⟨page, hpage, -⟩ := mem_dirtyPages.mp hidx
    rw [hpage, Option.isSome_some]
  have hle : s.flushInternal.file.content.length ≤ s.fileSize := by
    by_contra hgt
    rcases (hlt s.fileSize).mp (by omega) with h | ⟨idx, -, -, h⟩ <;> omega
  rcases Nat.eq_zero_or_pos s.fileSize with hzero | hpos
  · exact iff_of_true (by omega) (.inr (by omega))
  · have hlast : s.flushInternal.file.content.length = s.fileSize ↔
        s.fileSize - 1 < s.flushInternal.file.content.length := by omega
    have hold : s.fileSize - 1 < s.file.content.length ↔ s.file.content.length =
      s.fileSize := by omega
    rw [hlast, hlt, hold, or_comm]
    refine or_congr ⟨?_, fun hdirty => ⟨_, mem_dirtyPages.mpr hdirty, ?_⟩⟩ Iff.rfl
    · rintro ⟨idx, hidx, hreach⟩
      rw [← (reaches_end_iff hpos).mp hreach]
      exact mem_dirtyPages.mp hidx
    · exact (reaches_end_iff hpos).mpr rfl

theorem flushInternal_content (hopen : s.isOpen = true) (happend : s.file.append = false)
    (hclean : s.CleanAgrees) (hi : i < s.fileSize) :
    s.flushInternal.file.content.getD i 0 = s.byteAt i := by
  rw [(flushInternal_flushed hopen (.of_append happend _)).content]
  split
  · rfl
  · rename_i hout
    rcases hpage : s.pages[i / pageSize]? with _ | page
    · exact (byteAt_of_none hpage).symm
    · have hdirty : page.dirty = false := by
        cases h : page.dirty with
        | false => rfl
        | true => exact absurd ⟨mem_dirtyPages.mpr ⟨page, hpage, h⟩, hi⟩ hout
      rw [byteAt_of_page hpage, hclean _ page hpage hdirty _ (Nat.mod_lt _ (by decide)),
        Nat.div_add_mod']

theorem flushInternal_clean (hopen : s.isOpen = true) (idx : Nat) :
    ¬ s.flushInternal.DirtyAt idx := by
  rintro ⟨page, hpage, hdirty⟩
  rw [(flushInternal_kept hopen).pages] at hpage
  obtain ⟨old, hold, rfl⟩ := Option.map_eq_some_iff.mp hpage
  split at hdirty
  · cases hdirty
  · exact absurd (mem_dirtyPages.mpr ⟨old, hold, hdirty⟩) ‹_›

/-- **A flush stores the logical file.** -/
theorem flushListed_stores (hopen : s.isOpen = true) (happend : s.file.append = false)
    (hclean : s.CleanAgrees) (hsize : s.file.content.length ≤ s.fileSize)
    (hlisted : listed.Perm s.dirtyPages) :
    (∀ i < s.fileSize, (s.flushListed listed).file.content.getD i 0 = s.byteAt i) ∧
      ((s.flushListed listed).file.content.length = s.fileSize ↔
        s.DirtyAt ((s.fileSize - 1) / pageSize) ∨ s.file.content.length = s.fileSize) ∧
      ∀ idx, ¬ (s.flushListed listed).DirtyAt idx := by
  rw [flushListed_eq hlisted]
  exact ⟨fun i hi => flushInternal_content hopen happend hclean hi,
    flushInternal_length_iff hopen happend hsize, flushInternal_clean hopen⟩

/-- A byte on disk, and the second page written behind it. -/
def pageBehindGap : VFSFileObject where
  file := { content := [1] }
  fileSize := 4097
  isOpen := true
  pages := Std.TreeMap.insert ∅ 1 { Page.ofBytes [7] with dirty := true }

theorem pageBehindGap_page : pageBehindGap.pages[idx]? = some page ↔
    idx = 1 ∧ page = { Page.ofBytes [7] with dirty := true } := by
  by_cases h : idx = 1
  · subst h
    have hself : pageBehindGap.pages[1]? = some { Page.ofBytes [7] with dirty := true } :=
      getElem?_insert_self
    rw [hself, Option.some.injEq, eq_comm, and_iff_right rfl]
  · have hnone : pageBehindGap.pages[idx]? = none :=
      (getElem?_insert_of_ne h).trans Std.TreeMap.getElem?_emptyc
    rw [hnone]
    exact iff_of_false (fun h => by cases h) fun hpage => h hpage.1

theorem pageBehindGap_clean : pageBehindGap.CleanAgrees := by
  intro idx page hpage hdirty
  obtain ⟨rfl, rfl⟩ := pageBehindGap_page.mp hpage
  cases hdirty

theorem flushListed_pageBehindGap :
    (∀ i < 4097, (pageBehindGap.flushListed pageBehindGap.dirtyPages).file.content.getD i 0 =
        pageBehindGap.byteAt i) ∧
      ((pageBehindGap.flushListed pageBehindGap.dirtyPages).file.content.length = 4097 ↔
        pageBehindGap.DirtyAt 1 ∨ 1 = 4097) ∧
      ∀ idx, ¬ (pageBehindGap.flushListed pageBehindGap.dirtyPages).DirtyAt idx :=
  flushListed_stores rfl rfl pageBehindGap_clean (by decide) (.refl _)

/-! ## Flushes that fail -/

/-- What the layer below does with the page of a flush: the result of the seek, and the file and
`LFS_F_ERRED` behind a write that fails or takes some of the bytes only. -/
structure PageResult where
  seek : Int := errOk
  refused : Option (LfsFile × Bool) := none

/-- An object with the file on disk, and whether `LFS_F_ERRED` is set. -/
structure Storing where
  object : VFSFileObject
  stored : List UInt8
  erred : Bool := false

/-- What is sent down of a page, for the results of the calls. -/
def Storing.send (r : PageResult) (t : Storing) : Option (Nat × List UInt8) → Storing
  | none => t
  | some (pageStart, bytes) =>
    match r.refused with
    | some (file, erred) => { t with object := { t.object with file }, erred }
    | none =>
      let file := if r.seek < 0 then t.object.file else t.object.file.seek pageStart
      { t with object := { t.object with file := file.write bytes }, erred := false }

/-- One round of the loop of `flush_internal`, which looks at none of the results. -/
def Storing.flushPage (results : Nat → PageResult) (t : Storing) (idx : Nat) : Storing :=
  match t.object.pages[idx]? with
  | none => t
  | some page =>
    let t := t.send (results idx) (t.object.pageWrite idx page)
    { t with object := { t.object with
      pages := t.object.pages.insert idx { page with dirty := false } } }

/-- `lfs_file_sync`, for what the commit returns; it does nothing for a file that erred. -/
def Storing.sync (result : Int) (t : Storing) : Storing :=
  if t.erred then t
  else if result = errOk then { t with stored := t.object.file.content }
  else { t with erred := true }

/-- `flush_internal`. -/
def Storing.flush (results : Nat → PageResult) (sync : Int) (t : Storing) : Storing :=
  if t.object.isOpen then (t.object.dirtyPages.foldl (Storing.flushPage results) t).sync sync else t

/-- The bytes of the page below `_file_size` are accepted in full. -/
def Accepted (s : VFSFileObject) (results : Nat → PageResult) (idx : Nat) : Prop :=
  (s.send idx).isSome →
    0 ≤ (results idx).seek ∧ (results idx).refused = none

/-- Each page that is not accepted in full is still dirty after the flush. -/
def KeepsPages (t : Storing) (results : Nat → PageResult) (sync : Int) : Prop :=
  ∀ idx, t.object.DirtyAt idx → ¬ t.object.Accepted results idx →
    (t.flush results sync).object.DirtyAt idx

variable {t : Storing} {results : Nat → PageResult} {indices : List Nat} {sync : Int}

theorem Storing.send_pages (t : Storing) (sent : Option (Nat × List UInt8)) :
    (t.send r sent).object.pages = t.object.pages := by
  cases sent with
  | none => rfl
  | some =>
    rw [Storing.send]
    split <;> rfl

theorem Storing.flushPage_dirtyAt (t : Storing) :
    (t.flushPage results idx).object.DirtyAt i ↔ t.object.DirtyAt i ∧ i ≠ idx := by
  rcases hpage : t.object.pages[idx]? with _ | page
  · have hself : t.flushPage results idx = t := by simp only [Storing.flushPage, hpage]
    rw [hself]
    refine (and_iff_left_of_imp ?_).symm
    rintro ⟨page, hi, -⟩ rfl
    rw [hpage] at hi
    cases hi
  · have hpages : (t.flushPage results idx).object.pages =
        t.object.pages.insert idx { page with dirty := false } := by
      simp only [Storing.flushPage, hpage, Storing.send_pages]
    rw [DirtyAt, DirtyAt, hpages]
    by_cases hi : i = idx
    · subst hi
      rw [getElem?_insert_self]
      refine iff_of_false ?_ fun h => h.2 rfl
      rintro ⟨page', h, hdirty⟩
      cases h
      cases hdirty
    · rw [getElem?_insert_of_ne hi, and_iff_left hi]

theorem Storing.flushPages_dirtyAt (t : Storing) :
    (indices.foldl (Storing.flushPage results) t).object.DirtyAt i ↔
      t.object.DirtyAt i ∧ i ∉ indices := by
  induction indices generalizing t with
  | nil => rw [List.foldl_nil, and_iff_left List.not_mem_nil]
  | cons idx rest ih =>
    rw [List.foldl_cons, ih, Storing.flushPage_dirtyAt, List.mem_cons, not_or, and_assoc]

theorem Storing.sync_object (t : Storing) : (t.sync result).object = t.object := by
  rw [Storing.sync]
  split
  · rfl
  · split <;> rfl

/-- No page is dirty after a flush, whatever was accepted. -/
theorem Storing.flush_clean (hopen : t.object.isOpen = true) :
    ¬ (t.flush results sync).object.DirtyAt idx := by
  rw [Storing.flush, if_pos hopen, Storing.sync_object, Storing.flushPages_dirtyAt]
  exact fun h => h.2 (mem_dirtyPages.mpr h.1)

theorem keepsPages_iff (hopen : t.object.isOpen = true) :
    KeepsPages t results sync ↔ ∀ idx, t.object.DirtyAt idx → t.object.Accepted results idx := by
  refine forall_congr' fun idx => forall_congr' fun hdirty =>
    ⟨fun h => ?_, fun h hnot => absurd h hnot⟩
  by_contra hnot
  exact Storing.flush_clean hopen (h hnot)

/-! ## Flushes of which everything is accepted -/

theorem Storing.flushPage_accepted (h : t.object.Accepted results idx) :
    (t.flushPage results idx).object = t.object.flushPage idx ∧
      (t.flushPage results idx).stored = t.stored ∧
      (t.flushPage results idx).erred = if (t.object.send idx).isSome then false else t.erred := by
  rcases hpage : t.object.pages[idx]? with _ | page
  · have hself : t.flushPage results idx = t := by simp only [Storing.flushPage, hpage]
    have hself' : t.object.flushPage idx = t.object := by simp only [VFSFileObject.flushPage, hpage]
    rw [hself, hself', VFSFileObject.send, hpage]
    exact ⟨rfl, rfl, rfl⟩
  · have hsend : t.object.send idx = t.object.pageWrite idx page := by
      rw [VFSFileObject.send, hpage]
      rfl
    simp only [Storing.flushPage, VFSFileObject.flushPage, hpage]
    rw [hsend]
    rcases hwrite : t.object.pageWrite idx page with _ | ⟨start, bytes⟩
    · exact ⟨rfl, rfl, rfl⟩
    · obtain ⟨hseek, hrefused⟩ := h (by rw [hsend, hwrite]; rfl)
      rw [Storing.send, hrefused]
      dsimp only
      rw [if_neg (Int.not_lt.mpr hseek)]
      exact ⟨rfl, rfl, rfl⟩

/-- Some page of the list is written. -/
def Sends (s : VFSFileObject) (indices : List Nat) : Prop :=
  ∃ idx ∈ indices, (s.send idx).isSome

theorem Storing.flushPages_accepted (h : ∀ idx ∈ indices, t.object.Accepted results idx) :
    (indices.foldl (Storing.flushPage results) t).object =
        indices.foldl VFSFileObject.flushPage t.object ∧
      (indices.foldl (Storing.flushPage results) t).stored = t.stored ∧
      ((indices.foldl (Storing.flushPage results) t).erred = false ↔
        t.erred = false ∨ t.object.Sends indices) := by
  induction indices generalizing t with
  | nil =>
    refine ⟨rfl, rfl, (or_iff_left ?_).symm⟩
    rintro ⟨idx, hidx, -⟩
    cases hidx
  | cons idx rest ih =>
    obtain ⟨hobject, hstored, herred⟩ := Storing.flushPage_accepted (h idx (.head _))
    have hsend : (t.flushPage results idx).object.send = t.object.send := by
      rw [hobject]
      exact funext fun i => t.object.flushPage_send idx i
    have hrest : ∀ i ∈ rest, (t.flushPage results idx).object.Accepted results i := fun i hi => by
      rw [Accepted, hsend]
      exact h i (.tail _ hi)
    obtain ⟨hobject', hstored', herred'⟩ := ih hrest
    refine ⟨hobject'.trans (by rw [hobject]; rfl), hstored'.trans hstored, ?_⟩
    rw [List.foldl_cons, herred', herred, Sends, Sends, hsend, List.exists_mem_cons_iff, ← or_assoc]
    refine or_congr_left ?_
    by_cases hsome : (t.object.send idx).isSome = true
    · rw [if_pos hsome]
      exact iff_of_true rfl (.inr hsome)
    · rw [if_neg hsome, or_iff_left hsome]

/-- The bytes of the logical file. -/
def logicalBytes (s : VFSFileObject) : List UInt8 := (List.range s.fileSize).map s.byteAt

/-- The layer below and the cache make up the logical file. -/
structure Ready (s : VFSFileObject) : Prop where
  append : s.file.append = false
  clean : s.CleanAgrees
  size : s.file.content.length ≤ s.fileSize
  last : s.DirtyAt ((s.fileSize - 1) / pageSize) ∨ s.file.content.length = s.fileSize

theorem Ready.flushInternal_content (H : s.Ready) (hopen : s.isOpen = true) :
    s.flushInternal.file.content = s.logicalBytes := by
  have hlength := (flushInternal_length_iff hopen H.append H.size).mpr H.last
  have hlogical : s.logicalBytes.length = s.fileSize := by
    rw [logicalBytes, List.length_map, List.length_range]
  refine ZeroFill.ext 0 (hlength.trans hlogical.symm) fun i hi => ?_
  rw [hlength] at hi
  rw [VFSFileObject.flushInternal_content hopen H.append H.clean hi, logicalBytes, List.getD,
    List.getElem?_map, List.getElem?_range hi]
  rfl

/-- A flush without errors. -/
def Storing.flushOk (t : Storing) : Storing := t.flush (fun _ => {}) errOk

theorem Storing.flush_accepted (sync : Int) (hopen : t.object.isOpen = true)
    (h : ∀ idx, t.object.DirtyAt idx → t.object.Accepted results idx) :
    (t.flush results sync).object = t.object.flushInternal ∧
      ((t.erred = false ∨ t.object.Sends t.object.dirtyPages) ∧ sync = errOk ∧
          (t.flush results sync).stored = t.object.flushInternal.file.content ∧
          (t.flush results sync).erred = false ∨
        ¬ ((t.erred = false ∨ t.object.Sends t.object.dirtyPages) ∧ sync = errOk) ∧
          (t.flush results sync).stored = t.stored ∧ (t.flush results sync).erred = true) := by
  obtain ⟨hobject, hstored, herred⟩ := Storing.flushPages_accepted (t := t)
    fun idx hidx => h idx (mem_dirtyPages.mp hidx)
  have hflush : t.object.flushInternal =
      (t.object.dirtyPages.foldl (Storing.flushPage results) t).object := by
    rw [flushInternal, if_pos hopen, hobject]
  rw [Storing.flush, if_pos hopen, Storing.sync_object, ← hflush, ← herred]
  refine ⟨rfl, ?_⟩
  rw [hflush, Storing.sync]
  cases hflag : (t.object.dirtyPages.foldl (Storing.flushPage results) t).erred with
  | true => exact .inr ⟨fun hand => Bool.noConfusion hand.1, hstored, hflag⟩
  | false =>
    by_cases hsync : sync = errOk
    · rw [if_neg (by decide), if_pos hsync]
      exact .inl ⟨rfl, hsync, rfl, rfl⟩
    · rw [if_neg (by decide), if_neg hsync]
      exact .inr ⟨fun hand => hsync hand.2, hstored, rfl⟩

/-- A flush of an object without dirty pages. -/
theorem Storing.flushOk_of_clean (hopen : t.object.isOpen = true)
    (hclean : ∀ idx, ¬ t.object.DirtyAt idx) :
    t.flushOk.stored = if t.erred then t.stored else t.object.file.content := by
  have hnone : t.object.dirtyPages = [] :=
    List.eq_nil_iff_forall_not_mem.mpr fun idx hidx => hclean idx (mem_dirtyPages.mp hidx)
  rw [Storing.flushOk, Storing.flush, if_pos hopen, hnone, List.foldl_nil, Storing.sync]
  split <;> rfl

/-- **A failed flush.** The pages that are not accepted stay dirty, and a later flush without errors
stores the logical file, exactly when all pages are accepted and the file is synced, or was
before. -/
theorem flush_keepsPages_iff (hopen : t.object.isOpen = true) (results : Nat → PageResult)
    (sync : Int) :
    (KeepsPages t results sync ∧
      (t.object.Ready → (t.flush results sync).flushOk.stored = t.object.logicalBytes)) ↔
    (∀ idx, t.object.DirtyAt idx → t.object.Accepted results idx) ∧
      (t.object.Ready → sync = errOk ∧ (t.erred = false ∨ t.object.Sends t.object.dirtyPages) ∨
        t.stored = t.object.logicalBytes) := by
  rw [keepsPages_iff hopen]
  refine and_congr_right fun haccepted => forall_congr' fun hready => ?_
  obtain ⟨hobject, hcases⟩ := Storing.flush_accepted sync hopen haccepted
  have hcontent := hready.flushInternal_content hopen
  have hopen' : (t.flush results sync).object.isOpen = true := by
    rw [hobject]
    exact (flushInternal_kept hopen).isOpen.trans hopen
  rw [Storing.flushOk_of_clean hopen' fun idx => Storing.flush_clean hopen, hobject]
  rcases hcases with ⟨hsends, hsync, hstored, herred⟩ | ⟨hnot, hstored, herred⟩
  · rw [herred, if_neg (by decide)]
    exact iff_of_true hcontent (.inl ⟨hsync, hsends⟩)
  · rw [herred, if_pos rfl, hstored, or_iff_right fun h => hnot ⟨h.2, h.1⟩]

theorem pageBehindGap_dirtyAt : pageBehindGap.DirtyAt idx ↔ idx = 1 := by
  constructor
  · rintro ⟨page, hpage, -⟩
    exact (pageBehindGap_page.mp hpage).1
  · rintro rfl
    exact ⟨_, pageBehindGap_page.mpr ⟨rfl, rfl⟩, rfl⟩

theorem pageBehindGap_send : pageBehindGap.send 1 = some (4096, [7]) := by
  rw [VFSFileObject.send, pageBehindGap_page.mpr ⟨rfl, rfl⟩]
  decide +kernel

/-- The page behind the gap, with a layer below that takes it. -/
theorem flush_keepsPages_pageBehindGap :
    let t : Storing := ⟨pageBehindGap, [1], false⟩
    KeepsPages t (fun _ => {}) errOk ∧
      (t.object.Ready → (t.flush (fun _ => {}) errOk).flushOk.stored = t.object.logicalBytes) := by
  exact (flush_keepsPages_iff rfl (fun _ => {}) errOk).mpr
    ⟨fun idx hdirty hsend => ⟨Int.le_refl _, rfl⟩, fun _ => .inl ⟨rfl, .inl rfl⟩⟩

/-- The write of a page fails, and leaves the bytes of the file as they are. -/
theorem flush_loses_page : ¬ ∀ (t : Storing) results sync, t.object.isOpen = true →
    KeepsPages t results sync ∧
      (t.object.Ready → (t.flush results sync).flushOk.stored = t.object.logicalBytes) := by
  intro h
  obtain ⟨fails, hfails⟩ : ∃ r : PageResult,
      r = { refused := some (pageBehindGap.file.seek pageSize, true) } := ⟨_, rfl⟩
  have hkeeps := (h ⟨pageBehindGap, [1], false⟩ (fun _ => fails) errOk rfl).1
  have hnot : ¬ pageBehindGap.Accepted (fun _ => fails) 1 := fun haccepted => by
    have hnone := (haccepted (by rw [pageBehindGap_send]; rfl)).2
    rw [hfails] at hnone
    cases hnone
  exact Storing.flush_clean rfl (hkeeps 1 (pageBehindGap_dirtyAt.mpr rfl) hnot)

end VFSFileObject

end LittleFs
