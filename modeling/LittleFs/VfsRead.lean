import LittleFs.VfsCache

/-! Reads through the page cache, compared with the file as a sequence of bytes with a position.

The cache agrees with that file after every sequence of calls, and so does a read, with one
exception: a chunk of a page that is not cached is read from the layer below, and where that ends
(the file is already longer, but the flush is still to come) the loop counts the chunk as read
without storing anything. -/

namespace LittleFs

open ZeroFill

/-- What a file object stands for: a sequence of bytes and a position. -/
structure LogicalFile where
  content : List UInt8
  pos : Nat := 0
  deriving DecidableEq, Repr

namespace LogicalFile

/-- The number of bytes that a read of `size` bytes returns. -/
def readSize (l : LogicalFile) (size : Nat) : Nat := min size (l.content.length - l.pos)

/-- The caller's buffer after a read: the bytes of the file in front. -/
def readInto (l : LogicalFile) (buffer : List UInt8) : List UInt8 :=
  slice l.content l.pos (l.readSize buffer.length) ++ buffer.drop (l.readSize buffer.length)

def call (l : LogicalFile) : VFSFileObject.Call → LogicalFile
  | .seek offset type =>
    let new := VFSFileObject.newPos l.pos l.content.length offset type
    if new.toInt < 0 then l else { l with pos := new.toNat }
  | .write [] => l
  | .write data =>
    { content := writeAt 0 l.content l.pos data, pos := l.pos + data.length }
  | .read buffer => { l with pos := l.pos + l.readSize buffer.length }
  | .flush => l
  | .truncate size => { content := resize 0 l.content size, pos := min l.pos size }

end LogicalFile

namespace VFSFileObject

variable {s s' : VFSFileObject} {l : LogicalFile}

/-- The file object stands for `l`. -/
structure Refines (s : VFSFileObject) (l : LogicalFile) : Prop where
  isOpen : s.isOpen = true
  append : s.file.append = false
  pos : s.pos = l.pos
  size : s.fileSize = l.content.length
  bytes : ∀ i, s.byteAt i = l.content.getD i 0

theorem Placed.of_append (h : s.file.append = false) (indices : List Nat) : s.Placed indices := by
  induction indices generalizing s with
  | nil => trivial
  | cons idx rest ih =>
    have hplaced : s.PlacedPage idx := fun happend => by rw [h] at happend; cases happend
    exact ⟨hplaced, ih ((s.flushPage_kept idx).append.trans h)⟩

theorem lfsFlags_append (h : flags &&& kFileAppend = 0) : lfsFlags flags &&& lfsOAppend = 0 := by
  simp only [lfsFlags, h, ne_eq, not_true_eq_false, ↓reduceIte]
  split <;> split <;> split <;> split <;> split <;> rfl

theorem lfsFlags_trunc (h : flags &&& kFileTruncate = 0) : lfsFlags flags &&& lfsOTrunc = 0 := by
  simp only [lfsFlags, h, ne_eq, not_true_eq_false, ↓reduceIte]
  split <;> split <;> split <;> split <;> split <;> rfl

theorem openFile_refines (happend : flags &&& kFileAppend = 0)
    (htrunc : flags &&& kFileTruncate = 0)
    (content : List UInt8) : (openFile flags content).Refines ⟨content, 0⟩ := by
  have hopen : openFile flags content = initFileState { content, append := false } := by
    simp only [openFile, lfsFlags_append happend, lfsFlags_trunc htrunc, ne_eq, not_true_eq_false,
      ↓reduceIte, decide_false]
  rw [hopen]
  exact ⟨rfl, rfl, rfl, rfl, fun i => byteAt_of_none Std.TreeMap.getElem?_emptyc⟩

/-- What a read does to the object and to the caller's buffer. -/
structure ReadSpec (s s' : VFSFileObject) (buffer dst : List UInt8) (n : Nat) : Prop where
  pos : s'.pos = s.pos + n
  length : dst.length = buffer.length
  getD : ∀ j, dst.getD j 0 =
    if j < n ∧ ¬s.Hole (s.pos + j) then s.byteAt (s.pos + j) else buffer.getD j 0
  byteAt : ∀ i, s'.byteAt i = s.byteAt i
  fileSize : s'.fileSize = s.fileSize
  isOpen : s'.isOpen = s.isOpen
  append : s'.file.append = s.file.append
  pages : s'.pages = s.pages
  content : s'.file.content = s.file.content

theorem ReadSpec.nothing (s : VFSFileObject) (buffer : List UInt8) : ReadSpec s s buffer buffer 0 :=
  ⟨rfl, rfl,
    fun _ => by rw [if_neg fun h => absurd h.1 (Nat.not_lt_zero _)], fun _ => rfl, rfl, rfl,
    rfl, rfl, rfl⟩

theorem read_spec (hopen : s.isOpen = true) (buffer : List UInt8) :
    (s.read buffer).1 = min buffer.length (s.fileSize - s.pos) ∧
      ReadSpec s (s.read buffer).2.2 buffer (s.read buffer).2.1 (s.read buffer).1 := by
  unfold read
  by_cases hlen : buffer.length = 0
  · rw [if_pos (.inr hlen)]
    exact ⟨by rw [hlen, Nat.zero_min], .nothing s buffer⟩
  · rw [if_neg (by simp [hopen, hlen])]
    by_cases hend : s.pos ≥ s.fileSize
    · rw [if_pos hend]
      exact ⟨by rw [Nat.sub_eq_zero_of_le hend, Nat.min_zero], .nothing s buffer⟩
    · rw [if_neg hend]
      obtain ⟨hcount, hlength, hget, hcontent, happend⟩ := readPages_spec s
        (min buffer.length (s.fileSize - s.pos)) 0 buffer s.file rfl (Nat.zero_le _)
        (Nat.min_le_left ..)
      refine ⟨hcount, rfl, hlength, fun j => ?_, fun i => ?_, rfl, rfl, happend, rfl, hcontent⟩
      · rw [hget, hcount]
        simp only [Nat.zero_le, true_and]
      · exact byteAt_congr rfl fun _ => congrArg (·.getD i 0) hcontent

theorem Refines.read (H : s.Refines l) (buffer : List UInt8) :
    (s.read buffer).1 = l.readSize buffer.length ∧
      (s.read buffer).2.2.Refines (l.call (.read buffer)) := by
  obtain ⟨hcount, hspec⟩ := read_spec H.isOpen buffer
  rw [H.size, H.pos] at hcount
  refine ⟨hcount, hspec.isOpen.trans H.isOpen, hspec.append.trans H.append, ?_,
    hspec.fileSize.trans H.size, fun i => (hspec.byteAt i).trans (H.bytes i)⟩
  rw [hspec.pos, hcount, H.pos]
  rfl

theorem Refines.seek (H : s.Refines l) (offset : BitVec 64) (type : SeekType) :
    (s.seek offset type).2.Refines (l.call (.seek offset type)) := by
  simp only [VFSFileObject.seek, LogicalFile.call, H.isOpen, H.pos, H.size, not_true_eq_false,
    ↓reduceIte]
  split
  · exact H
  · exact ⟨rfl, H.append, rfl, rfl, H.bytes⟩

theorem Refines.write (H : s.Refines l) (data : List UInt8) :
    (s.write data).2.Refines (l.call (.write data)) := by
  rcases data with _ | ⟨b, data⟩
  · simpa [VFSFileObject.write, LogicalFile.call] using H
  · have hwritten := writePages_written (b :: data) 0 s
    simp only [VFSFileObject.write, LogicalFile.call, H.isOpen, List.length_cons,
      not_true_eq_false, or_self, ↓reduceIte, Nat.add_one_ne_zero]
    refine ⟨hwritten.isOpen.trans H.isOpen, hwritten.append.trans H.append, by rw [H.pos], ?_,
      fun i => (hwritten.byteAt i).trans ?_⟩
    · rw [length_writeAt]
      exact hwritten.fileSize.trans (by simp [H.size, H.pos])
    · rw [getD_writeAt, H.bytes, List.drop_zero, Nat.add_zero, H.pos]

theorem Refines.flush (H : s.Refines l) : s.flush.Refines l := by
  have hkept := flushInternal_kept H.isOpen
  have hflush := flushInternal_flushed H.isOpen (.of_append H.append _)
  exact ⟨hkept.isOpen.trans H.isOpen, hkept.append.trans H.append, hkept.pos.trans H.pos,
    hkept.fileSize.trans H.size, fun i => (hflush.byteAt i).trans (H.bytes i)⟩

/-- One call. -/
theorem Refines.call (H : s.Refines l) (hcall : ∀ size, c ≠ .truncate size) :
    (s.call c).Refines (l.call c) := by
  cases c with
  | seek offset type => exact H.seek offset type
  | write data => exact H.write data
  | read buffer => exact (H.read buffer).2
  | flush => exact H.flush
  | truncate size => exact absurd rfl (hcall size)

theorem Refines.calls {calls : List Call} (H : s.Refines l)
    (hcalls : ∀ c ∈ calls, ∀ size, c ≠ .truncate size) :
    (calls.foldl VFSFileObject.call s).Refines (calls.foldl LogicalFile.call l) := by
  induction calls generalizing s l with
  | nil => exact H
  | cons c calls ih =>
    exact ih (H.call (hcalls c (.head _))) fun c' hc' => hcalls c' (.tail _ hc')

/-- A read stores the bytes of the file if and only if the buffer is zero where it has a hole. -/
theorem Refines.read_eq_iff (H : s.Refines l) (buffer : List UInt8) :
    (s.read buffer).2.1 = l.readInto buffer ↔
      ∀ j < l.readSize buffer.length, s.Hole (s.pos + j) → buffer.getD j 0 = 0 := by
  obtain ⟨_, hspec⟩ := read_spec H.isOpen buffer
  rw [(H.read buffer).1] at hspec
  generalize hn : l.readSize buffer.length = n at *
  have hle : n ≤ buffer.length ∧ n ≤ l.content.length - l.pos := by
    rw [← hn]
    exact ⟨Nat.min_le_left .., Nat.min_le_right ..⟩
  have hlen : (slice l.content l.pos n).length = n := by
    rw [length_slice]
    omega
  have hinto : ∀ j, (l.readInto buffer).getD j 0 =
      if j < n then s.byteAt (s.pos + j) else buffer.getD j 0 := by
    intro j
    rw [LogicalFile.readInto, hn, getD_append, hlen]
    split
    · rw [getD_slice, if_pos ‹_›, H.bytes, H.pos]
    · rw [List.getD, List.getElem?_drop, List.getD]
      congr 2
      omega
  constructor
  · intro heq j hj hhole
    have hget := hspec.getD j
    rw [heq, hinto, if_pos hj, if_neg fun h => h.2 hhole] at hget
    rw [← hget, byteAt_of_none hhole.1, getD_eq_of_length_le hhole.2]
  · intro hzero
    have hlength : (l.readInto buffer).length = buffer.length := by
      rw [LogicalFile.readInto, hn, List.length_append, hlen, List.length_drop]
      omega
    refine ZeroFill.ext 0 (hspec.length.trans hlength.symm) fun j _ => ?_
    rw [hspec.getD, hinto]
    by_cases hj : j < n
    · rw [if_pos hj]
      by_cases hhole : s.Hole (s.pos + j)
      · rw [if_neg fun h => h.2 hhole, hzero j hj hhole, byteAt_of_none hhole.1,
          getD_eq_of_length_le hhole.2]
      · rw [if_pos ⟨hj, hhole⟩]
    · rw [if_neg hj, if_neg fun h => hj h.1]

/-- **Reads equal the logical file.** After every sequence of calls without a truncation, a read
returns the number of bytes there are, and stores exactly the bytes of the file if and only if the
caller's buffer is zero wherever the range has a hole. -/
theorem read_logical_iff (happend : flags &&& kFileAppend = 0)
    (htrunc : flags &&& kFileTruncate = 0) (content : List UInt8) {calls : List Call}
    (hcalls : ∀ c ∈ calls, ∀ size, c ≠ .truncate size) (buffer : List UInt8) :
    let s := calls.foldl VFSFileObject.call (openFile flags content)
    let l := calls.foldl LogicalFile.call ⟨content, 0⟩
    (s.read buffer).1 = min buffer.length (l.content.length - l.pos) ∧
    ((s.read buffer).2.1 = l.readInto buffer ↔
      ∀ j < l.readSize buffer.length, s.Hole (s.pos + j) → buffer.getD j 0 = 0) := by
  have H := (openFile_refines happend htrunc content).calls hcalls
  exact ⟨(H.read buffer).1, H.read_eq_iff buffer⟩

/-! ## A file with a hole -/

theorem seek_kept (s : VFSFileObject) (offset : BitVec 64) (type : SeekType) :
    (s.seek offset type).2.pages = s.pages ∧ (s.seek offset type).2.file = s.file := by
  unfold seek
  split
  · exact ⟨rfl, rfl⟩
  · dsimp only
    split <;> exact ⟨rfl, rfl⟩

/-- One byte is written into the second page of an empty file. -/
def secondPageCalls : List Call := [.seek 4096 .seekSet, .write [1], .seek 0 .seekSet]

theorem secondPageCalls_no_truncate : ∀ c ∈ secondPageCalls, ∀ size, c ≠ .truncate size := by
  simp [secondPageCalls]

def secondPage : VFSFileObject :=
  secondPageCalls.foldl VFSFileObject.call (openFile (kFileRead ||| kFileWrite) [])

theorem secondPage_refines :
    secondPage.Refines (secondPageCalls.foldl LogicalFile.call ⟨[], 0⟩) :=
  (openFile_refines (by decide) (by decide) []).calls secondPageCalls_no_truncate

/-- The first page is a hole until the flush. -/
theorem secondPage_hole : secondPage.Hole 0 := by
  let s₁ := ((openFile (kFileRead ||| kFileWrite) []).seek 4096 .seekSet).2
  have hpos : s₁.pos = 4096 := rfl
  have hwritten := writePages_written [1] 0 s₁
  have huntouched : (writePages [1] 0 s₁).pages[0]? = s₁.pages[0]? :=
    writePages_untouched [1] 0 s₁ fun x hx hlt => by
      rw [hpos] at hx hlt
      unfold pageSize
      omega
  obtain ⟨hpages, hfile⟩ := seek_kept (s₁.write [1]).2 0 .seekSet
  refine ⟨?_, ?_⟩
  · change ((s₁.write [1]).2.seek 0 .seekSet).2.pages[0]? = none
    rw [hpages]
    exact huntouched.trans Std.TreeMap.getElem?_emptyc
  · change ((s₁.write [1]).2.seek 0 .seekSet).2.file.content.length ≤ 0
    rw [hfile]
    exact Nat.le_of_eq (congrArg List.length hwritten.content)

/-- A read of the first byte returns 1 and leaves the caller's buffer as it was. -/
theorem read_logical_fails :
    ¬ ∀ (content : List UInt8) (calls : List Call) (buffer : List UInt8),
      (∀ c ∈ calls, ∀ size, c ≠ .truncate size) →
      ((calls.foldl VFSFileObject.call (openFile (kFileRead ||| kFileWrite) content)).read
        buffer).2.1 =
        (calls.foldl LogicalFile.call ⟨content, 0⟩).readInto buffer := by
  intro h
  have hzero := (secondPage_refines.read_eq_iff [7]).mp
    (h [] secondPageCalls [7] secondPageCalls_no_truncate) 0 (by decide +kernel)
  have hpos : secondPage.pos + 0 = 0 := secondPage_refines.pos
  rw [hpos] at hzero
  exact absurd (hzero secondPage_hole) (by decide)

/-- The read that fails, into a buffer that was zero before. -/
theorem read_logical_secondPage :
    let l := secondPageCalls.foldl LogicalFile.call ⟨[], 0⟩
    let buffer : List UInt8 := [0, 0]
    (secondPage.read buffer).1 = min buffer.length (l.content.length - l.pos) ∧
    ((secondPage.read buffer).2.1 = l.readInto buffer ↔
      ∀ j < l.readSize buffer.length, secondPage.Hole (secondPage.pos + j) →
        buffer.getD j 0 = 0) := by
  have happend : (kFileRead ||| kFileWrite) &&& kFileAppend = 0 := by decide
  have htrunc : (kFileRead ||| kFileWrite) &&& kFileTruncate = 0 := by decide
  exact read_logical_iff happend htrunc [] secondPageCalls_no_truncate [0, 0]

end VFSFileObject

end LittleFs
