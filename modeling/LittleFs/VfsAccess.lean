import LittleFs.VfsTruncate

/-! The access modes of a file object: which calls of the layer below the page cache makes, and for
which of them the handle has to be opened for reading or for writing.

The cache reads pages on behalf of writes, and it writes pages on behalf of flushes and truncations,
whatever the handle was opened for. -/

namespace LittleFs
namespace VFSFileObject

variable {s : VFSFileObject} {flags : BitVec 32} {idx i n : Nat}

/-! ## The calls of the layer below -/

/-- The calls that assert an access mode. -/
inductive LfsCall where
  | rawread
  | rawwrite
  | rawtruncate
  deriving DecidableEq, Repr

/-- The assertion, for the flags of the handle. -/
def LfsCall.Allowed (lfsFlags : BitVec 32) : LfsCall → Prop
  | .rawread => lfsFlags &&& lfsORdonly = lfsORdonly
  | .rawwrite => lfsFlags &&& lfsOWronly = lfsOWronly
  | .rawtruncate => lfsFlags &&& lfsOWronly = lfsOWronly

/-- The calls of `load_page_if_needed`. -/
def loadCalls (s : VFSFileObject) (pageIdx : Nat) : List LfsCall :=
  match s.pages[pageIdx]? with
  | some _ => []
  | none => if 0 < s.file.size ∧ pageIdx * pageSize < s.file.size then [.rawread] else []

/-- The calls of `flush_internal`. -/
def flushCalls (s : VFSFileObject) : List LfsCall :=
  if s.isOpen then s.flushWrites.map fun _ => .rawwrite else []

/-- The calls of the loop of `read`. -/
def readPagesCalls (s : VFSFileObject) (bytesToRead bytesRead : Nat) : List LfsCall :=
  if _ : bytesRead < bytesToRead then
    let currPos := s.pos + bytesRead
    let chunk := min (bytesToRead - bytesRead) (pageSize - currPos % pageSize)
    match s.pages[currPos / pageSize]? with
    | some _ => readPagesCalls s bytesToRead (bytesRead + chunk)
    | none => .rawread :: readPagesCalls s bytesToRead (bytesRead + chunk)
  else []
termination_by bytesToRead - bytesRead
decreasing_by all_goals
  have := Nat.mod_lt (s.pos + bytesRead) (show 0 < pageSize by decide)
  omega

/-- A chunk of a write ends in its page. -/
theorem chunk_fits (s : VFSFileObject) (data : List UInt8) (n : Nat) :
    (s.pos + n) % pageSize + (ZeroFill.slice data n
      (min (data.length - n) (pageSize - (s.pos + n) % pageSize))).length ≤ pageSize := by
  have hmod := Nat.mod_lt (s.pos + n) (show 0 < pageSize by decide)
  rw [ZeroFill.length_slice]
  omega

/-- The calls of the loop of `write`. -/
def writePagesCalls (data : List UInt8) (bytesWritten : Nat) (s : VFSFileObject) : List LfsCall :=
  if _ : bytesWritten < data.length then
    let currPos := s.pos + bytesWritten
    let chunk := min (data.length - bytesWritten) (pageSize - currPos % pageSize)
    s.loadCalls (currPos / pageSize) ++ writePagesCalls data (bytesWritten + chunk)
      (s.writeChunk currPos (ZeroFill.slice data bytesWritten chunk)
        (s.chunk_fits data bytesWritten))
  else []
termination_by data.length - bytesWritten
decreasing_by
  have := Nat.mod_lt (s.pos + bytesWritten) (show 0 < pageSize by decide)
  omega

/-- A call on a file object, or its `close`. -/
inductive FileCall where
  | call (c : Call)
  | close
  deriving DecidableEq, Repr

/-- `close`. -/
def close (s : VFSFileObject) : VFSFileObject :=
  if s.isOpen then { s.flushInternal with isOpen := false } else s

def run (s : VFSFileObject) : FileCall → VFSFileObject
  | .call c => s.call c
  | .close => s.close

/-- The calls that one call on the object makes. -/
def lfsCalls (s : VFSFileObject) : FileCall → List LfsCall
  | .call (.seek ..) => []
  | .call (.write data) =>
    if ¬ s.isOpen ∨ data.length = 0 then [] else writePagesCalls data 0 s
  | .call (.read buffer) =>
    if ¬ s.isOpen ∨ buffer.length = 0 then []
    else if s.pos ≥ s.fileSize then []
    else readPagesCalls s (min buffer.length (s.fileSize - s.pos)) 0
  | .call .flush => s.flushCalls
  | .call (.truncate _) => if ¬ s.isOpen then [] else s.flushCalls ++ [.rawtruncate]
  | .close => s.flushCalls

/-- The calls that a sequence of calls on the object makes. -/
def runCalls : VFSFileObject → List FileCall → List LfsCall
  | _, [] => []
  | s, c :: calls => s.lfsCalls c ++ runCalls (s.run c) calls

/-! ## What a call needs -/

/-- Each byte is in a cached page. -/
def Cached (s : VFSFileObject) (start stop : Nat) : Prop :=
  ∀ x, start ≤ x → x < stop → (s.pages[x / pageSize]?).isSome

/-- Each byte is in a cached page, or its page starts at or past the end of the file below. -/
def Writable (s : VFSFileObject) (start stop : Nat) : Prop :=
  ∀ x, start ≤ x → x < stop →
    (s.pages[x / pageSize]?).isSome ∨ s.file.size ≤ x / pageSize * pageSize

/-- No dirty page starts below `_file_size`. -/
def NothingToFlush (s : VFSFileObject) : Prop := ∀ idx, s.DirtyAt idx → s.fileSize ≤ idx * pageSize

/-- What an open object needs for a call: without `kFileRead` the bytes that are read have to be
cached, and the pages that are written cached or new; without `kFileWrite` there must be nothing to
flush and no truncation. -/
def Meets (flags : BitVec 32) (s : VFSFileObject) : FileCall → Prop
  | .call (.seek ..) => True
  | .call (.write data) => flags &&& kFileRead ≠ 0 ∨ s.Writable s.pos (s.pos + data.length)
  | .call (.read buffer) =>
    flags &&& kFileRead ≠ 0 ∨ s.Cached s.pos (min (s.pos + buffer.length) s.fileSize)
  | .call .flush => flags &&& kFileWrite ≠ 0 ∨ s.NothingToFlush
  | .call (.truncate _) => flags &&& kFileWrite ≠ 0
  | .close => flags &&& kFileWrite ≠ 0 ∨ s.NothingToFlush

/-- Each call of the sequence finds what it needs. -/
def AllMeet (flags : BitVec 32) : VFSFileObject → List FileCall → Prop
  | _, [] => True
  | s, c :: calls => (s.isOpen = true → s.Meets flags c) ∧ AllMeet flags (s.run c) calls

theorem allowed_rawread_iff (flags : BitVec 32) :
    LfsCall.rawread.Allowed (lfsFlags flags) ↔ flags &&& kFileRead ≠ 0 := by
  rw [LfsCall.Allowed, lfsFlags]
  by_cases h : flags &&& kFileRead ≠ 0
  · refine iff_of_true ?_ h
    simp only [if_pos h]
    split <;> split <;> split <;> split <;> split <;> decide
  · refine iff_of_false ?_ h
    simp only [if_neg h]
    split <;> split <;> split <;> split <;> split <;> decide

theorem allowed_rawwrite_iff (flags : BitVec 32) :
    LfsCall.rawwrite.Allowed (lfsFlags flags) ↔ flags &&& kFileWrite ≠ 0 := by
  rw [LfsCall.Allowed, lfsFlags]
  by_cases h : flags &&& kFileWrite ≠ 0
  · refine iff_of_true ?_ h
    simp only [if_pos h]
    split <;> split <;> split <;> split <;> split <;> decide
  · refine iff_of_false ?_ h
    simp only [if_neg h]
    split <;> split <;> split <;> split <;> split <;> decide

/-- Calls of one kind are allowed when the kind is or there are none. -/
theorem all_allowed_iff {calls : List LfsCall} {mode : BitVec 32} (h : ∀ a ∈ calls, a = c) :
    (∀ a ∈ calls, a.Allowed mode) ↔ c.Allowed mode ∨ calls = [] := by
  constructor
  · intro hall
    cases calls with
    | nil => exact .inr rfl
    | cons a calls =>
      obtain rfl := h a (.head _)
      exact .inl (hall a (.head _))
  · rintro (hc | rfl) a ha
    · rw [h a ha]
      exact hc
    · cases ha

/-! ## Reads -/

theorem mem_readPagesCalls (h : a ∈ readPagesCalls s n k) : a = .rawread := by
  fun_induction readPagesCalls s n k with
  | case1 _ _ _ _ _ _ ih => exact ih h
  | case2 _ _ _ _ _ ih =>
    cases h with
    | head => rfl
    | tail _ h => exact ih h
  | case3 => cases h

theorem readPagesCalls_eq_nil_iff (s : VFSFileObject) (n k : Nat) :
    readPagesCalls s n k = [] ↔ s.Cached (s.pos + k) (s.pos + n) := by
  fun_induction readPagesCalls s n k with
  | case1 k hlt currPos chunk page hpage ih =>
    rw [ih]
    refine ⟨fun h x hlo hhi => ?_, fun h x hlo hhi => h x (by omega) hhi⟩
    by_cases hlater : s.pos + (k + chunk) ≤ x
    · exact h x hlater hhi
    · have hspan := (chunk_page currPos chunk (x - currPos) (by omega) (by omega)).1
      rw [Nat.add_sub_cancel' (by omega)] at hspan
      rw [hspan, hpage]
      rfl
  | case2 k hlt currPos chunk hpage ih =>
    refine iff_of_false (List.cons_ne_nil _ _) fun h => ?_
    have hcached := h currPos (Nat.le_refl _) (by omega)
    rw [hpage] at hcached
    cases hcached
  | case3 k hge =>
    refine iff_of_true rfl fun x hlo hhi => ?_
    omega

/-! ## Writes -/

theorem mem_loadCalls (h : a ∈ s.loadCalls idx) : a = .rawread := by
  rw [loadCalls] at h
  split at h
  · cases h
  · split at h
    · exact List.mem_singleton.mp h
    · cases h

theorem loadCalls_eq_nil_iff (s : VFSFileObject) (idx : Nat) :
    s.loadCalls idx = [] ↔ (s.pages[idx]?).isSome ∨ s.file.size ≤ idx * pageSize := by
  rw [loadCalls]
  rcases s.pages[idx]? with _ | page
  · dsimp only
    split
    · exact iff_of_false (List.cons_ne_nil _ _) (by rintro (h | h); cases h; omega)
    · exact iff_of_true rfl (.inr (by omega))
  · exact iff_of_true rfl (.inl rfl)

theorem mem_writePagesCalls (h : a ∈ writePagesCalls data n s) : a = .rawread := by
  fun_induction writePagesCalls data n s with
  | case1 _ _ _ _ _ ih =>
    rcases List.mem_append.mp h with h | h
    · exact mem_loadCalls h
    · exact ih h
  | case2 => cases h

theorem writePagesCalls_eq_nil_iff (data : List UInt8) (n : Nat) (s : VFSFileObject) :
    writePagesCalls data n s = [] ↔ s.Writable (s.pos + n) (s.pos + data.length) := by
  fun_induction writePagesCalls data n s with
  | case1 n s hlt currPos chunk ih =>
    have hmod : currPos % pageSize < pageSize := Nat.mod_lt _ (by decide)
    rw [List.append_eq_nil_iff, ih, loadCalls_eq_nil_iff, writeChunk_pos]
    obtain ⟨next, hnext⟩ : ∃ next, next = s.writeChunk currPos (ZeroFill.slice data n chunk)
        (s.chunk_fits data n) := ⟨_, rfl⟩
    rw [← hnext]
    have hfile : next.file.size = s.file.size := by
      rw [hnext]
      exact congrArg List.length (loadPageIfNeeded_loaded s (currPos / pageSize)).content
    have hpages : ∀ i, (next.pages[i]?).isSome ↔ i = currPos / pageSize ∨ (s.pages[i]?).isSome := by
      intro i
      rw [hnext, writeChunk_pages]
      by_cases hi : i = currPos / pageSize
      · rw [if_pos hi]
        exact iff_of_true rfl (.inl hi)
      · rw [if_neg hi, or_iff_right hi]
    constructor
    · rintro ⟨hfirst, hrest⟩ x hlo hhi
      by_cases hsame : x / pageSize = currPos / pageSize
      · rw [hsame]
        exact hfirst
      · have hlater : s.pos + (n + chunk) ≤ x := by
          by_contra hbefore
          have hspan := (chunk_page currPos chunk (x - currPos) (by omega) (by omega)).1
          rw [Nat.add_sub_cancel' (by omega)] at hspan
          exact hsame hspan
        have hx := hrest x hlater hhi
        rwa [hpages, or_iff_right hsame, hfile] at hx
    · intro h
      refine ⟨h currPos (Nat.le_refl _) (by omega), fun x hlo hhi => ?_⟩
      rw [hpages, hfile, or_assoc]
      exact .inr (h x (by omega) hhi)
  | case2 n s hge =>
    refine iff_of_true rfl fun x hlo hhi => ?_
    omega

/-! ## Flushes -/

theorem mem_flushCalls (h : a ∈ s.flushCalls) : a = .rawwrite := by
  rw [flushCalls] at h
  split at h
  · obtain ⟨sent, -, rfl⟩ := List.mem_map.mp h
    rfl
  · cases h

theorem send_eq_none_iff (hpage : s.pages[idx]? = some page) :
    s.send idx = none ↔ s.fileSize ≤ idx * pageSize := by
  rw [send, hpage, Option.bind_some, pageWrite]
  split
  · refine iff_of_false (fun h => ?_) (by omega)
    cases h
  · exact iff_of_true rfl (by omega)

theorem flushCalls_eq_nil_iff (hopen : s.isOpen = true) :
    s.flushCalls = [] ↔ s.NothingToFlush := by
  rw [flushCalls, if_pos hopen, List.map_eq_nil_iff, flushWrites, List.filterMap_eq_nil_iff]
  refine forall_congr' fun idx => ?_
  rw [mem_dirtyPages]
  refine forall_congr' fun hdirty => ?_
  obtain ⟨page, hpage, -⟩ := hdirty
  exact send_eq_none_iff hpage

/-! ## Runs -/

theorem lfsCalls_of_closed (h : ¬ s.isOpen = true) (c : FileCall) : s.lfsCalls c = [] := by
  have hflush : s.flushCalls = [] := if_neg h
  cases c with
  | close => exact hflush
  | call c =>
    cases c with
    | seek offset type => rfl
    | flush => exact hflush
    | truncate size => exact if_pos h
    | write data => exact if_pos (.inl h)
    | read buffer => exact if_pos (.inl h)

/-- The calls that one call makes. -/
theorem lfsCalls_allowed_iff (flags : BitVec 32) (s : VFSFileObject) (c : FileCall) :
    (∀ a ∈ s.lfsCalls c, a.Allowed (lfsFlags flags)) ↔ (s.isOpen = true → s.Meets flags c) := by
  have hflush : s.isOpen = true → ((∀ a ∈ s.flushCalls, a.Allowed (lfsFlags flags)) ↔
      flags &&& kFileWrite ≠ 0 ∨ s.NothingToFlush) := fun hopen => by
    rw [all_allowed_iff fun a => mem_flushCalls, allowed_rawwrite_iff, flushCalls_eq_nil_iff hopen]
  by_cases hopen : s.isOpen = true
  · rw [forall_prop_of_true hopen]
    cases c with
    | close => exact hflush hopen
    | call c =>
      cases c with
      | seek offset type => exact iff_of_true (fun a ha => by cases ha) trivial
      | flush => exact hflush hopen
      | truncate size =>
        rw [lfsCalls, if_neg (not_not.mpr hopen), Meets, ← allowed_rawwrite_iff]
        refine ⟨fun h => h .rawtruncate (List.mem_append_right _ (.head _)), fun h a ha => ?_⟩
        rcases List.mem_append.mp ha with ha | ha
        · rw [mem_flushCalls ha]
          exact h
        · obtain rfl := List.mem_singleton.mp ha
          exact h
      | write data =>
        rw [lfsCalls]
        split
        · have hempty : data.length = 0 := by tauto
          refine iff_of_true (fun a ha => by cases ha) (.inr fun x hlo hhi => ?_)
          omega
        · rw [all_allowed_iff fun a => mem_writePagesCalls, allowed_rawread_iff,
            writePagesCalls_eq_nil_iff]
          exact Iff.rfl
      | read buffer =>
        rw [lfsCalls]
        split
        · have hempty : buffer.length = 0 := by tauto
          refine iff_of_true (fun a ha => by cases ha) (.inr fun x hlo hhi => ?_)
          omega
        · split
          · refine iff_of_true (fun a ha => by cases ha) (.inr fun x hlo hhi => ?_)
            omega
          · have hstop : s.pos + min buffer.length (s.fileSize - s.pos) =
                min (s.pos + buffer.length) s.fileSize := by omega
            rw [all_allowed_iff fun a => mem_readPagesCalls, allowed_rawread_iff,
              readPagesCalls_eq_nil_iff, hstop]
            exact Iff.rfl
  · rw [lfsCalls_of_closed hopen]
    exact iff_of_true (fun a ha => by cases ha) fun h => absurd h hopen

/-- **Access modes.** A handle was opened for all calls of the layer below that a sequence of calls
makes, exactly when each call of the sequence finds what it needs. -/
theorem runCalls_allowed_iff (flags : BitVec 32) (content : List UInt8) (calls : List FileCall) :
    (∀ a ∈ runCalls (openFile flags content) calls, a.Allowed (lfsFlags flags)) ↔
      AllMeet flags (openFile flags content) calls := by
  generalize openFile flags content = s
  induction calls generalizing s with
  | nil => exact iff_of_true (fun a ha => by cases ha) trivial
  | cons c calls ih =>
    rw [runCalls, AllMeet, List.forall_mem_append, ih, lfsCalls_allowed_iff]

/-- A handle for reading and writing meets all calls. -/
theorem allMeet_of_readWrite (hread : flags &&& kFileRead ≠ 0) (hwrite : flags &&& kFileWrite ≠ 0)
    (s : VFSFileObject) (calls : List FileCall) : AllMeet flags s calls := by
  induction calls generalizing s with
  | nil => trivial
  | cons c calls ih =>
    refine ⟨fun _ => ?_, ih _⟩
    cases c with
    | close => exact .inl hwrite
    | call c =>
      cases c with
      | seek offset type => trivial
      | flush => exact .inl hwrite
      | truncate size => exact hwrite
      | write data => exact .inl hread
      | read buffer => exact .inl hread

/-- A write of one byte into a file of one byte, opened for writing: the page is read first. -/
theorem writeOnly_reads : ¬ ∀ (flags : BitVec 32) (content : List UInt8) (calls : List FileCall),
    flags &&& kFileCreateFailIfExists = 0 →
      ∀ a ∈ runCalls (openFile flags content) calls, a.Allowed (lfsFlags flags) := by
  intro h
  have hmem : LfsCall.rawread ∈ runCalls (openFile kFileWrite [1]) [.call (.write [2])] := by
    decide +kernel
  have hallowed := h kFileWrite [1] [.call (.write [2])] (by decide) _ hmem
  exact (allowed_rawread_iff kFileWrite).mp hallowed (by decide)

end VFSFileObject

end LittleFs
