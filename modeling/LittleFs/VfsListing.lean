import LittleFs.DirWalk

/-! `lfsVFS::listDir`. It reads entries until a read returns an error, whichever it is, and then
returns what it has read as a value. -/

namespace LittleFs

open FaultyScan (Call Result scan Unnoticed)

inductive ErrorCode where
  | success | fileNotFound | fileExists | notDirectory | isDirectory | directoryNotEmpty
  | badFileDescriptor | fileTooLarge | invalidParameter | noSpaceOnDevice | noMemory | noAttribute
  | nameTooLong | corrupted | ioError | unknownError
  deriving DecidableEq, Repr

/-- `kErrorMap`. -/
def errorMap : List (Int × ErrorCode) :=
  [(errOk, .success), (errNoent, .fileNotFound), (errExist, .fileExists),
    (errNotdir, .notDirectory), (errIsdir, .isDirectory), (errNotempty, .directoryNotEmpty),
    (errBadf, .badFileDescriptor), (errFbig, .fileTooLarge), (errInval, .invalidParameter),
    (errNospc, .noSpaceOnDevice), (errNomem, .noMemory), (errNoattr, .noAttribute),
    (errNametoolong, .nameTooLong), (errCorrupt, .corrupted), (errIo, .ioError)]

def lfsToErrorCode (err : Int) : ErrorCode :=
  ((errorMap.find? fun entry => entry.1 = err).map Prod.snd).getD .unknownError

/-- `Entry::Type`. -/
inductive EntryType where
  | file | directory
  deriving DecidableEq, Repr

/-- `Entry`. -/
structure ListedEntry where
  type : EntryType
  path : List UInt8
  size : Nat
  deriving DecidableEq, Repr

/-- The file or directory that is read. -/
def entryOf (info : Info) : Option ListedEntry :=
  if info.type = typeReg then some ⟨.file, info.name, info.size⟩
  else if info.type = typeDir then some ⟨.directory, info.name, info.size⟩
  else none

def IsDot (name : List UInt8) : Prop := name = [46] ∨ name = [46, 46]

instance (name : List UInt8) : Decidable (IsDot name) := inferInstanceAs (Decidable (_ ∨ _))

/-- Where the loop of `lfsVFS::listDir` breaks. -/
structure ListBreak where
  handle : Handle
  res : Int
  entries : List ListedEntry

/-- The loop of `lfsVFS::listDir`; `fuel` is that of a read. -/
def Walk.listLoop (w : Walk) (fuel : Nat) :
    (rounds n : Nat) → Handle → List ListedEntry → Option ListBreak
  | 0, _, _, _ => none
  | rounds + 1, n, h, entries =>
    match w.rawread fuel n h with
    | none => none
    | some (n, h, res, info) =>
      if res < 0 then some ⟨h, res, entries⟩
      else if IsDot info.name then Walk.listLoop w fuel rounds n h entries
      else Walk.listLoop w fuel rounds n h (entries ++ (entryOf info).toList)

/-- `lfsVFS::listDir`, with what `lfs_dir_open` returns. -/
def Walk.listDir (w : Walk) (fuel : Nat) :
    Except CallError Handle → Option (Except ErrorCode (List ListedEntry))
  | .error e => some (.error (lfsToErrorCode e.code))
  | .ok h => (w.listLoop fuel fuel 0 h []).map fun e => .ok e.entries

/-- The handle that `lfs_dir_open` makes for the directory with the pairs `dirs`. -/
structure Walk.Opens (w : Walk) (h : Handle) (dirs : List MetadataDir) : Prop where
  directory : (w.listing h).Directory dirs
  metadata : h.metadata ∈ dirs.head?
  id : h.id = 0
  pos : h.pos = 0#64

/-- The regular files and directories under the ids of a pair, with the stored sizes. -/
def Walk.stored (w : Walk) (dir : MetadataDir) : List ListedEntry :=
  (seen w.gdisk dir.pair (slots dir)).filterMap fun slot =>
    (slotInfo w.nameMax (some slot)).toOption.bind entryOf

/-- What a listing promises: a value only behind the end marker, with every regular file and
directory exactly once, and else an error. -/
structure Walk.CompleteOrError (w : Walk) (fuel : Nat) (dirs : List MetadataDir)
    (opened : Except CallError Handle) : Prop where
  failed : ∀ e, opened = .error e →
    w.listDir fuel opened = some (.error (lfsToErrorCode e.code))
  value : ∀ h e es, opened = .ok h → w.listLoop fuel fuel 0 h [] = some e →
    w.listDir fuel opened = some (.ok es) →
    ReachedEnd e.handle e.res ∧ es.Perm (dirs.flatMap w.stored)
  error : ∀ h e, opened = .ok h → w.listLoop fuel fuel 0 h [] = some e →
    ¬ ReachedEnd e.handle e.res → w.listDir fuel opened = some (.error (lfsToErrorCode e.res))

/-- The calls that fail do not show: they are lookups of ids without a file or directory, and fail
with `LFS_ERR_NOENT`. And nothing is named like the special entries. -/
structure Walk.Undisturbed (w : Walk) (dirs : List MetadataDir) : Prop where
  calls : Unnoticed CallError.isNoent w.fail entryOf 0 (w.calls dirs)
  names : ∀ e ∈ dirs.flatMap w.stored, ¬ IsDot e.path

/-! ## The loop is a scan -/

/-- What is pushed for an entry that is read. -/
def listed (info : Info) : Option ListedEntry := if IsDot info.name then none else entryOf info

/-- The reads that return `.` and `..` before the next entry. -/
def dotsAhead (pos : BitVec 64) : Nat := if pos = 0#64 then 2 else if pos = 1#64 then 1 else 0

/-- The scan through the calls of a walk. -/
def Walk.scan (w : Walk) (n : Nat) (calls : List (Call Info)) : List Info × Bool :=
  FaultyScan.scan CallError.isNoent w.fail n calls

theorem dotsAhead_le (pos : BitVec 64) : dotsAhead pos ≤ 2 := by
  unfold dotsAhead
  split
  · exact Nat.le_refl 2
  · split <;> decide

/-- **The loop** lists what a scan finds, and breaks at the end marker exactly when the scan comes
to the end. -/
theorem Walk.listLoop_eq {w : Walk} (H : (w.listing h₀).Directory dirs)
    (hstands : w.Stands dirs h ahead) (hfuel : ahead.length < fuel)
    (hrounds : 3 * ahead.length + dotsAhead h.pos < rounds) (n : Nat)
    (entries : List ListedEntry) :
    ∃ e, w.listLoop fuel rounds n h entries = some e ∧
      e.entries = entries ++ (w.scan n ahead).1.filterMap listed ∧
      (ReachedEnd e.handle e.res ↔ (w.scan n ahead).2 = true) := by
  induction rounds generalizing n h ahead entries with
  | zero => cases hrounds
  | succ rounds ih =>
    have hok : ¬ errOk < 0 := by decide
    rw [listLoop, rawread]
    by_cases h0 : h.pos = 0#64
    · rw [if_pos h0]
      dsimp only
      rw [if_neg hok, if_pos (.inl rfl)]
      rw [dotsAhead, if_pos h0] at hrounds
      refine ih (hstands.pos _) hfuel ?_ n entries
      have hdots : dotsAhead (h.pos + 1#64) = 1 := by rw [h0]; decide
      dsimp only
      omega
    rw [if_neg h0]
    by_cases h1 : h.pos = 1#64
    · rw [if_pos h1]
      dsimp only
      rw [if_neg hok, if_pos (.inr rfl)]
      rw [dotsAhead, if_neg h0, if_pos h1] at hrounds
      refine ih (hstands.pos _) hfuel ?_ n entries
      have hdots : dotsAhead (h.pos + 1#64) = 0 := by rw [h1]; decide
      dsimp only
      omega
    rw [if_neg h1]
    obtain ⟨r, hread, hr⟩ := w.readLoop_eq H hstands hfuel n
    rw [hread]
    generalize hnext : w.next n ahead = next at hr
    cases hr with
    | @found h' ahead' n' info hstands' hpos hhead =>
      obtain ⟨hlen, hscan⟩ := FaultyScan.scan_of_found hnext
      have hdots := dotsAhead_le (h.pos + 1#64)
      rw [← hpos] at hdots
      have hrest := ih hstands' (hlen.trans hfuel) (by omega)
      dsimp only
      rw [if_neg hok, Walk.scan, hscan]
      by_cases hdot : IsDot info.name
      · have hlisted : listed info = none := if_pos hdot
        rw [if_pos hdot, List.filterMap_cons_none hlisted]
        exact hrest n' entries
      · obtain ⟨e, hloop, hentries, hend⟩ := hrest n' (entries ++ (entryOf info).toList)
        have hlisted : listed info = entryOf info := if_neg hdot
        rw [if_neg hdot, List.filterMap_cons, hlisted]
        refine ⟨e, hloop, ?_, hend⟩
        rw [hentries, List.append_assoc]
        cases entryOf info <;> rfl
    | failed hend =>
      have hscan : w.scan n ahead = ([], false) := FaultyScan.scan_of_failed hnext
      dsimp only
      rw [if_pos (CallError.neg _), hscan]
      refine ⟨_, rfl, (List.append_nil entries).symm, fun h => absurd h hend, fun h => by cases h⟩
    | ended hstands' hpos hhead hend =>
      have hscan : w.scan n ahead = ([], true) := FaultyScan.scan_of_ended hnext
      dsimp only
      rw [if_pos (by decide), hscan]
      exact ⟨_, rfl, (List.append_nil entries).symm, fun _ => rfl, fun _ => hend⟩

/-! ## What the calls show -/

theorem filterMap_range_getElem? (l : List α) (f : α → Option β) (h : l.length ≤ n) :
    (List.range n).filterMap (fun i => l[i]?.bind f) = l.filterMap f := by
  induction l generalizing n with
  | nil => exact List.filterMap_eq_nil_iff.mpr fun i _ => rfl
  | cons a l ih =>
    obtain ⟨n, rfl⟩ : ∃ m, n = m + 1 := Nat.exists_eq_add_one.mpr (Nat.lt_of_lt_of_le (by simp) h)
    rw [List.range_succ_eq_map, List.filterMap_cons, List.filterMap_cons, List.filterMap_map,
      ← ih (Nat.le_of_succ_le_succ h)]
    rfl

theorem Walk.shown_lookups (w : Walk) (dir : MetadataDir) :
    ((w.lookups dir 0).filterMap Call.shown).filterMap entryOf = w.stored dir := by
  have hlen : (seen w.gdisk dir.pair (slots dir)).length ≤ dir.count := by
    have h := length_seen_le w.gdisk dir.pair (slots dir)
    rwa [length_slots] at h
  rw [stored, ← filterMap_range_getElem? _ _ hlen, lookups, List.drop_zero, List.filterMap_map,
    List.filterMap_filterMap]
  refine List.filterMap_congr fun i _ => ?_
  dsimp only [Function.comp_apply, Call.shown]
  rw [shown]
  cases (seen w.gdisk dir.pair (slots dir))[i]? <;> rfl

theorem Walk.shown_behind (w : Walk) (dirs : List MetadataDir) :
    ((w.behind dirs).filterMap Call.shown).filterMap entryOf = dirs.flatMap w.stored := by
  induction dirs with
  | nil => rfl
  | cons dir dirs ih =>
    have hbehind : w.behind (dir :: dirs) = .link :: (w.lookups dir 0 ++ w.behind dirs) := rfl
    rw [hbehind, List.filterMap_cons_none rfl, List.filterMap_append, List.filterMap_append,
      w.shown_lookups, ih, List.flatMap_cons]

theorem Walk.shown_calls (w : Walk) (dirs : List MetadataDir) :
    ((w.calls dirs).filterMap Call.shown).filterMap entryOf = dirs.flatMap w.stored := by
  cases dirs with
  | nil => rfl
  | cons dir dirs =>
    rw [calls, List.filterMap_append, List.filterMap_append, w.shown_lookups, w.shown_behind,
      List.flatMap_cons]

theorem entryOf_path (h : entryOf info = some e) : e.path = info.name := by
  rw [entryOf] at h
  split at h
  · cases h
    rfl
  · split at h <;> cases h
    rfl

theorem listed_cases (info : Info) : listed info = none ∨ listed info = entryOf info := by
  rw [listed]
  split
  · exact .inl rfl
  · exact .inr rfl

theorem listed_eq_iff (info : Info) :
    listed info = entryOf info ↔ ∀ e, entryOf info = some e → ¬ IsDot e.path := by
  by_cases hdot : IsDot info.name
  · rw [listed, if_pos hdot]
    constructor
    · intro h e he
      cases h.trans he
    · intro h
      cases he : entryOf info with
      | none => rfl
      | some e => exact absurd (entryOf_path he ▸ hdot) (h e he)
  · rw [listed, if_neg hdot]
    exact ⟨fun _ e he => entryOf_path he ▸ hdot, fun _ => rfl⟩

/-- Nothing that is shown is left out when nothing is named like the special entries. -/
theorem Walk.listed_calls (w : Walk) (dirs : List MetadataDir) :
    (∀ info ∈ (w.calls dirs).filterMap Call.shown, listed info = entryOf info) ↔
      ∀ e ∈ dirs.flatMap w.stored, ¬ IsDot e.path := by
  rw [← w.shown_calls]
  simp only [listed_eq_iff]
  constructor
  · intro h e he
    obtain ⟨info, hinfo, he⟩ := List.mem_filterMap.mp he
    exact h info hinfo e he
  · intro h info hinfo e he
    exact h e (List.mem_filterMap.mpr ⟨info, hinfo, he⟩)

theorem Walk.Opens.stands {w : Walk} (H : w.Opens h dirs) : w.Stands dirs h (w.calls dirs) := by
  cases dirs with
  | nil => exact absurd H.directory.linked fun h => h
  | cons dir dirs =>
    have hmetadata : h.metadata = dir := (Option.some.inj H.metadata).symm
    have hstands : w.Stands (dir :: dirs) h (w.lookups dir h.id ++ w.behind dirs) :=
      .on (show dir :: dirs = [] ++ dir :: dirs from rfl) hmetadata (H.id ▸ Nat.zero_le _)
    rwa [H.id] at hstands

/-- **A listing is complete or an error** exactly when no failure of the walk shows: otherwise the
value is what was read before it. -/
theorem listDir_complete_iff {w : Walk} {opened : Except CallError Handle}
    (H : ∀ h, opened = .ok h → w.Opens h dirs) :
    ∃ fuel₀, ∀ fuel, fuel₀ < fuel → (w.listDir fuel opened).isSome ∧
      (w.CompleteOrError fuel dirs opened ↔ ∀ h, opened = .ok h → w.Undisturbed dirs) := by
  refine ⟨3 * (w.calls dirs).length + 3, fun fuel hfuel => ?_⟩
  cases opened with
  | error e =>
    refine ⟨rfl, fun _ h ho => (by cases ho), fun _ => ⟨fun e' he => ?_, fun h e' es ho => ?_,
      fun h e' ho => ?_⟩⟩
    · cases he
      rfl
    · cases ho
    · cases ho
  | ok h =>
    have hopens := H h rfl
    have hdots : dotsAhead h.pos = 2 := by rw [hopens.pos]; rfl
    obtain ⟨e, hloop, hentries, hend⟩ := w.listLoop_eq hopens.directory hopens.stands
      (show (w.calls dirs).length < fuel by omega)
      (show 3 * (w.calls dirs).length + dotsAhead h.pos < fuel by omega) 0 []
    rw [List.nil_append] at hentries
    have hvalue : w.listDir fuel (.ok h) = some (.ok e.entries) := by
      rw [Walk.listDir, hloop]
      rfl
    refine ⟨by rw [hvalue]; rfl, ?_⟩
    have hscan : (ReachedEnd e.handle e.res ∧ e.entries.Perm (dirs.flatMap w.stored)) ↔
        w.Undisturbed dirs := by
      rw [hend, hentries, ← w.shown_calls, Walk.scan,
        FaultyScan.scan_complete_iff listed_cases 0 (w.calls dirs), w.listed_calls]
      exact ⟨fun h => ⟨h.1, h.2⟩, fun h => ⟨h.1, h.2⟩⟩
    rw [← hscan]
    constructor
    · intro hlists _ _
      exact hlists.value h e e.entries rfl hloop hvalue
    · intro hcomplete
      obtain ⟨hreached, hperm⟩ := hcomplete h rfl
      refine ⟨fun e' he => (by cases he), fun h' e' es ho hloop' hes => ?_,
        fun h' e' ho hloop' hnot => ?_⟩
      · cases ho
        cases hloop.symm.trans hloop'
        cases hvalue.symm.trans hes
        exact ⟨hreached, hperm⟩
      · cases ho
        cases hloop.symm.trans hloop'
        exact absurd hreached hnot

/-! ## A read error in the middle of three files -/

/-- The directory with the files `a`, `b` and `c`, on a device that fails as `fail` says. -/
def abcWalk (fail : Nat → Option CallError) : Walk where
  dev := abcListing.dev
  blockCount := 8
  nameMax := 16
  gdisk := {}
  fail

theorem abcWalk_opens (fail : Nat → Option CallError) :
    (abcWalk fail).Opens abcListing.handle [abcDir] :=
  ⟨abcListing_opened.directory, abcListing_opened.metadata, rfl, rfl⟩

theorem listDir_complete_abc : ∃ fuel₀, ∀ fuel, fuel₀ < fuel →
    ((abcWalk fun _ => none).listDir fuel (.ok abcListing.handle)).isSome ∧
    ((abcWalk fun _ => none).CompleteOrError fuel [abcDir] (.ok abcListing.handle) ↔
      ∀ h, Except.ok abcListing.handle = (Except.ok h : Except CallError Handle) →
        (abcWalk fun _ => none).Undisturbed [abcDir]) :=
  listDir_complete_iff fun _ h => Except.ok.inj h ▸ abcWalk_opens _

/-- The lookup of `b` fails with `LFS_ERR_IO`. -/
def abcFailing : Walk := abcWalk fun n => if n = 1 then some ⟨errIo, errIo_neg⟩ else none

/-- The listing is the value with the file `a` alone. -/
theorem listDir_truncated :
    abcFailing.Opens abcListing.handle [abcDir] ∧
    abcFailing.listDir 20 (.ok abcListing.handle) = some (.ok [⟨.file, [97], 0⟩]) ∧
    ¬ abcFailing.CompleteOrError 20 [abcDir] (.ok abcListing.handle) := by
  have hlist : abcFailing.listDir 20 (.ok abcListing.handle) =
      some (.ok [⟨.file, [97], 0⟩]) := by
    decide +kernel
  refine ⟨abcWalk_opens _, hlist, fun h => ?_⟩
  have hloop : (abcFailing.listLoop 20 20 0 abcListing.handle []).map ListBreak.res =
      some errIo := by
    decide +kernel
  obtain ⟨e, he, hres⟩ := Option.map_eq_some_iff.mp hloop
  have hnoent := (h.value _ e _ rfl he hlist).1.1
  cases hres.symm.trans hnoent

end LittleFs
