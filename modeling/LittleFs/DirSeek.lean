import LittleFs.DirWalk

/-! `lfs_dir_rawseek` and `lfs_dir_rawtell`. The position of a handle counts the entries that reads
have returned; a seek to it counts ids instead, pair by pair, and leaves out the superblock alone.
The two agree as long as no other id before the position is hidden. -/

namespace LittleFs

open FaultyScan (Call)

/-! ## Seeking -/

/-- `lfs_dir_rawrewind`. -/
def dirRawrewind (dev : Device) (blockCount : Nat) (gdisk : GState) (h : Handle) : Handle × Int :=
  match dirFetch dev blockCount gdisk h.head with
  | none => (h, errCorrupt)
  | some metadata => ({ h with metadata, id := 0, pos := 0#64 }, errOk)

/-- `dir->metadata.count - dir->id` as an argument of `lfs_min`, which takes 64-bit numbers. -/
def idsLeft (count id : Nat) : Nat := (count + 2 ^ 64 - id) % 2 ^ 64

/-- The loop of `lfs_dir_rawseek`; `none` when the fuel runs out. -/
def dirSeekLoop (dev : Device) (blockCount : Nat) (gdisk : GState) :
    (fuel : Nat) → Handle → (offset : Nat) → Option (Handle × Int)
  | 0, _, _ => none
  | fuel + 1, h, offset =>
    if offset = 0 then some (h, errOk)
    else
      let next : Except Int Handle :=
        if h.id = h.metadata.count then
          if h.metadata.split = false then .error errInval
          else match dirFetch dev blockCount gdisk h.metadata.tail with
            | none => .error errCorrupt
            | some metadata => .ok { h with metadata, id := 0 }
        else .ok h
      match next with
      | .error err => some (h, err)
      | .ok h =>
        let diff := min (idsLeft h.metadata.count h.id) offset
        dirSeekLoop dev blockCount gdisk fuel
          { h with id := (h.id + diff) % 2 ^ 16, pos := h.pos + BitVec.ofNat 64 diff }
          (offset - diff)

/-- `lfs_dir_rawseek`. -/
def dirRawseek (dev : Device) (blockCount : Nat) (gdisk : GState) (root : BlockPair) (fuel : Nat)
    (h : Handle) (offset : BitVec 64) : Option (Handle × Int) :=
  -- simply walk from head dir
  let (h, err) := dirRawrewind dev blockCount gdisk h
  if err ≠ 0 then some (h, err)
  else
    -- first two for ./..
    let pos := min 2 offset.toNat
    let offset := offset.toNat - pos
    -- skip superblock entry
    let id := if offset > 0 ∧ pairCmp h.head root = false then 1 else 0
    dirSeekLoop dev blockCount gdisk fuel { h with id, pos := BitVec.ofNat 64 pos } offset

/-- `lfs_dir_rawtell`. -/
def dirRawtell (h : Handle) : BitVec 64 := h.pos

/-! ## What a seek undoes -/

/-- Reads one after another, with what they return. -/
inductive Listing.ReadsTo (s : Listing) : Handle → List (Int × Info) → Handle → Prop
  | nil : ReadsTo s h [] h
  | cons (hread : dirRawread s.dev s.blockCount s.nameMax s.gdisk fuel h = some (h', r))
    (hrest : ReadsTo s h' rs h'') : ReadsTo s h (r :: rs) h''

/-- A handle behind `lfs_dir_rawopen`, in a directory that consists of the pairs `dirs`. -/
structure Listing.Opens (s : Listing) (dirs : List MetadataDir) : Prop where
  directory : s.Directory dirs
  metadata : s.handle.metadata ∈ dirs.head?
  id : s.handle.id = 0
  pos : s.handle.pos = 0#64

/-- The first entry of the root is the superblock: it is neither a file nor a directory, and no
pending move hides it. -/
structure Listing.Superblock (s : Listing) (dir : MetadataDir) : Prop where
  nonempty : 0 < dir.count
  name : (slotAt dir.log 0).1 = none
  move : gstateHasmovehere s.gdisk dir.pair = true → tagId s.gdisk.tag ≠ 0

/-- A seek from any position to the one that `h` tells: what reads return then is what they return
from `h` on. -/
structure Listing.SeekUndoesTell (s : Listing) (root : BlockPair) (h : Handle) : Prop where
  total : ∀ h₀ : Handle, h₀.head = s.handle.head →
    ∃ fuel r, dirRawseek s.dev s.blockCount s.gdisk root fuel h₀ (dirRawtell h) = some r
  undoes : ∀ h₀ : Handle, h₀.head = s.handle.head → ∀ fuel h' err,
    dirRawseek s.dev s.blockCount s.gdisk root fuel h₀ (dirRawtell h) = some (h', err) →
    err = errOk ∧ ∀ rs, (∃ h'', s.ReadsTo h' rs h'') ↔ ∃ h'', s.ReadsTo h rs h''

/-! ## Reading, on the entries ahead -/

/-- The walk without failures. -/
def Listing.walk (s : Listing) : Walk where
  dev := s.dev
  blockCount := s.blockCount
  nameMax := s.nameMax
  gdisk := s.gdisk
  fail _ := none

/-- What a lookup shows under the ids of the directory, one pair behind the other. -/
def Listing.ids (s : Listing) (dirs : List MetadataDir) : List (Option Info) :=
  dirs.flatMap fun dir => (List.range dir.count).map (s.walk.shown dir)

/-- What a read returns and leaves of the entries ahead. -/
def readEntries (entries : List Info) (pos : BitVec 64) :
    (Int × Info) × List Info × BitVec 64 :=
  if pos = 0#64 then ((errOk, { type := typeDir, name := [46] }), entries, pos + 1#64)
  else if pos = 1#64 then ((errOk, { type := typeDir, name := [46, 46] }), entries, pos + 1#64)
  else
    match entries with
    | [] => ((errNoent, {}), [], pos)
    | info :: entries => ((errOk, info), entries, pos + 1#64)

/-- What is under the ids that the calls look up. -/
def callIds : List (Call Info) → List (Option Info)
  | [] => []
  | .link :: calls => callIds calls
  | .item r :: calls => r :: callIds calls

/-- The handle stands before these ids. -/
def Listing.Before (s : Listing) (dirs : List MetadataDir) (h : Handle)
    (l : List (Option Info)) : Prop :=
  ∃ ahead, s.walk.Stands dirs h ahead ∧ callIds ahead = l

theorem reduceOption_callIds (calls : List (Call Info)) :
    (callIds calls).reduceOption = calls.filterMap Call.shown := by
  induction calls with
  | nil => rfl
  | cons c calls ih =>
    cases c with
    | link => exact ih
    | item r =>
      cases r with
      | none => exact ih
      | some info => exact congrArg (info :: ·) ih

theorem callIds_append (calls calls' : List (Call Info)) :
    callIds (calls ++ calls') = callIds calls ++ callIds calls' := by
  induction calls with
  | nil => rfl
  | cons c calls ih =>
    cases c with
    | link => exact ih
    | item r => exact congrArg (r :: ·) ih

theorem Listing.Before.pos {s : Listing} (H : s.Before dirs h l) (pos : BitVec 64) :
    s.Before dirs { h with pos } l := by
  obtain ⟨ahead, hstands, hl⟩ := H
  exact ⟨ahead, hstands.pos pos, hl⟩

theorem Listing.walk_directory {s : Listing} (H : s.Directory dirs)
    (hhead : h.head = s.handle.head) :
    (s.walk.listing h).Directory dirs :=
  ⟨H.nameMax, H.device, H.blockCount, H.linked, fun dir hdir => hhead ▸ H.head dir hdir, H.stored,
    H.disjoint, H.nonempty, H.move⟩

/-- **A read** from a handle with these ids ahead. -/
theorem Listing.exists_read {s : Listing} (H : s.Directory dirs) (hbefore : s.Before dirs h l) :
    ∃ fuel h' l', dirRawread s.dev s.blockCount s.nameMax s.gdisk fuel h =
        some (h', (readEntries l.reduceOption h.pos).1) ∧
      s.Before dirs h' l' ∧
      (l'.reduceOption, h'.pos) = (readEntries l.reduceOption h.pos).2 := by
  unfold readEntries
  by_cases h0 : h.pos = 0#64
  · simp only [if_pos h0]
    exact ⟨0, _, l, if_pos h0, hbefore.pos _, rfl⟩
  simp only [if_neg h0]
  by_cases h1 : h.pos = 1#64
  · simp only [if_pos h1]
    exact ⟨0, _, l, (if_neg h0).trans (if_pos h1), hbefore.pos _, rfl⟩
  simp only [if_neg h1]
  obtain ⟨ahead, hstands, rfl⟩ := hbefore
  rw [reduceOption_callIds]
  have hfail : ∀ n, s.walk.fail n = none := fun _ => rfl
  obtain ⟨r, hread, hr⟩ := s.walk.readLoop_eq (walk_directory H rfl) hstands
    (Nat.lt_succ_self ahead.length) 0
  have hraw : dirRawread s.dev s.blockCount s.nameMax s.gdisk (ahead.length + 1) h = some r.2 := by
    have h := s.walk.rawread_of_no_failure hfail (ahead.length + 1) 0 h
    rw [Walk.rawread, if_neg h0, if_neg h1, hread] at h
    exact h.symm
  rcases s.walk.next_of_no_failure hfail 0 ahead with
    ⟨n', ahead', info, hnext, hshown⟩ | ⟨n', hnext, hshown⟩
  · rw [hnext] at hr
    rw [hshown]
    cases hr with
    | found hstands' hpos hhead =>
      exact ⟨_, _, callIds ahead', hraw, ⟨ahead', hstands', rfl⟩, by
        rw [reduceOption_callIds, hpos]⟩
  · rw [hnext] at hr
    rw [hshown]
    cases hr with
    | ended hstands' hpos hhead hend =>
      exact ⟨_, _, [], hraw, ⟨[], hstands', rfl⟩, by rw [hpos]; rfl⟩

/-! ## Sequences of reads -/

/-- What `n` reads return. -/
def readSeq : (n : Nat) → List Info → BitVec 64 → List (Int × Info)
  | 0, _, _ => []
  | n + 1, entries, pos =>
    (readEntries entries pos).1 ::
      readSeq n (readEntries entries pos).2.1 (readEntries entries pos).2.2

/-- The entries among the reads from a position on: the others return `.` and `..`. -/
def entriesRead : (pos : BitVec 64) → (n : Nat) → Nat
  | _, 0 => 0
  | pos, n + 1 => (if pos = 0#64 ∨ pos = 1#64 then 0 else 1) + entriesRead (pos + 1#64) n

theorem dirRawread_unique {s : Listing} {g : Handle}
    (h : dirRawread s.dev s.blockCount s.nameMax s.gdisk fuel g = some r)
    (h' : dirRawread s.dev s.blockCount s.nameMax s.gdisk fuel' g = some r') : r = r' := by
  have hmono := dirRawread_mono (s := { s with handle := g }) h fuel'
  have hmono' := dirRawread_mono (s := { s with handle := g }) h' fuel
  rw [Nat.add_comm] at hmono'
  exact Option.some.inj (hmono.symm.trans hmono')

/-- **The reads** from a handle return what the ids ahead of it show. -/
theorem Listing.readsTo_iff {s : Listing} (H : s.Directory dirs) (hbefore : s.Before dirs h l) :
    (∃ h', s.ReadsTo h rs h') ↔ rs = readSeq rs.length l.reduceOption h.pos := by
  induction rs generalizing h l with
  | nil => exact ⟨fun _ => rfl, fun _ => ⟨h, .nil⟩⟩
  | cons r rs ih =>
    obtain ⟨fuel, h₁, l₁, hread, hbefore₁, hrest⟩ := exists_read H hbefore
    obtain ⟨hl, hpos⟩ := Prod.mk.inj hrest
    have hih := ih hbefore₁
    rw [hl, hpos] at hih
    rw [List.length_cons, readSeq, List.cons.injEq, ← hih]
    constructor
    · rintro ⟨h', hreads⟩
      cases hreads with
      | cons hread' hreads =>
        cases dirRawread_unique hread hread'
        exact ⟨rfl, h', hreads⟩
    · rintro ⟨rfl, h', hreads⟩
      exact ⟨h', .cons hread hreads⟩

theorem length_readSeq (n : Nat) (entries : List Info) (pos : BitVec 64) :
    (readSeq n entries pos).length = n := by
  induction n generalizing entries pos with
  | zero => rfl
  | succ n ih => exact congrArg Nat.succ (ih _ _)

theorem readEntries_dots (entries : List Info) (h : pos = 0#64 ∨ pos = 1#64) :
    (readEntries entries pos).1.1 = errOk ∧
      (readEntries entries pos).2 = (entries, pos + 1#64) := by
  rcases h with rfl | rfl <;> exact ⟨rfl, rfl⟩

theorem readEntries_nil (h : ¬ (pos = 0#64 ∨ pos = 1#64)) :
    readEntries [] pos = ((errNoent, {}), [], pos) := by
  obtain ⟨h0, h1⟩ := not_or.mp h
  rw [readEntries.eq_def, if_neg h0, if_neg h1]

theorem readEntries_cons (h : ¬ (pos = 0#64 ∨ pos = 1#64)) (info : Info) (entries : List Info) :
    readEntries (info :: entries) pos = ((errOk, info), entries, pos + 1#64) := by
  obtain ⟨h0, h1⟩ := not_or.mp h
  rw [readEntries.eq_def, if_neg h0, if_neg h1]

theorem readSeq_tail (h : ∀ n, readSeq n entries pos = readSeq n entries' pos) :
    (readEntries entries pos).1 = (readEntries entries' pos).1 ∧
      ∀ n, readSeq n (readEntries entries pos).2.1 (readEntries entries pos).2.2 =
        readSeq n (readEntries entries' pos).2.1 (readEntries entries' pos).2.2 :=
  ⟨(List.cons.inj (h 1)).1, fun n => (List.cons.inj (h (n + 1))).2⟩

/-- Behind the reads of `.` and `..`. -/
theorem readSeq_behind_dots (h : ∀ n, readSeq n entries pos = readSeq n entries' pos) :
    ∃ pos', ¬ (pos' = 0#64 ∨ pos' = 1#64) ∧
      ∀ n, readSeq n entries pos' = readSeq n entries' pos' := by
  have hone : ∀ {pos : BitVec 64}, pos = 0#64 ∨ pos = 1#64 →
      (∀ n, readSeq n entries pos = readSeq n entries' pos) →
      ∀ n, readSeq n entries (pos + 1#64) = readSeq n entries' (pos + 1#64) := by
    intro pos hpos h n
    have htail := (readSeq_tail h).2 n
    rwa [(readEntries_dots entries hpos).2, (readEntries_dots entries' hpos).2] at htail
  by_cases hpos : pos = 0#64 ∨ pos = 1#64
  · rcases hpos with rfl | rfl
    · exact ⟨0#64 + 1#64 + 1#64, by decide, hone (by decide) (hone (.inl rfl) h)⟩
    · exact ⟨1#64 + 1#64, by decide, hone (.inr rfl) h⟩
  · exact ⟨pos, hpos, h⟩

/-- What the reads return tells the entries ahead. -/
theorem readSeq_injective (pos : BitVec 64)
    (h : ∀ n, readSeq n entries pos = readSeq n entries' pos) : entries = entries' := by
  induction entries generalizing entries' pos with
  | nil =>
    obtain ⟨pos', hpos', h'⟩ := readSeq_behind_dots h
    cases entries' with
    | nil => rfl
    | cons info' entries' =>
      have hfirst := (readSeq_tail h').1
      rw [readEntries_nil hpos', readEntries_cons hpos'] at hfirst
      have hcode : errNoent = errOk := congrArg Prod.fst hfirst
      exact absurd hcode (by decide)
  | cons info entries ih =>
    obtain ⟨pos', hpos', h'⟩ := readSeq_behind_dots h
    obtain ⟨hfirst, htail⟩ := readSeq_tail h'
    cases entries' with
    | nil =>
      rw [readEntries_nil hpos', readEntries_cons hpos'] at hfirst
      have hcode : errOk = errNoent := congrArg Prod.fst hfirst
      exact absurd hcode (by decide)
    | cons info' entries' =>
      rw [readEntries_cons hpos', readEntries_cons hpos'] at hfirst htail
      have hinfo : info = info' := congrArg Prod.snd hfirst
      rw [hinfo, ih _ htail]

/-- **Behind successful reads** as many entries are gone as they have returned. -/
theorem Listing.ReadsTo.before {s : Listing} (H : s.Directory dirs) (hreads : s.ReadsTo h rs h')
    (hok : ∀ r ∈ rs, r.1 = errOk) (hbefore : s.Before dirs h l) :
    ∃ l', s.Before dirs h' l' ∧ h'.pos = h.pos + BitVec.ofNat 64 rs.length ∧
      entriesRead h.pos rs.length ≤ l.reduceOption.length ∧
      l'.reduceOption = l.reduceOption.drop (entriesRead h.pos rs.length) := by
  induction hreads generalizing l with
  | nil => exact ⟨l, hbefore, (BitVec.add_zero _).symm, Nat.zero_le _, rfl⟩
  | @cons fuel h h₁ r rs h'' hread hrest ih =>
    obtain ⟨fuel', h₂, l₁, hread', hbefore₁, hnext⟩ := exists_read H hbefore
    cases dirRawread_unique hread hread'
    obtain ⟨hokr, hokrs⟩ := List.forall_mem_cons.mp hok
    obtain ⟨l', hbefore', hpos', hle, hdrop⟩ := ih hokrs hbefore₁
    have hsum : h.pos + BitVec.ofNat 64 (rs.length + 1) =
        h.pos + 1#64 + BitVec.ofNat 64 rs.length := by
      rw [Nat.add_comm, BitVec.ofNat_add, BitVec.add_assoc]
    rw [List.length_cons, entriesRead, hsum]
    by_cases hdots : h.pos = 0#64 ∨ h.pos = 1#64
    · rw [(readEntries_dots _ hdots).2] at hnext
      obtain ⟨hl, hpos⟩ := Prod.mk.inj hnext
      rw [if_pos hdots, Nat.zero_add, ← hpos, ← hl]
      exact ⟨l', hbefore', hpos', hle, hdrop⟩
    · cases hentries : l.reduceOption with
      | nil =>
        rw [hentries, readEntries_nil hdots] at hokr
        have hcode : errNoent = errOk := hokr
        exact absurd hcode (by decide)
      | cons info entries =>
        rw [hentries, readEntries_cons hdots] at hnext
        obtain ⟨hl, hpos⟩ := Prod.mk.inj hnext
        rw [if_neg hdots, Nat.add_comm, List.drop_succ_cons, List.length_cons, ← hpos, ← hl]
        exact ⟨l', hbefore', hpos', Nat.succ_le_succ hle, hdrop⟩

theorem entriesRead_mono (pos : BitVec 64) (h : k ≤ k') :
    entriesRead pos k ≤ entriesRead pos k' := by
  induction k generalizing pos k' with
  | zero => exact Nat.zero_le _
  | succ k ih =>
    obtain ⟨k', rfl⟩ := Nat.exists_eq_add_one.mpr (Nat.lt_of_lt_of_le (Nat.succ_pos k) h)
    rw [entriesRead, entriesRead]
    exact Nat.add_le_add_left (ih _ (Nat.le_of_succ_le_succ h)) _

theorem entriesRead_of_le (hpos : 2 ≤ pos.toNat) (hk : pos.toNat + k ≤ 2 ^ 64) :
    entriesRead pos k = k := by
  induction k generalizing pos with
  | zero => rfl
  | succ k ih =>
    have hdots : ¬ (pos = 0#64 ∨ pos = 1#64) := by
      rintro (rfl | rfl) <;> exact absurd hpos (by decide)
    rw [entriesRead, if_neg hdots, Nat.add_comm]
    cases k with
    | zero => rfl
    | succ k =>
      have hnext : (pos + 1#64).toNat = pos.toNat + 1 := by
        rw [BitVec.toNat_add]
        exact Nat.mod_eq_of_lt (by simp only [BitVec.toNat_ofNat]; omega)
      rw [ih (by omega) (by omega)]

/-- The entries among the first reads from a handle that was just opened. -/
theorem entriesRead_zero_of_le (hk : k ≤ 2 ^ 64) : entriesRead 0#64 k = k - 2 := by
  rcases k with _ | _ | k
  · rfl
  · rfl
  · have hdots : entriesRead 0#64 (k + 2) = entriesRead 2#64 k := by
      rw [entriesRead, entriesRead, if_pos (.inl rfl), if_pos (.inr rfl), Nat.zero_add,
        Nat.zero_add]
      rfl
    have htwo : (2#64).toNat = 2 := rfl
    rw [hdots, entriesRead_of_le (by omega) (by omega)]
    rfl

theorem le_entriesRead_zero (hk : 2 ^ 64 ≤ k) : 2 ^ 64 - 2 ≤ entriesRead 0#64 k := by
  have h := entriesRead_mono 0#64 hk
  rwa [entriesRead_zero_of_le (Nat.le_refl _)] at h

/-! ## The seek -/

theorem idsLeft_of_le {count id : Nat} (h : id ≤ count) (hcount : count < 2 ^ 16) :
    idsLeft count id = count - id := by
  rw [idsLeft]
  omega

theorem callIds_lookups (w : Walk) (dir : MetadataDir) (i : Nat) :
    callIds (w.lookups dir i) = ((List.range dir.count).map (w.shown dir)).drop i := by
  have hmap : ∀ l : List Nat, callIds (l.map fun i => .item (w.shown dir i)) =
      l.map (w.shown dir) := fun l => by
    induction l with
    | nil => rfl
    | cons i l ih => exact congrArg (w.shown dir i :: ·) ih
  rw [Walk.lookups, hmap, List.map_drop]

theorem callIds_behind (s : Listing) (dirs : List MetadataDir) :
    callIds (s.walk.behind dirs) = s.ids dirs := by
  induction dirs with
  | nil => rfl
  | cons dir dirs ih =>
    have hbehind : s.walk.behind (dir :: dirs) =
        .link :: (s.walk.lookups dir 0 ++ s.walk.behind dirs) := rfl
    rw [hbehind, callIds, callIds_append, callIds_lookups, ih, List.drop_zero, Listing.ids,
      Listing.ids, List.flatMap_cons]

theorem Listing.before_on {s : Listing} {h : Handle} (hdirs : dirs = before ++ dir :: after)
    (hmetadata : h.metadata = dir) (hid : h.id ≤ dir.count) :
    s.Before dirs h (((List.range dir.count).map (s.walk.shown dir)).drop h.id ++ s.ids after) := by
  refine ⟨_, .on hdirs hmetadata hid, ?_⟩
  rw [callIds_append, callIds_lookups, callIds_behind]

/-- The ids that are left in the pair of the handle. -/
theorem dirSeekLoop_skip {s : Listing} {h : Handle} (fuel : Nat) (hlt : h.id < h.metadata.count)
    (hcount : h.metadata.count < 2 ^ 16) (hoffset : offset ≠ 0) :
    dirSeekLoop s.dev s.blockCount s.gdisk (fuel + 1) h offset =
      dirSeekLoop s.dev s.blockCount s.gdisk fuel
        { h with
          id := h.id + min (h.metadata.count - h.id) offset
          pos := h.pos + BitVec.ofNat 64 (min (h.metadata.count - h.id) offset) }
        (offset - min (h.metadata.count - h.id) offset) := by
  have hmod : (h.id + min (h.metadata.count - h.id) offset) % 2 ^ 16 =
      h.id + min (h.metadata.count - h.id) offset := Nat.mod_eq_of_lt (by omega)
  rw [dirSeekLoop, if_neg hoffset, if_neg hlt.ne]
  dsimp only
  rw [idsLeft_of_le hlt.le hcount, hmod]

/-- The loop of a seek comes from `g` to a handle before the ids `l`. -/
def Listing.Passes (s : Listing) (dirs : List MetadataDir) (g : Handle) (offset : Nat)
    (l : List (Option Info)) : Prop :=
  ∃ fuel h', dirSeekLoop s.dev s.blockCount s.gdisk (fuel + 1) g offset = some (h', errOk) ∧
    s.Before dirs h' l ∧ h'.pos = g.pos + BitVec.ofNat 64 offset

/-- The part of a seek in the pair of the handle, with the part behind the pair. -/
theorem Listing.passes_of_end {s : Listing} {h : Handle}
    (hdirs : dirs = before ++ dir :: after) (hmetadata : h.metadata = dir) (hid : h.id ≤ dir.count)
    (hcount : dir.count < 2 ^ 16) (hoffset : offset ≤ dir.count - h.id + (s.ids after).length)
    (hend : ∀ g offset, g.metadata = dir → g.id = dir.count → 0 < offset →
      offset ≤ (s.ids after).length → s.Passes dirs g offset ((s.ids after).drop offset)) :
    s.Passes dirs h offset ((((List.range dir.count).map (s.walk.shown dir)).drop h.id ++
      s.ids after).drop offset) := by
  subst hmetadata
  have hlen : (((List.range h.metadata.count).map (s.walk.shown h.metadata)).drop h.id).length =
      h.metadata.count - h.id := by
    rw [List.length_drop, List.length_map, List.length_range]
  by_cases h0 : offset = 0
  · subst h0
    exact ⟨0, h, rfl, before_on hdirs rfl hid, (BitVec.add_zero _).symm⟩
  by_cases hlt : h.id < h.metadata.count
  · by_cases hle : offset ≤ h.metadata.count - h.id
    · have hmin : min (h.metadata.count - h.id) offset = offset := Nat.min_eq_right hle
      have hskip := dirSeekLoop_skip (s := s) 1 hlt hcount h0
      rw [hmin, Nat.sub_self] at hskip
      refine ⟨1, _, hskip, ?_, rfl⟩
      have hbefore : s.Before dirs
          { h with id := h.id + offset, pos := h.pos + BitVec.ofNat 64 offset } _ :=
            before_on hdirs rfl (show h.id + offset ≤ h.metadata.count by omega)
      rw [List.drop_append_of_le_length (by omega), List.drop_drop]
      exact hbefore
    · have hmin : min (h.metadata.count - h.id) offset = h.metadata.count - h.id :=
        Nat.min_eq_left (by omega)
      have hskip := fun fuel => dirSeekLoop_skip (s := s) fuel hlt hcount h0
      rw [hmin] at hskip
      obtain ⟨fuel, h', hloop, hbefore, hpos⟩ := hend
        { h with
          id := h.id + (h.metadata.count - h.id)
          pos := h.pos + BitVec.ofNat 64 (h.metadata.count - h.id) }
        (offset - (h.metadata.count - h.id)) rfl (Nat.add_sub_cancel' hid) (by omega) (by omega)
      refine ⟨fuel + 1, h', (hskip (fuel + 1)).trans hloop, ?_, ?_⟩
      · rw [List.drop_append, List.drop_eq_nil_of_le (by omega), List.nil_append, hlen]
        exact hbefore
      · rw [hpos, BitVec.add_assoc, ← BitVec.ofNat_add, Nat.add_sub_cancel' (by omega)]
  · have hlast : h.id = h.metadata.count := by omega
    have hpasses := hend h offset rfl hlast (by omega) (by omega)
    rwa [List.drop_append, hlen, List.drop_eq_nil_of_le (by omega), List.nil_append, hlast,
      Nat.sub_self, Nat.sub_zero]

/-- **The loop** of a seek passes over `offset` ids. -/
theorem Listing.passes {s : Listing} {h : Handle} (H : s.Directory dirs)
    (hdirs : dirs = before ++ dir :: after) (hmetadata : h.metadata = dir) (hid : h.id ≤ dir.count)
    (hoffset : offset ≤ dir.count - h.id + (s.ids after).length) :
    s.Passes dirs h offset ((((List.range dir.count).map (s.walk.shown dir)).drop h.id ++
      s.ids after).drop offset) := by
  have hbound : ∀ dir ∈ dirs, dir.count < 2 ^ 16 := fun dir hdir => by
    have := logCount_lt (H.stored dir hdir).whole.log.count_eq
    omega
  induction after generalizing before dir h offset with
  | nil =>
    refine passes_of_end hdirs hmetadata hid (hbound dir (by simp [hdirs])) hoffset
      fun g offset _ _ hpos hle => ?_
    exact absurd (Nat.lt_of_lt_of_le hpos hle) (Nat.lt_irrefl 0)
  | cons next after ih =>
    refine passes_of_end hdirs hmetadata hid (hbound dir (by simp [hdirs])) hoffset
      fun g offset hg hid hpos hle => ?_
    have hnext : dirs = (before ++ [dir]) ++ next :: after := by simp [hdirs]
    have hsplits := hdirs ▸ H.linked
    rcases hsplits.tail with ⟨hnil, _⟩ | ⟨_, _, hcons, hsplit, htail⟩
    · cases hnil
    cases hcons
    have hfetch : dirFetch s.dev s.blockCount s.gdisk g.metadata.tail = some next := by
      rw [hg]
      exact (H.stored next (by simp [hdirs])).fetch htail _
    have hcount : 0 < next.count := H.nonempty next (by rw [hdirs]; cases before <;> simp)
    have hcross : ∀ fuel, dirSeekLoop s.dev s.blockCount s.gdisk (fuel + 1) g offset =
        dirSeekLoop s.dev s.blockCount s.gdisk (fuel + 1) { g with metadata := next, id := 0 }
          offset := fun fuel => by
      rw [dirSeekLoop, if_neg hpos.ne', if_pos (hid.trans (congrArg _ hg).symm),
        if_neg (by rw [hg, hsplit]; decide), hfetch, dirSeekLoop, if_neg hpos.ne', if_neg hcount.ne]
    have hids : s.ids (next :: after) =
        (List.range next.count).map (s.walk.shown next) ++ s.ids after := by
      rw [ids, List.flatMap_cons]
      rfl
    rw [hids] at hle ⊢
    rw [List.length_append, List.length_map, List.length_range] at hle
    obtain ⟨fuel, h', hloop, hbefore, hpos'⟩ := ih (h := { g with metadata := next, id := 0 }) hnext
      rfl (Nat.zero_le _) hle
    exact ⟨fuel, h', (hcross fuel).trans hloop, hbefore, hpos'⟩

/-- The ids that a seek to position `k` leaves out at the start: the superblock of the root. -/
def seekSkips (root head : BlockPair) (k : Nat) : Nat :=
  if 2 < k ∧ pairCmp head root = false then 1 else 0

/-- **A seek** from any handle of the directory. -/
theorem Listing.exists_rawseek {s : Listing} (H : s.Opens dirs)
    (hroot : pairCmp s.handle.head root = false → ∀ dir ∈ dirs.head?, s.Superblock dir)
    {h : Handle} (hhead : h.head = s.handle.head) (pos : BitVec 64)
    (hle : seekSkips root s.handle.head pos.toNat + (pos.toNat - 2) ≤ (s.ids dirs).length) :
    ∃ fuel h', dirRawseek s.dev s.blockCount s.gdisk root fuel h pos = some (h', errOk) ∧
      s.Before dirs h' ((s.ids dirs).drop
        (seekSkips root s.handle.head pos.toNat + (pos.toNat - 2))) ∧ h'.pos = pos := by
  cases dirs with
  | nil => exact absurd H.directory.linked fun h => h
  | cons dir dirs =>
    have hfetch : dirFetch s.dev s.blockCount s.gdisk h.head = some dir :=
      (H.directory.stored dir (.head _)).fetch (hhead ▸ H.directory.head dir rfl) _
    have hskips : (if pos.toNat - min 2 pos.toNat > 0 ∧ pairCmp h.head root = false then 1 else 0) =
        seekSkips root s.handle.head pos.toNat := by
      rw [hhead, seekSkips]
      have hiff : pos.toNat - min 2 pos.toNat > 0 ↔ 2 < pos.toNat := by omega
      simp only [hiff]
    have hoff : pos.toNat - min 2 pos.toNat = pos.toNat - 2 := by omega
    have hid : seekSkips root s.handle.head pos.toNat ≤ dir.count := by
      rw [seekSkips]
      split
      · rename_i h
        exact (hroot h.2 dir rfl).nonempty
      · exact Nat.zero_le _
    have hids : s.ids (dir :: dirs) =
        (List.range dir.count).map (s.walk.shown dir) ++ s.ids dirs := by
      rw [ids, List.flatMap_cons]
      rfl
    have hlen : ((List.range dir.count).map (s.walk.shown dir)).length = dir.count := by
      rw [List.length_map, List.length_range]
    rw [hids, List.length_append, hlen] at hle
    have hseek : ∀ fuel, dirRawseek s.dev s.blockCount s.gdisk root fuel h pos =
        dirSeekLoop s.dev s.blockCount s.gdisk fuel
          { h with
            metadata := dir
            id := seekSkips root s.handle.head pos.toNat
            pos := BitVec.ofNat 64 (min 2 pos.toNat) } (pos.toNat - 2) := fun fuel => by
      rw [dirRawseek, dirRawrewind, hfetch]
      dsimp only
      rw [if_neg (by decide), hskips, hoff]
    obtain ⟨fuel, h', hloop, hbefore, hpos⟩ := passes H.directory
      (show dir :: dirs = [] ++ dir :: dirs from rfl)
      (h := { h with
        metadata := dir
        id := seekSkips root s.handle.head pos.toNat
        pos := BitVec.ofNat 64 (min 2 pos.toNat) }) rfl hid
      (show pos.toNat - 2 ≤ dir.count - seekSkips root s.handle.head pos.toNat +
        (s.ids dirs).length by omega)
    refine ⟨fuel + 1, h', (hseek _).trans hloop, ?_, ?_⟩
    · rw [hids, ← List.drop_drop, List.drop_append_of_le_length (hlen.symm ▸ hid)]
      exact hbefore
    · rw [hpos, ← BitVec.ofNat_add, Nat.add_comm, ← hoff, Nat.sub_add_cancel (Nat.min_le_right ..),
        BitVec.ofNat_toNat, BitVec.setWidth_eq]

theorem dirSeekLoop_mono (h : dirSeekLoop dev blockCount gdisk fuel g offset = some r) (k : Nat) :
    dirSeekLoop dev blockCount gdisk (fuel + k) g offset = some r := by
  induction fuel generalizing g offset with
  | zero => cases h
  | succ fuel ih =>
    rw [Nat.add_right_comm, dirSeekLoop]
    rw [dirSeekLoop] at h
    revert h
    split
    · exact id
    · dsimp only
      split
      · exact id
      · exact ih

theorem dirRawseek_unique (h : dirRawseek dev blockCount gdisk root fuel g pos = some r)
    (h' : dirRawseek dev blockCount gdisk root fuel' g pos = some r') : r = r' := by
  rw [dirRawseek] at h h'
  revert h h'
  dsimp only
  split
  · intro h h'
    exact Option.some.inj (h.symm.trans h')
  · intro h h'
    have hmono := dirSeekLoop_mono h fuel'
    have hmono' := dirSeekLoop_mono h' fuel
    rw [Nat.add_comm] at hmono'
    exact Option.some.inj (hmono.symm.trans hmono')

theorem Listing.Opens.before {s : Listing} (H : s.Opens dirs) :
    s.Before dirs s.handle (s.ids dirs) := by
  cases dirs with
  | nil => exact absurd H.directory.linked fun h => h
  | cons dir dirs =>
    have hmetadata : s.handle.metadata = dir := (Option.some.inj H.metadata).symm
    have hbefore := before_on (show dir :: dirs = [] ++ dir :: dirs from rfl) hmetadata
      (H.id ▸ Nat.zero_le _) (s := s)
    rw [H.id, List.drop_zero] at hbefore
    rw [ids, List.flatMap_cons]
    exact hbefore

/-- A seek undoes a tell exactly when it comes to the entries that were ahead. -/
theorem Listing.seekUndoesTell_iff {s : Listing} (H : s.Opens dirs)
    (hroot : pairCmp s.handle.head root = false → ∀ dir ∈ dirs.head?, s.Superblock dir)
    (hbefore : s.Before dirs h l)
    (hle : seekSkips root s.handle.head h.pos.toNat + (h.pos.toNat - 2) ≤ (s.ids dirs).length) :
    s.SeekUndoesTell root h ↔ ((s.ids dirs).drop
      (seekSkips root s.handle.head h.pos.toNat + (h.pos.toNat - 2))).reduceOption =
        l.reduceOption := by
  have hseek := fun {h₀ : Handle} (hhead : h₀.head = s.handle.head) =>
    exists_rawseek H hroot hhead h.pos hle
  constructor
  · intro hundoes
    obtain ⟨fuel, h', hraw, hbefore', hpos⟩ := hseek rfl
    have hreads := (hundoes.undoes s.handle rfl fuel h' errOk hraw).2
    refine readSeq_injective h.pos fun n => ?_
    have hiff := hreads (readSeq n ((s.ids dirs).drop (seekSkips root s.handle.head h.pos.toNat +
      (h.pos.toNat - 2))).reduceOption h.pos)
    rw [readsTo_iff H.directory hbefore', readsTo_iff H.directory hbefore,
      length_readSeq, hpos] at hiff
    exact hiff.mp rfl
  · intro heq
    refine ⟨fun h₀ hhead => ?_, fun h₀ hhead fuel h' err hraw => ?_⟩
    · obtain ⟨fuel, h', hraw, -⟩ := hseek hhead
      exact ⟨fuel, _, hraw⟩
    · obtain ⟨fuel', h'', hraw', hbefore', hpos⟩ := hseek hhead
      cases dirRawseek_unique hraw hraw'
      refine ⟨rfl, fun rs => ?_⟩
      rw [readsTo_iff H.directory hbefore', readsTo_iff H.directory hbefore, heq, hpos]

/-- The superblock shows nothing. -/
theorem Listing.Superblock.ids {s : Listing} (H : s.Superblock dir) (dirs : List MetadataDir) :
    ((s.ids (dir :: dirs)).take 1).reduceOption = [] := by
  have hview : viewId s.gdisk dir.pair 0 = 0 := if_neg fun h => H.move h.1 (Nat.le_zero.mp h.2)
  have hshown : s.walk.shown dir 0 = none := by
    have hname := H.name
    rw [Walk.shown, getElem?_seen, walk, hview, getElem?_slots H.nonempty]
    cases hslot : slotAt dir.log 0 with
    | mk name struct =>
      rw [hslot] at hname
      cases hname
      rfl
  obtain ⟨count, hcount⟩ := Nat.exists_eq_add_one.mpr H.nonempty
  rw [Listing.ids, List.flatMap_cons, hcount, List.range_succ_eq_map, List.map_cons, hshown]
  rfl

/-- The ids that a seek leaves out show nothing. -/
theorem Listing.take_seekSkips {s : Listing} (H : s.Opens dirs)
    (hroot : pairCmp s.handle.head root = false → ∀ dir ∈ dirs.head?, s.Superblock dir) (k : Nat) :
    ((s.ids dirs).take (seekSkips root s.handle.head k)).reduceOption = [] ∧
      seekSkips root s.handle.head k ≤ (s.ids dirs).length ∧
      (seekSkips root s.handle.head k = 0 ∨ 2 < k) := by
  rw [seekSkips]
  by_cases hskip : 2 < k ∧ pairCmp s.handle.head root = false
  · rw [if_pos hskip]
    cases dirs with
    | nil => exact absurd H.directory.linked fun h => h
    | cons dir dirs =>
      have hsuper := hroot hskip.2 dir rfl
      refine ⟨hsuper.ids dirs, ?_, .inr hskip.1⟩
      rw [Listing.ids, List.flatMap_cons, List.length_append, List.length_map, List.length_range]
      exact Nat.le_add_right_of_le hsuper.nonempty
  · rw [if_neg hskip]
    exact ⟨rfl, Nat.zero_le _, .inl rfl⟩

/-- **A seek undoes a tell** behind `k` successful reads exactly when the position has not wrapped
around and every id before it, without the superblock of the root, shows an entry. -/
theorem dirRawseek_undoes_iff {s : Listing} (H : s.Opens dirs)
    (hroot : pairCmp s.handle.head root = false → ∀ dir ∈ dirs.head?, s.Superblock dir)
    (hreads : s.ReadsTo s.handle rs h) (hok : ∀ r ∈ rs, r.1 = errOk) :
    s.SeekUndoesTell root h ↔ rs.length < 2 ^ 64 ∧
      ∀ i, seekSkips root s.handle.head rs.length ≤ i →
        i < rs.length - 2 + seekSkips root s.handle.head rs.length →
        ∃ info, (s.ids dirs)[i]? = some (some info) := by
  obtain ⟨l', hbefore, hpos, hentries, hdrop⟩ := hreads.before H.directory hok H.before
  have hn : h.pos.toNat = rs.length % 2 ^ 64 := by
    rw [hpos, H.pos, BitVec.zero_add, BitVec.toNat_ofNat]
  rw [H.pos] at hentries hdrop
  obtain ⟨htake, hskips, hlarge⟩ := s.take_seekSkips H hroot h.pos.toNat
  generalize rs.length = k at hn hentries hdrop ⊢
  have hvisible : (s.ids dirs).reduceOption =
      ((s.ids dirs).drop (seekSkips root s.handle.head h.pos.toNat)).reduceOption := by
    rw [ListCursor.reduceOption_take_drop _ (seekSkips root s.handle.head h.pos.toNat), htake,
      List.nil_append]
  have hlen := List.reduceOption_length_le
    ((s.ids dirs).drop (seekSkips root s.handle.head h.pos.toNat))
  rw [← hvisible, List.length_drop] at hlen
  have hpassed : ∀ x,
      ((s.ids dirs).take (seekSkips root s.handle.head h.pos.toNat + x)).reduceOption =
      (((s.ids dirs).drop (seekSkips root s.handle.head h.pos.toNat)).take x).reduceOption := by
    intro x
    rw [List.take_add, List.reduceOption_append, htake, List.nil_append]
  have hle : h.pos.toNat - 2 ≤ entriesRead 0#64 k := by
    rw [hn]
    by_cases hk : k < 2 ^ 64
    · rw [Nat.mod_eq_of_lt hk, entriesRead_zero_of_le hk.le]
    · have hmod := Nat.mod_lt k (show 0 < 2 ^ 64 by decide)
      have hmany := le_entriesRead_zero (Nat.le_of_not_lt hk)
      omega
  rw [s.seekUndoesTell_iff H hroot hbefore (by omega), hdrop,
    ListCursor.reduceOption_drop_eq_iff hentries, hpassed]
  by_cases hk : k < 2 ^ 64
  · have hpos' : h.pos.toNat = k := hn.trans (Nat.mod_eq_of_lt hk)
    rw [hpos'] at hskips hlarge hlen ⊢
    rw [entriesRead_zero_of_le hk.le] at hentries ⊢
    rw [ListCursor.length_reduceOption_take_eq_iff (by rw [List.length_drop]; omega)]
    simp only [List.getElem?_drop]
    refine ⟨fun hids => ⟨hk, fun i hi hlt => ?_⟩, fun hids i hi => ?_⟩
    · have hinfo := hids (i - seekSkips root s.handle.head k) (by omega)
      rwa [Nat.add_sub_cancel' hi] at hinfo
    · exact hids.2 _ (Nat.le_add_right ..) (by omega)
  · -- fewer ids are passed over than entries were read
    have hmod := Nat.mod_lt k (show 0 < 2 ^ 64 by decide)
    rw [← hn] at hmod
    have hmany := le_entriesRead_zero (Nat.le_of_not_lt hk)
    have hfew := List.reduceOption_length_le (((s.ids dirs).drop
      (seekSkips root s.handle.head h.pos.toNat)).take (h.pos.toNat - 2))
    rw [List.length_take] at hfew
    refine ⟨fun heq => ?_, fun hids => absurd hids.1 hk⟩
    exfalso
    have hmin := Nat.min_le_left (h.pos.toNat - 2)
      ((s.ids dirs).drop (seekSkips root s.handle.head h.pos.toNat)).length
    omega

/-! ## A pending move in the first of two pairs -/

theorem Listing.ReadsTo.one {s : Listing} (fuel : Nat)
    (hread : dirRawread s.dev s.blockCount s.nameMax s.gdisk fuel h = some (h', r)) :
    s.ReadsTo h [r] h' := .cons hread .nil

theorem Listing.ReadsTo.append {s : Listing} (H : s.ReadsTo h rs h') (H' : s.ReadsTo h' rs' h'') :
    s.ReadsTo h (rs ++ rs') h'' := by
  induction H with
  | nil => exact H'
  | cons hread _ ih => exact .cons hread (ih H')

/-- The pair of `a`, `b` and `c`, continued in another pair. -/
def abcHead : MetadataDir :=
  { abcDir with
    log := abcDir.log ++ [⟨mkTag typeHardtail 0x3ff 16, pairToLe64 (4, 5)⟩]
    split := true
    tail := (4, 5) }

/-- The files `d` and `e`. -/
def deTail : MetadataDir where
  pair := (4, 5)
  log := [⟨mkTag typeCreate 0 0, []⟩, ⟨mkTag typeReg 0 1, [100]⟩, ⟨mkTag typeInlinestruct 0 0, []⟩,
    ⟨mkTag typeCreate 1 0, []⟩, ⟨mkTag typeReg 1 1, [101]⟩, ⟨mkTag typeInlinestruct 1 0, []⟩]
  count := 2
  split := false
  tail := pairNull

/-- The file `b` is being moved away. -/
def movingListing : Listing where
  dev := setPair (setPair (fun _ => none) abcHead) deTail
  blockCount := 8
  nameMax := 16
  gdisk := fsPrepmove {} 1#16 (2, 3)
  handle := { serial := 0, id := 0, type := typeDir, metadata := abcHead, head := (2, 3) }

theorem abcHead_deTail : ¬ SharesBlock abcHead.pair deTail.pair :=
  mt pairCmp_eq_false.mpr (by decide)

theorem movingListing_opens : movingListing.Opens [abcHead, deTail] where
  directory := {
    nameMax := by decide
    device := setPair_readsPair
      (setPair_readsPair (show ReadsPair fun _ => none from fun _ _ _ h => by cases h) _) _
    blockCount := by decide
    linked := ⟨rfl, rfl, rfl⟩
    head := by rintro _ ⟨⟩; rfl
    stored := by
      have hhead : Stored (setPair (fun _ => none) abcHead) 8 abcHead :=
        ⟨by decide, fun _ h => setPair_self _ _ h, by decide +kernel,
          ⟨by decide, by decide, by decide⟩, by decide⟩
      have htail : Stored movingListing.dev 8 deTail :=
        ⟨by decide, fun _ h => setPair_self _ _ h, by decide +kernel,
          ⟨by decide, by decide, by decide⟩, by decide⟩
      exact List.forall_mem_cons.mpr ⟨hhead.set abcHead_deTail, List.forall_mem_singleton.mpr htail⟩
    disjoint := List.pairwise_pair.mpr abcHead_deTail
    nonempty := by decide
    move := fun _ => .inl ⟨abcHead, .head _, by decide, by decide⟩ }
  metadata := rfl
  id := rfl
  pos := rfl

/-- A handle in one of the pairs. -/
def movingAt (metadata : MetadataDir) (id : Nat) (pos : BitVec 64) : Handle :=
  { movingListing.handle with metadata, id, pos }

def fileInfo (c : UInt8) : Info := { type := typeReg, name := [c] }

def dotInfo (name : List UInt8) : Info := { type := typeDir, name }

/-- The reads of `.`, `..` and `a`. -/
theorem movingListing_reads_a : movingListing.ReadsTo movingListing.handle
    [(errOk, dotInfo [46]), (errOk, dotInfo [46, 46]), (errOk, fileInfo 97)]
    (movingAt abcHead 1 3#64) := by
  have h0 : movingListing.ReadsTo movingListing.handle [(errOk, dotInfo [46])]
      (movingAt abcHead 0 1#64) := .one 9 (by decide +kernel)
  have h1 : movingListing.ReadsTo (movingAt abcHead 0 1#64) [(errOk, dotInfo [46, 46])]
      (movingAt abcHead 0 2#64) := .one 9 (by decide +kernel)
  have h2 : movingListing.ReadsTo (movingAt abcHead 0 2#64) [(errOk, fileInfo 97)]
      (movingAt abcHead 1 3#64) := .one 9 (by decide +kernel)
  exact h0.append (h1.append h2)

/-- The reads of `c` and `d` behind them. -/
theorem movingListing_reads_cd : movingListing.ReadsTo (movingAt abcHead 1 3#64)
    [(errOk, fileInfo 99), (errOk, fileInfo 100)] (movingAt deTail 1 5#64) := by
  have h3 : movingListing.ReadsTo (movingAt abcHead 1 3#64) [(errOk, fileInfo 99)]
      (movingAt abcHead 2 4#64) := .one 9 (by decide +kernel)
  have h4 : movingListing.ReadsTo (movingAt abcHead 2 4#64) [(errOk, fileInfo 100)]
      (movingAt deTail 1 5#64) := .one 9 (by decide +kernel)
  exact h3.append h4

theorem dirRawseek_undoes_moving :
    movingListing.SeekUndoesTell (0, 1) (movingAt abcHead 1 3#64) ↔ 3 < 2 ^ 64 ∧
      ∀ i, seekSkips (0, 1) (2, 3) 3 ≤ i → i < 3 - 2 + seekSkips (0, 1) (2, 3) 3 →
        ∃ info, (movingListing.ids [abcHead, deTail])[i]? = some (some info) :=
  dirRawseek_undoes_iff movingListing_opens (fun h => absurd h (by decide)) movingListing_reads_a
    (by decide)

/-- The seek comes to the end of the first pair, and `d` is read once more. -/
theorem dirRawseek_rereads :
    ¬ ∀ (s : Listing) (dirs : List MetadataDir) (root : BlockPair) (rs : List (Int × Info))
      (h : Handle), s.Opens dirs →
      (pairCmp s.handle.head root = false → ∀ dir ∈ dirs.head?, s.Superblock dir) →
      s.ReadsTo s.handle rs h → (∀ r ∈ rs, r.1 = errOk) → s.SeekUndoesTell root h := by
  intro h
  have hundoes := h movingListing [abcHead, deTail] (0, 1) _ _ movingListing_opens
    (fun h => absurd h (by decide)) (movingListing_reads_a.append movingListing_reads_cd)
    (by decide)
  have hseek : dirRawseek movingListing.dev 8 movingListing.gdisk (0, 1) 9 movingListing.handle
      (dirRawtell (movingAt deTail 1 5#64)) = some (movingAt abcHead 3 5#64, errOk) := by
    decide +kernel
  obtain ⟨-, hreads⟩ := hundoes.undoes movingListing.handle rfl 9 _ _ hseek
  have hnext : movingListing.ReadsTo (movingAt deTail 1 5#64) [(errOk, fileInfo 101)]
      (movingAt deTail 2 6#64) := .one 9 (by decide +kernel)
  have hagain : dirRawread movingListing.dev 8 16 movingListing.gdisk 9 (movingAt abcHead 3 5#64) =
      some (movingAt deTail 1 6#64, errOk, fileInfo 100) := by
    decide +kernel
  obtain ⟨h', hreads'⟩ := (hreads _).mpr ⟨_, hnext⟩
  cases hreads' with
  | cons hread hrest =>
    have hsame := dirRawread_unique (s := movingListing) hread hagain
    have hname : ([101] : List UInt8) = [100] := congrArg (fun r => r.2.2.name) hsame
    exact absurd hname (by decide)

end LittleFs
