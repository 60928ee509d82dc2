import LittleFs.DirIteration
import LittleFs.Lib.FaultyScan

/-! Reading a directory on a device that fails. Every `lfs_dir_fetch` and `lfs_dir_getinfo` of a
walk may return an error of the device; an error that is `LFS_ERR_NOENT` from a lookup reads as a
hidden entry. A walk is a scan through the ids of the pairs and the tails between them. -/

namespace LittleFs

open FaultyScan (Call Result next scan Unnoticed)

/-- A negative error code. -/
structure CallError where
  code : Int
  neg : code < 0

/-- A mounted file system whose calls fail: `fail n` is the error of the call with number `n`. -/
structure Walk where
  dev : Device
  blockCount : Nat
  nameMax : Nat
  gdisk : GState
  fail : Nat → Option CallError

/-- `lfs_dir_fetch`. -/
def Walk.fetch (w : Walk) (n : Nat) (pair : BlockPair) : Except Int MetadataDir :=
  match w.fail n with
  | some e => .error e.code
  | none =>
    match dirFetch w.dev w.blockCount w.gdisk pair with
    | none => .error errCorrupt
    | some metadata => .ok metadata

/-- `lfs_dir_getinfo`. -/
def Walk.getinfo (w : Walk) (n : Nat) (dir : MetadataDir) (id : Nat) : Except Int Info :=
  match w.fail n with
  | some e => .error e.code
  | none => dirGetinfo w.blockCount w.nameMax w.gdisk dir id

/-- The loop of `lfs_dir_rawread`, from call number `n` on. -/
def Walk.readLoop (w : Walk) : (fuel n : Nat) → Handle → Option (Nat × Handle × Int × Info)
  | 0, _, _ => none
  | fuel + 1, n, h =>
    let next : Nat × Except Int Handle :=
      if h.id = h.metadata.count then
        -- has splited next block
        if h.metadata.split = false then (n, .error errNoent)
        else
          match w.fetch n h.metadata.tail with
          | .error err => (n + 1, .error err)
          | .ok metadata => (n + 1, .ok { h with metadata, id := 0 })
      else (n, .ok h)
    match next with
    | (n, .error err) => some (n, h, err, {})
    | (n, .ok h) =>
      match w.getinfo n h.metadata h.id with
      | .ok info =>
        some (n + 1, { h with id := (h.id + 1) % 2 ^ 16, pos := h.pos + 1#64 }, errOk, info)
      | .error err =>
        if err ≠ errNoent then some (n + 1, h, err, {})
        else Walk.readLoop w fuel (n + 1) { h with id := (h.id + 1) % 2 ^ 16 }

/-- `lfs_dir_rawread`. -/
def Walk.rawread (w : Walk) (fuel n : Nat) (h : Handle) : Option (Nat × Handle × Int × Info) :=
  -- special offset for '.' and '..'
  if h.pos = 0#64 then
    some (n, { h with pos := h.pos + 1#64 }, errOk, { type := typeDir, name := [46] })
  else if h.pos = 1#64 then
    some (n, { h with pos := h.pos + 1#64 }, errOk, { type := typeDir, name := [46, 46] })
  else w.readLoop fuel n h

/-- The file system with a directory handle, without the failures. -/
def Walk.listing (w : Walk) (h : Handle) : Listing where
  dev := w.dev
  blockCount := w.blockCount
  nameMax := w.nameMax
  gdisk := w.gdisk
  handle := h

/-! ## The calls of a walk -/

/-- What a lookup of an id shows. -/
def Walk.shown (w : Walk) (dir : MetadataDir) (id : Nat) : Option Info :=
  (slotInfo w.nameMax (seen w.gdisk dir.pair (slots dir))[id]?).toOption

/-- The lookups in a pair, from an id on. -/
def Walk.lookups (w : Walk) (dir : MetadataDir) (id : Nat) : List (Call Info) :=
  ((List.range dir.count).drop id).map fun i => .item (w.shown dir i)

/-- The calls in the pairs behind. -/
def Walk.behind (w : Walk) (dirs : List MetadataDir) : List (Call Info) :=
  dirs.flatMap fun dir => .link :: w.lookups dir 0

/-- The calls of a walk from the head of the directory on. -/
def Walk.calls (w : Walk) : List MetadataDir → List (Call Info)
  | [] => []
  | dir :: dirs => w.lookups dir 0 ++ w.behind dirs

/-- Where a handle stands in the directory, with the calls ahead of it. -/
inductive Walk.Stands (w : Walk) (dirs : List MetadataDir) (h : Handle) : List (Call Info) → Prop
  | on (hdirs : dirs = before ++ dir :: after) (hmetadata : h.metadata = dir)
    (hid : h.id ≤ dir.count) : Stands w dirs h (w.lookups dir h.id ++ w.behind after)

def CallError.isNoent (e : CallError) : Bool := e.code == errNoent

theorem CallError.isNoent_iff {e : CallError} : e.isNoent = true ↔ e.code = errNoent := beq_iff_eq

/-- The search for the next entry. -/
def Walk.next (w : Walk) (n : Nat) (calls : List (Call Info)) :
    Nat × List (Call Info) × Result CallError Info :=
  FaultyScan.next CallError.isNoent w.fail n calls

/-- The end marker, in the last pair. -/
def ReachedEnd (h : Handle) (res : Int) : Prop :=
  res = errNoent ∧ h.id = h.metadata.count ∧ h.metadata.split = false

/-- What a read returns when the search ahead of the handle comes to a result. -/
inductive Walk.Reads (w : Walk) (dirs : List MetadataDir) (h : Handle) :
    Nat × List (Call Info) × Result CallError Info → Nat × Handle × Int × Info → Prop
  | found (hstands : w.Stands dirs h' ahead) (hpos : h'.pos = h.pos + 1#64)
    (hhead : h'.head = h.head) : Reads w dirs h (n, ahead, .found info) (n, h', errOk, info)
  | failed (hend : ¬ ReachedEnd h' e.code) :
    Reads w dirs h (n, ahead, .failed e) (n, h', e.code, {})
  | ended (hstands : w.Stands dirs h' []) (hpos : h'.pos = h.pos) (hhead : h'.head = h.head)
    (hend : ReachedEnd h' errNoent) : Reads w dirs h (n, [], .ended) (n, h', errNoent, {})

theorem Walk.Stands.pos {w : Walk} (H : w.Stands dirs h ahead) (pos : BitVec 64) :
    w.Stands dirs { h with pos } ahead := by
  cases H with
  | on hdirs hmetadata hid => exact .on hdirs hmetadata hid

theorem Walk.lookups_cons (w : Walk) {i : Nat} (hi : i < dir.count) :
    w.lookups dir i = .item (w.shown dir i) :: w.lookups dir (i + 1) := by
  have hlen : i < (List.range dir.count).length := by rwa [List.length_range]
  rw [lookups, List.drop_eq_getElem_cons hlen, List.map_cons, List.getElem_range]
  rfl

theorem Walk.lookups_count (w : Walk) (dir : MetadataDir) : w.lookups dir dir.count = [] := by
  rw [lookups, List.drop_eq_nil_of_le (by rw [List.length_range]), List.map_nil]

/-- A lookup that does not fail. -/
theorem Walk.dirGetinfo_shown {w : Walk} {dir : MetadataDir} (hname : w.nameMax + 1 < 2 ^ 10)
    (H : Stored w.dev w.blockCount dir) {i : Nat} (hi : i < dir.count) :
    dirGetinfo w.blockCount w.nameMax w.gdisk dir i =
      match w.shown dir i with
      | some info => .ok info
      | none => .error errNoent := by
  rw [dirGetinfo_seen hname H.whole.log H.range.1 hi, shown]
  generalize (seen w.gdisk dir.pair (slots dir))[i]? = slot
  rcases slot with _ | ⟨_ | name, _ | struct⟩ <;> rfl

/-! ## A read is the search for the next entry -/

theorem Walk.Reads.congr {w : Walk} (H : w.Reads dirs h a r) (hpos : h.pos = g.pos)
    (hhead : h.head = g.head) : w.Reads dirs g a r := by
  cases H with
  | found hstands hpos' hhead' => exact .found hstands (hpos ▸ hpos') (hhead ▸ hhead')
  | failed hend => exact .failed hend
  | ended hstands hpos' hhead' hend => exact .ended hstands (hpos ▸ hpos') (hhead ▸ hhead') hend

theorem not_reachedEnd_of_code (h : Handle) (hcode : code ≠ errNoent) : ¬ ReachedEnd h code :=
  fun hend => hcode hend.1

/-- **The loop** is the search for the next entry. -/
theorem Walk.readLoop_eq {w : Walk} (H : (w.listing h₀).Directory dirs)
    (hstands : w.Stands dirs h ahead) (hfuel : ahead.length < fuel) (n : Nat) :
    ∃ r, w.readLoop fuel n h = some r ∧ w.Reads dirs h (w.next n ahead) r := by
  induction fuel generalizing n h ahead with
  | zero => cases hfuel
  | succ fuel ih =>
    have hlookup : ∀ (before after : List MetadataDir) {g : Handle} (n : Nat),
        dirs = before ++ g.metadata :: after → g.id < g.metadata.count →
        (w.lookups g.metadata g.id ++ w.behind after).length ≤ fuel →
        ∃ r, w.readLoop (fuel + 1) n g = some r ∧
          w.Reads dirs g (w.next n (w.lookups g.metadata g.id ++ w.behind after)) r := by
      intro before after g n hdirs hlt hle
      have hstored := H.stored g.metadata (by simp [hdirs])
      have hcount := logCount_lt hstored.whole.log.count_eq
      have hmod : (g.id + 1) % 2 ^ 16 = g.id + 1 := Nat.mod_eq_of_lt (by omega)
      have hname : w.nameMax + 1 < 0x3ff := H.nameMax
      rw [w.lookups_cons hlt, List.cons_append, List.length_cons] at hle
      have hskip : ∃ r, w.readLoop fuel (n + 1) { g with id := g.id + 1 } = some r ∧
          w.Reads dirs g (w.next (n + 1)
            (w.lookups g.metadata (g.id + 1) ++ w.behind after)) r := by
        obtain ⟨r, hread, hr⟩ := ih (h := { g with id := g.id + 1 }) (.on hdirs rfl hlt)
          (Nat.lt_of_succ_le hle) (n + 1)
        exact ⟨r, hread, hr.congr rfl rfl⟩
      rw [readLoop, if_neg hlt.ne, w.lookups_cons hlt, List.cons_append, next]
      dsimp only
      rw [hmod, getinfo]
      cases hfail : w.fail n with
      | some e =>
        dsimp only
        have houtcome : (Call.item (w.shown g.metadata g.id)).outcome CallError.isNoent (some e) =
            if e.isNoent then .pass else .failed e := Call.outcome_item_some ..
        rw [← hfail] at houtcome
        by_cases hcode : e.code = errNoent
        · rw [if_pos (CallError.isNoent_iff.mpr hcode)] at houtcome
          rw [if_neg (not_not.mpr hcode), FaultyScan.next_of_pass houtcome]
          exact hskip
        · rw [if_neg (mt CallError.isNoent_iff.mp hcode)] at houtcome
          rw [if_pos hcode, FaultyScan.next_of_failed houtcome]
          exact ⟨_, rfl, .failed (not_reachedEnd_of_code g hcode)⟩
      | none =>
        dsimp only
        rw [w.dirGetinfo_shown (by omega) hstored hlt]
        cases hshown : w.shown g.metadata g.id with
        | none =>
          dsimp only
          rw [if_neg (not_not.mpr rfl), FaultyScan.next_of_pass (by rw [hfail]; rfl)]
          exact hskip
        | some info =>
          rw [FaultyScan.next_of_found (by rw [hfail]; rfl)]
          exact ⟨_, rfl, .found (.on hdirs rfl hlt) rfl rfl⟩
    obtain @⟨before, dir, after, hdirs, rfl, hid⟩ := hstands
    by_cases hend : h.id = h.metadata.count
    · have hcalls : w.lookups h.metadata h.id = [] := by rw [hend, lookups_count]
      rw [hcalls, List.nil_append] at hfuel ⊢
      rcases (hdirs ▸ H.linked).tail with ⟨rfl, hlast⟩ | ⟨next, after, rfl, hsplit, htail⟩
      · rw [readLoop, if_pos hend, if_pos hlast]
        have hstands : w.Stands dirs h (w.lookups h.metadata h.id ++ w.behind []) :=
          .on hdirs rfl hid
        rw [hcalls] at hstands
        exact ⟨_, rfl, .ended hstands rfl rfl ⟨rfl, hend, hlast⟩⟩
      · have hpos := H.nonempty next (by rw [hdirs]; cases before <;> simp)
        have hahead : w.behind (next :: after) =
            .link :: (w.lookups next 0 ++ w.behind after) := rfl
        rw [hahead, List.length_cons] at hfuel
        rw [hahead, Walk.next]
        cases hfail : w.fail n with
        | some e =>
          rw [FaultyScan.next_of_failed (by rw [hfail]; rfl), readLoop, if_pos hend,
            if_neg (by rw [hsplit]; decide), fetch, hfail]
          refine ⟨_, rfl, .failed fun h => ?_⟩
          cases hsplit.symm.trans h.2.2
        | none =>
          have hfetch : dirFetch w.dev w.blockCount w.gdisk h.metadata.tail = some next :=
            (H.stored next (by simp [hdirs])).fetch htail _
          have hcross : w.readLoop (fuel + 1) n h =
              w.readLoop (fuel + 1) (n + 1) { h with metadata := next, id := 0 } := by
            rw [readLoop, if_pos hend, if_neg (by rw [hsplit]; decide), fetch, hfail,
              hfetch, readLoop, if_neg hpos.ne]
          rw [FaultyScan.next_of_pass (by rw [hfail]; rfl), hcross]
          obtain ⟨r, hread, hr⟩ := hlookup (before ++ [h.metadata]) after
            (g := { h with metadata := next, id := 0 }) (n + 1) (by simp [hdirs]) hpos
            (Nat.le_of_succ_le (Nat.le_of_lt_succ hfuel))
          exact ⟨r, hread, hr.congr rfl rfl⟩
    · exact hlookup before after n hdirs (by omega) (by omega)

theorem Walk.next_of_no_failure {w : Walk} (hfail : ∀ n, w.fail n = none) (n : Nat)
    (calls : List (Call Info)) :
    (∃ n' calls' info, w.next n calls = (n', calls', .found info) ∧
      calls.filterMap Call.shown = info :: calls'.filterMap Call.shown) ∨
    ∃ n', w.next n calls = (n', [], .ended) ∧ calls.filterMap Call.shown = [] :=
  FaultyScan.next_of_no_failure hfail n calls

/-- Without failures a walk is what `dirReadLoop` says. -/
theorem Walk.readLoop_of_no_failure {w : Walk} (hfail : ∀ n, w.fail n = none) (fuel n : Nat)
    (h : Handle) : (w.readLoop fuel n h).map Prod.snd =
      dirReadLoop w.dev w.blockCount w.nameMax w.gdisk fuel h := by
  induction fuel generalizing n h with
  | zero => rfl
  | succ fuel ih =>
    rw [Walk.readLoop, dirReadLoop]
    simp only [fetch, getinfo, hfail]
    by_cases hend : h.id = h.metadata.count
    · rw [if_pos hend, if_pos hend]
      by_cases hsplit : h.metadata.split = false
      · rw [if_pos hsplit, if_pos hsplit]
        rfl
      · rw [if_neg hsplit, if_neg hsplit]
        cases dirFetch w.dev w.blockCount w.gdisk h.metadata.tail with
        | none => rfl
        | some metadata =>
          dsimp only
          cases dirGetinfo w.blockCount w.nameMax w.gdisk metadata 0 with
          | ok info => rfl
          | error err =>
            by_cases herr : err = errNoent
            · simpa [herr] using ih (n + 1 + 1) { h with metadata, id := 1 }
            · simp [herr]
    · rw [if_neg hend, if_neg hend]
      dsimp only
      cases dirGetinfo w.blockCount w.nameMax w.gdisk h.metadata h.id with
      | ok info => rfl
      | error err =>
        by_cases herr : err = errNoent
        · simpa [herr] using ih (n + 1) { h with id := (h.id + 1) % 2 ^ 16 }
        · simp [herr]

theorem Walk.rawread_of_no_failure {w : Walk} (hfail : ∀ n, w.fail n = none) (fuel n : Nat)
    (h : Handle) : (w.rawread fuel n h).map Prod.snd =
      dirRawread w.dev w.blockCount w.nameMax w.gdisk fuel h := by
  rw [rawread, dirRawread, ← readLoop_of_no_failure hfail fuel n h]
  by_cases h0 : h.pos = 0#64
  · rw [if_pos h0, if_pos h0]
    rfl
  · rw [if_neg h0, if_neg h0]
    by_cases h1 : h.pos = 1#64
    · rw [if_pos h1, if_pos h1]
      rfl
    · rw [if_neg h1, if_neg h1]

end LittleFs
