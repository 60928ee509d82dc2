import LittleFs.DirRead

/-! Iterating over a directory while files are created and removed in it. Every commit moves the id
of an open directory handle along with the entries of its pair, so what lies ahead of the handle
stays the same up to the entry that comes or goes, except where the entry under the handle itself
is deleted: then the handle loses its pair. -/

namespace LittleFs

/-! ## A directory that is being read -/

/-- A mounted file system with an open directory handle. `returned` and `removed` are the names that
reads have returned and those of the removed files. -/
structure Listing where
  dev : Device
  blockCount : Nat
  nameMax : Nat
  gdisk : GState
  handle : Handle
  returned : List (List UInt8) := []
  removed : List (List UInt8) := []

/-- The names under the ids of a pair. -/
def entryNames (nameMax : Nat) (dir : MetadataDir) : List (Option (List UInt8)) :=
  (slots dir).map fun slot => slot.1.map (nameOf nameMax)

/-- The names that reads of the ids from `id` on return. -/
def namesFrom (nameMax : Nat) (gdisk : GState) (dir : MetadataDir) (id : Nat) :
    List (List UInt8) :=
  ((seen gdisk dir.pair (entryNames nameMax dir)).drop id).reduceOption

/-- A read of the directory. -/
def Listing.read (s : Listing) (fuel : Nat) : Option (Handle × Int × Info) :=
  dirRawread s.dev s.blockCount s.nameMax s.gdisk fuel s.handle

/-- The pairs of the directory. -/
inductive Listing.InDirectory (s : Listing) : MetadataDir → Prop where
  | head (h : dirFetch s.dev s.blockCount s.gdisk s.handle.head = some dir) : s.InDirectory dir
  | tail (h : s.InDirectory dir) (hsplit : dir.split = true)
    (hnext : dirFetch s.dev s.blockCount s.gdisk dir.tail = some next) : s.InDirectory next

/-- The names in a pair. -/
def Listing.names (s : Listing) (dir : MetadataDir) : List (List UInt8) :=
  namesFrom s.nameMax s.gdisk dir 0

/-- `lfs_dir_commit` into `dir` in the append branch, with the fixup of the handle behind it. -/
def Listing.append (s : Listing) (dir : MetadataDir) (attrs : List Attr) (extra : List LogEntry)
    (gdisk : GState) : Option Listing :=
  (appendAttrs dir attrs extra).map fun dir' =>
    { s with
      dev := setPair s.dev dir'
      gdisk
      handle := (fixHandle (setPair s.dev dir') s.blockCount gdisk none dir.pair dir' attrs
        s.handle).1 }

/-- A deletion from the pair is appended: the pair is not dropped. -/
def Listing.Keeps (s : Listing) (dir : MetadataDir) : Prop :=
  dir.count ≠ 1 ∨ ∀ pred, s.InDirectory pred → pred.split = true →
    pairSync pred.tail dir.pair = false

inductive Listing.Event where
  | read
  | create (dir : MetadataDir) (id : Nat) (name : List UInt8)
  | remove (dir : MetadataDir) (id : Nat)
  /-- `lfs_fs_demove`, which comes before a creation or removal while a move is pending. -/
  | repair (dir : MetadataDir)

/-- What a read has returned besides the special offsets for `.` and `..`. -/
def Listing.returns (s : Listing) (err : Int) (info : Info) : List (List UInt8) :=
  if err = errOk ∧ s.handle.pos ≠ 0#64 ∧ s.handle.pos ≠ 1#64 then s.returned ++ [info.name]
  else s.returned

inductive Listing.Step : Listing → Listing.Event → Listing → Prop where
  | read (h : s.read fuel = some (h', err, info)) :
    Step s .read { s with handle := h', returned := s.returns err info }
  | create {id : Nat} (hdir : s.InDirectory dir) (hid : id ≤ dir.count)
    (hname : name.length ≤ s.nameMax ∧ 0 ∉ name)
    (hfresh : ∀ d, s.InDirectory d → name ∉ s.names d)
    (hextra : ∀ e ∈ extra, LogEntry.Neutral e)
    (h : s.append dir (createAttrs id name) extra s.gdisk = some s') :
    Step s (.create dir id name) s'
  | remove {id : Nat} (hdir : s.InDirectory dir)
    (hid : (entryNames s.nameMax dir)[id]? = some (some name)) (hkeep : s.Keeps dir)
    (hextra : ∀ e ∈ extra, LogEntry.Neutral e)
    (h : s.append dir (deleteAttrs id) extra s.gdisk = some s') :
    Step s (.remove dir id) { s' with removed := s.removed ++ [name] }
  | repair (hmove : gstateHasmove s.gdisk = true)
    (hdir : dirFetch s.dev s.blockCount s.gdisk s.gdisk.pair = some dir) (hkeep : s.Keeps dir)
    (hextra : ∀ e ∈ extra, LogEntry.Neutral e)
    (h : s.append dir (deleteAttrs (tagId s.gdisk.tag)) extra
      (fsPrepmove s.gdisk 0x3ff#16 (0, 0)) = some s') :
    Step s (.repair dir) s'

/-- The deletion of entry `id` does not take the entry under the handle. -/
def Listing.Spares (s : Listing) (dir : MetadataDir) (id : Nat) : Prop :=
  SharesBlock s.handle.metadata.pair dir.pair → s.handle.id = id → id + 1 = dir.count

/-- What the steps of a stable iteration meet. -/
def Listing.Safe (s : Listing) : Listing.Event → Prop
  | .read => True
  | .create dir _ _ => gstateHasmove s.gdisk = false ∧ dir.count + 1 < 0x3ff
  | .remove dir id => gstateHasmove s.gdisk = false ∧ s.Spares dir id
  -- no orphan, and a handle behind the hidden entry has already read everything
  | .repair dir => tagIsValid s.gdisk.tag = true ∧ s.Spares dir (tagId s.gdisk.tag) ∧
      (SharesBlock s.handle.metadata.pair dir.pair → tagId s.gdisk.tag < s.handle.id →
        s.handle.id = dir.count)

/-! ## Directories as lists of pairs -/

/-- Each pair but the last one continues in the next. -/
def Linked : List MetadataDir → Prop
  | [] => False
  | [dir] => dir.split = false
  | dir :: next :: dirs => dir.split = true ∧ pairSync dir.tail next.pair = true ∧
      Linked (next :: dirs)

/-- A fetch of the pair reads the directory. -/
structure Stored (dev : Device) (blockCount : Nat) (dir : MetadataDir) : Prop where
  range : dir.pair.1 < blockCount ∧ dir.pair.2 < blockCount
  read : ∀ pair, pairSync pair dir.pair = true → dev pair = some (dir.pair, dir.log)
  whole : WholeDir dir

/-- The directory consists of the pairs `dirs`. -/
structure Listing.Directory (s : Listing) (dirs : List MetadataDir) : Prop where
  nameMax : s.nameMax + 1 < 0x3ff
  device : ReadsPair s.dev
  blockCount : s.blockCount ≤ blockNull
  linked : Linked dirs
  head : ∀ dir ∈ dirs.head?, pairSync s.handle.head dir.pair = true
  stored : ∀ dir ∈ dirs, Stored s.dev s.blockCount dir
  disjoint : dirs.Pairwise fun a b => ¬ SharesBlock a.pair b.pair
  nonempty : ∀ dir ∈ dirs.tail, 0 < dir.count
  move : gstateHasmove s.gdisk = true →
    (∃ dir ∈ dirs, pairSync s.gdisk.pair dir.pair = true ∧ tagId s.gdisk.tag < dir.count) ∨
    ∀ dir ∈ dirs, ¬ SharesBlock s.gdisk.pair dir.pair

/-- Where the handle stands, and the names ahead of it. -/
inductive Listing.At (nameMax : Nat) (gdisk : GState) (dirs : List MetadataDir) (h : Handle) :
    List (List UInt8) → Prop where
  | on (hdirs : dirs = before ++ dir :: after) (hmetadata : h.metadata = dir)
    (hid : h.id ≤ dir.count) :
    At nameMax gdisk dirs h (namesFrom nameMax gdisk dir h.id ++
      after.flatMap fun dir => namesFrom nameMax gdisk dir 0)
  /-- The handle has lost its pair, behind the last entry. -/
  | ended (hpair : h.metadata.pair = pairNull) (hid : h.id = h.metadata.count)
    (hsplit : h.metadata.split = false) : At nameMax gdisk dirs h []

/-- A directory handle behind `lfs_dir_rawopen`. -/
structure Listing.Opened (s : Listing) (dirs : List MetadataDir) : Prop where
  directory : s.Directory dirs
  metadata : s.handle.metadata ∈ dirs.head?
  id : s.handle.id = 0
  pos : s.handle.pos = 0#64
  unique : (dirs.flatMap s.names).Nodup
  returned : s.returned = []
  removed : s.removed = []

/-! ## Pairs of a directory -/

theorem Stored.fetch (H : Stored dev blockCount dir) (h : pairSync pair dir.pair = true)
    (gdisk : GState) : dirFetch dev blockCount gdisk pair = some dir := by
  have hrange := H.range
  have hin : ¬ (pair.1 ≥ blockCount ∨ pair.2 ≥ blockCount) := by
    rcases pairSync_cases h with rfl | rfl
    · omega
    · simp only [Prod.fst_swap, Prod.snd_swap]
      omega
  rw [dirFetch_eq, if_neg hin, H.read pair h, Option.map_some, H.whole.fetched]

theorem setPair_self (dev : Device) (dir : MetadataDir) (h : pairSync pair dir.pair = true) :
    setPair dev dir pair = some (dir.pair, dir.log) := if_pos h

theorem Stored.set (H : Stored dev blockCount dir) (hne : ¬ SharesBlock dir.pair other.pair) :
    Stored (setPair dev other) blockCount dir := by
  refine ⟨H.range, fun pair h => ?_, H.whole⟩
  rw [setPair, if_neg, H.read pair h]
  intro hother
  have hshare := sharesBlock_of_pairSync hother
  rw [sharesBlock_sync_left h] at hshare
  exact hne hshare

theorem Linked.replace (H : Linked (before ++ dir :: after)) (hpair : dir'.pair = dir.pair)
    (hsplit : dir'.split = dir.split) (htail : dir'.tail = dir.tail) :
    Linked (before ++ dir' :: after) := by
  induction before with
  | nil =>
    cases after with
    | nil => exact hsplit.trans H
    | cons next after =>
      obtain ⟨h1, h2, h3⟩ := H
      exact ⟨hsplit.trans h1, htail ▸ h2, h3⟩
  | cons first before ih =>
    cases before with
    | nil =>
      obtain ⟨h1, h2, h3⟩ := H
      exact ⟨h1, hpair ▸ h2, ih h3⟩
    | cons second before =>
      obtain ⟨h1, h2, h3⟩ := H
      exact ⟨h1, h2, ih h3⟩

/-- What the tail of a pair says. -/
theorem Linked.tail (H : Linked (before ++ dir :: after)) :
    after = [] ∧ dir.split = false ∨
      ∃ next after', after = next :: after' ∧ dir.split = true ∧
        pairSync dir.tail next.pair = true := by
  induction before with
  | nil =>
    cases after with
    | nil => exact .inl ⟨rfl, H⟩
    | cons next after => exact .inr ⟨next, after, rfl, H.1, H.2.1⟩
  | cons first before ih =>
    cases before with
    | nil => exact ih H.2.2
    | cons second before => exact ih H.2.2

theorem Listing.Directory.inDirectory {s : Listing} {dirs : List MetadataDir}
    (H : s.Directory dirs) : s.InDirectory dir ↔ dir ∈ dirs := by
  constructor
  · intro h
    induction h with
    | @head dir h =>
      cases dirs with
      | nil => exact absurd H.linked id
      | cons first dirs =>
        rw [(H.stored first (.head _)).fetch (H.head first rfl)] at h
        cases h
        exact .head _
    | @tail dir next _ hsplit hnext ih =>
      obtain ⟨before, after, rfl⟩ := List.append_of_mem ih
      rcases H.linked.tail with ⟨_, hlast⟩ | ⟨e, after', rfl, _, htail⟩
      · cases hsplit.symm.trans hlast
      · rw [(H.stored e (by simp)).fetch htail] at hnext
        cases hnext
        simp
  · intro h
    obtain ⟨before, after, rfl⟩ := List.append_of_mem h
    clear h
    induction before using List.reverseRecOn generalizing dir after with
    | nil => exact .head ((H.stored dir (by simp)).fetch (H.head dir rfl) _)
    | append_singleton before pred ih =>
      rw [List.append_assoc, List.singleton_append] at H
      rcases H.linked.tail with ⟨h, _⟩ | ⟨_, _, h, hsplit, htail⟩
      · cases h
      · cases h
        exact .tail (ih _ H) hsplit ((H.stored dir (by simp)).fetch htail _)

/-! ## Reading -/

theorem seen_map (gdisk : GState) (pair : BlockPair) (f : α → β) (l : List α) :
    seen gdisk pair (l.map f) = (seen gdisk pair l).map f := by
  rw [seen, seen]
  split
  · rw [List.eraseIdx_map]
  · rfl

theorem mem_of_mem_seen (h : a ∈ seen gdisk pair l) : a ∈ l := by
  rw [seen] at h
  split at h
  · exact List.mem_of_mem_eraseIdx h
  · exact h

theorem length_seen_le (gdisk : GState) (pair : BlockPair) (l : List α) :
    (seen gdisk pair l).length ≤ l.length := by
  rw [seen]
  split
  · exact List.length_eraseIdx_le l _
  · exact le_rfl

theorem namesFrom_eq_nil {id : Nat} (nameMax : Nat) (gdisk : GState) (h : dir.count ≤ id) :
    namesFrom nameMax gdisk dir id = [] := by
  have hle := length_seen_le gdisk dir.pair (entryNames nameMax dir)
  rw [entryNames, List.length_map, length_slots] at hle
  rw [namesFrom, entryNames, List.drop_eq_nil_of_le (hle.trans h)]
  rfl

/-- One lookup: it returns the next name, or there is none under this id. -/
theorem Stored.lookup (H : Stored dev blockCount dir) (gdisk : GState)
    (hname : nameMax + 1 < 2 ^ 10)
    (hi : i < dir.count) :
    (∃ info, dirGetinfo blockCount nameMax gdisk dir i = .ok info ∧
      namesFrom nameMax gdisk dir i = info.name :: namesFrom nameMax gdisk dir (i + 1)) ∨
    dirGetinfo blockCount nameMax gdisk dir i = .error errNoent ∧
      namesFrom nameMax gdisk dir i = namesFrom nameMax gdisk dir (i + 1) := by
  rw [dirGetinfo_seen hname H.whole.log H.range.1 hi]
  simp only [namesFrom, entryNames, seen_map]
  by_cases hlt : i < (seen gdisk dir.pair (slots dir)).length
  · have hstruct := H.whole.structs _ (mem_of_mem_seen (List.getElem_mem hlt))
    rw [List.getElem?_eq_getElem hlt, List.drop_eq_getElem_cons (by rwa [List.length_map]),
      List.getElem_map]
    cases hslot : (seen gdisk dir.pair (slots dir))[i] with
    | mk name struct =>
      rw [hslot] at hstruct
      cases name with
      | none => exact .inr ⟨rfl, rfl⟩
      | some name =>
        cases struct with
        | none => cases hstruct rfl
        | some struct => exact .inl ⟨_, rfl, rfl⟩
  · have hle := Nat.le_of_not_lt hlt
    rw [List.getElem?_eq_none hle, List.drop_eq_nil_of_le (by rwa [List.length_map]),
      List.drop_eq_nil_of_le (by rw [List.length_map]; omega)]
    exact .inr ⟨rfl, rfl⟩

/-- The number of rounds of the loop before the end of the directory. -/
def roundsLeft (id : Nat) (dir : MetadataDir) (after : List MetadataDir) : Nat :=
  dir.count - id + (after.map fun dir => dir.count).sum + after.length

/-- What a read does with the names ahead of the handle. -/
def Listing.Takes (nameMax : Nat) (gdisk : GState) (dirs : List MetadataDir)
    (rest : List (List UInt8)) (h h' : Handle) (err : Int) (info : Info) : Prop :=
  h'.head = h.head ∧
  (err = errNoent ∧ rest = [] ∧ Listing.At nameMax gdisk dirs h' [] ∨
   err = errOk ∧ ∃ rest', rest = info.name :: rest' ∧ Listing.At nameMax gdisk dirs h' rest')

/-- **The loop** returns the next name, or there is none ahead. -/
theorem Listing.Directory.loop {s : Listing} (H : s.Directory (before ++ dir :: after))
    (hmetadata : h.metadata = dir) (hid : h.id ≤ dir.count)
    (hfuel : roundsLeft h.id dir after < fuel) :
    ∃ h' err info, dirReadLoop s.dev s.blockCount s.nameMax s.gdisk fuel h = some (h', err, info) ∧
      Takes s.nameMax s.gdisk (before ++ dir :: after) (namesFrom s.nameMax s.gdisk dir h.id ++
        after.flatMap fun dir => namesFrom s.nameMax s.gdisk dir 0) h h' err info := by
  induction fuel generalizing before dir after h with
  | zero => cases hfuel
  | succ fuel ih =>
    have hlookup : ∀ {before dir after} {g : Handle}, s.Directory (before ++ dir :: after) →
        g.metadata = dir → g.id < dir.count → roundsLeft g.id dir after ≤ fuel →
        ∃ h' err info,
          dirReadLoop s.dev s.blockCount s.nameMax s.gdisk (fuel + 1) g = some (h', err, info) ∧
          Takes s.nameMax s.gdisk (before ++ dir :: after) (namesFrom s.nameMax s.gdisk dir g.id ++
            after.flatMap fun dir => namesFrom s.nameMax s.gdisk dir 0) g h' err info := by
      rintro before dir after g H rfl hlt hle
      have hstored := H.stored g.metadata (by simp)
      have hcount := logCount_lt hstored.whole.log.count_eq
      have hmod : (g.id + 1) % 2 ^ 16 = g.id + 1 := Nat.mod_eq_of_lt (by omega)
      have hname := H.nameMax
      rw [dirReadLoop, if_neg hlt.ne]
      dsimp only
      rw [hmod]
      rcases hstored.lookup s.gdisk (show s.nameMax + 1 < 2 ^ 10 by omega) hlt with
        ⟨info, hinfo, hnames⟩ | ⟨hnone, hnames⟩
      · rw [hinfo, hnames]
        exact ⟨_, _, _, rfl, rfl, .inr ⟨rfl, _, rfl, .on rfl rfl hlt⟩⟩
      · rw [hnone, hnames]
        simp only [ne_eq, not_true_eq_false, ↓reduceIte]
        refine ih (h := { g with id := g.id + 1 }) H rfl hlt ?_
        simp only [roundsLeft] at hle ⊢
        omega
    subst hmetadata
    by_cases hend : h.id = h.metadata.count
    · rcases H.linked.tail with ⟨rfl, hlast⟩ | ⟨next, after, rfl, hsplit, htail⟩
      · rw [dirReadLoop, if_pos hend, if_pos hlast]
        have hnil := namesFrom_eq_nil s.nameMax s.gdisk hend.ge
        refine ⟨_, _, _, rfl, rfl, .inl ⟨rfl, by rw [hnil]; rfl, ?_⟩⟩
        have hat : At s.nameMax s.gdisk (before ++ [h.metadata]) h
            (namesFrom s.nameMax s.gdisk h.metadata h.id ++ []) := .on rfl rfl hid
        rwa [hnil] at hat
      · have hnext : s.Directory ((before ++ [h.metadata]) ++ next :: after) := by
          rwa [List.append_assoc]
        have hpos := H.nonempty next (by cases before <;> simp)
        have hcross : dirReadLoop s.dev s.blockCount s.nameMax s.gdisk (fuel + 1) h =
            dirReadLoop s.dev s.blockCount s.nameMax s.gdisk (fuel + 1)
              { h with metadata := next, id := 0 } := by
          rw [dirReadLoop, if_pos hend, if_neg (by rw [hsplit]; decide),
            (H.stored next (by simp)).fetch htail, dirReadLoop, if_neg hpos.ne]
        rw [hcross]
        obtain ⟨h', err, info, hread, htakes⟩ := hlookup (g := { h with metadata := next, id := 0 })
          hnext rfl hpos (by
            simp only [roundsLeft, List.map_cons, List.sum_cons, List.length_cons] at hfuel ⊢
            omega)
        refine ⟨h', err, info, hread, ?_⟩
        rw [namesFrom_eq_nil s.nameMax s.gdisk hend.ge, List.nil_append, List.flatMap_cons]
        rwa [List.append_assoc] at htakes
    · exact hlookup H rfl (by omega) (by omega)

/-! ## The handle behind a commit -/

theorem fixAttr_head (h : Handle) (a : Attr) : (fixAttr h a).head = h.head := by
  unfold fixAttr
  split_ifs <;> rfl

theorem foldl_fixAttr_head (attrs : List Attr) (h : Handle) :
    (attrs.foldl fixAttr h).head = h.head := by
  induction attrs generalizing h with
  | nil => rfl
  | cons a attrs ih => exact (ih (fixAttr h a)).trans (fixAttr_head h a)

theorem followSplit_head (dev : Device) (blockCount : Nat) (gdisk : GState) (fuel : Nat)
    (h : Handle) : (followSplit dev blockCount gdisk fuel h).1.head = h.head := by
  induction fuel generalizing h with
  | zero =>
    rw [followSplit]
    split <;> rfl
  | succ fuel ih =>
    rw [followSplit]
    split
    · dsimp only
      split
      · rfl
      · exact ih _
    · rfl

theorem fixHandle_head (dev : Device) (blockCount : Nat) (gdisk : GState) (owner : Option Nat)
    (pair : BlockPair) (dir : MetadataDir) (attrs : List Attr) (h : Handle) :
    (fixHandle dev blockCount gdisk owner pair dir attrs h).1.head = h.head := by
  rw [fixHandle]
  split
  · rw [followSplit_head]
    split
    · rfl
    · rw [foldl_fixAttr_head]
  · rfl

theorem fixAttr_other {h : Handle} {a : Attr} (hc : tagType3 a.tag ≠ typeCreate)
    (hd : tagType3 a.tag ≠ typeDelete) : fixAttr h a = h := by
  rw [fixAttr, if_neg fun h => hd h.1, if_neg fun h => hd h.1, if_neg fun h => hc h.1]

/-- The handle on a pair that a commit has changed, before the loop that follows the tail. -/
structure Fixed (dir' : MetadataDir) (g : Handle) : Prop where
  metadata : g.metadata = dir' ∨
    g.metadata = { dir' with pair := pairNull } ∧ g.id = dir'.count
  id : g.id ≤ dir'.count

section
variable {id : Nat} {name : List UInt8} {dir dir' : MetadataDir}

theorem fixed_create {h : Handle} (hi : id < 2 ^ 10) (hname : name.length < 2 ^ 10)
    (hid : h.id ≤ dir.count) (hcount : dir'.count = dir.count + 1) :
    Fixed dir' ((createAttrs id name).foldl fixAttr { h with metadata := dir' }) ∧
      ((createAttrs id name).foldl fixAttr { h with metadata := dir' }).id =
        if id ≤ h.id then h.id + 1 else h.id := by
  have hc := tagType3_mkTag (show typeCreate < 2 ^ 11 by decide) hi (show 0 < 2 ^ 10 by decide)
  have hr := tagType3_mkTag (show typeReg < 2 ^ 11 by decide) hi hname
  have hs := tagType3_mkTag (show typeInlinestruct < 2 ^ 11 by decide) hi
    (show 0 < 2 ^ 10 by decide)
  have hid' := (mkTag_fields (show typeCreate < 2 ^ 11 by decide) hi
    (show 0 < 2 ^ 10 by decide)).2.1
  simp only [createAttrs, List.foldl_cons, List.foldl_nil]
  rw [fixAttr_other (a := ⟨mkTag typeInlinestruct id 0, .null⟩) (by rw [hs]; decide)
      (by rw [hs]; decide),
    fixAttr_other (a := ⟨mkTag typeReg id name.length, .data name⟩) (by rw [hr]; decide)
      (by rw [hr]; decide), fixAttr]
  simp only [hc, hid', show typeCreate ≠ typeDelete by decide, false_and, ↓reduceIte, true_and,
    ge_iff_le]
  split
  · exact ⟨⟨.inl rfl, by simp only; omega⟩, rfl⟩
  · exact ⟨⟨.inl rfl, by simp only; omega⟩, rfl⟩

theorem fixed_delete {h : Handle} (hi : id < dir.count) (hlt : dir.count < 2 ^ 10)
    (hspares : h.id = id → id + 1 = dir.count) (hid : h.id ≤ dir.count)
    (hcount : dir'.count = dir.count - 1) :
    Fixed dir' ((deleteAttrs id).foldl fixAttr { h with metadata := dir' }) ∧
      ((deleteAttrs id).foldl fixAttr { h with metadata := dir' }).id =
        if id < h.id then h.id - 1 else h.id := by
  have hd := tagType3_mkTag (show typeDelete < 2 ^ 11 by decide) (show id < 2 ^ 10 by omega)
    (show 0 < 2 ^ 10 by decide)
  have hid' := (mkTag_fields (show typeDelete < 2 ^ 11 by decide) (show id < 2 ^ 10 by omega)
    (show 0 < 2 ^ 10 by decide)).2.1
  simp only [deleteAttrs, List.foldl_cons, List.foldl_nil]
  rw [fixAttr]
  simp only [hd, hid', show typeDelete ≠ typeCreate by decide, false_and, ↓reduceIte, true_and,
    gt_iff_lt]
  rcases Nat.lt_trichotomy h.id id with hlt | heq | hgt
  · simp only [hlt.ne, hlt.not_gt, ↓reduceIte]
    exact ⟨⟨.inl rfl, by simp only; omega⟩, trivial⟩
  · have := hspares heq
    rw [if_pos heq, if_neg heq.not_gt]
    exact ⟨⟨.inr ⟨rfl, by simp only; omega⟩, by simp only; omega⟩, rfl⟩
  · simp only [hgt.ne', hgt, ↓reduceIte]
    exact ⟨⟨.inl rfl, by simp only; omega⟩, trivial⟩

end

/-- Following the tail loses no name. -/
theorem Listing.Directory.follow {s : Listing} {g : Handle}
    (H : s.Directory (before ++ dir :: after)) (hg : Fixed dir g) :
    At s.nameMax s.gdisk (before ++ dir :: after)
      (followSplit s.dev s.blockCount s.gdisk s.blockCount g).1
      (namesFrom s.nameMax s.gdisk dir g.id ++
        after.flatMap fun dir => namesFrom s.nameMax s.gdisk dir 0) := by
  have hfields : g.metadata.count = dir.count ∧ g.metadata.split = dir.split ∧
      g.metadata.tail = dir.tail := by
    rcases hg.metadata with h | ⟨h, _⟩ <;> rw [h] <;> exact ⟨rfl, rfl, rfl⟩
  obtain ⟨hcount, hsplit, htail⟩ := hfields
  by_cases hmoves : g.id ≥ g.metadata.count ∧ g.metadata.split = true
  · have hid : g.id = dir.count := le_antisymm hg.id (hcount ▸ hmoves.1)
    obtain ⟨fuel, hfuel⟩ := Nat.exists_eq_add_one.mpr
      (Nat.zero_lt_of_lt (H.stored dir (by simp)).range.1)
    rcases H.linked.tail with ⟨_, hlast⟩ | ⟨next, after, rfl, _, hnext⟩
    · rw [hsplit, hlast] at hmoves
      cases hmoves.2
    · have hpos := H.nonempty next (by cases before <;> simp)
      rw [hfuel, followSplit, if_pos hmoves]
      simp only [htail, ← hfuel, (H.stored next (by simp)).fetch hnext]
      rw [followSplit_stays _ (by simp only; omega), namesFrom_eq_nil _ _ hid.ge, List.nil_append,
        List.flatMap_cons, hcount, hid, Nat.sub_self, List.append_cons]
      exact .on rfl rfl (Nat.zero_le _)
  · rw [followSplit_stays _ hmoves]
    rcases hg.metadata with h | ⟨h, hid⟩
    · exact .on rfl h hg.id
    · have hlast : dir.split = false := by
        rw [hcount, hsplit] at hmoves
        simpa [hid] using hmoves
      rcases H.linked.tail with ⟨rfl, _⟩ | ⟨_, _, _, hcont, _⟩
      · rw [namesFrom_eq_nil _ _ hid.ge]
        exact .ended (by rw [h]) (hid.trans hcount.symm) (hsplit.trans hlast)
      · cases hlast.symm.trans hcont

/-! ## The directory behind a commit -/

theorem setPair_readsPair (H : ReadsPair dev) (dir : MetadataDir) :
    ReadsPair (setPair dev dir) := by
  intro pair pair' log h
  rw [setPair] at h
  split at h
  · cases h
    rcases pairSync_cases ‹_› with rfl | rfl
    · exact .inl rfl
    · exact .inr (Prod.swap_swap _).symm
  · exact H pair pair' log h

/-- The other pairs of a directory. -/
theorem Listing.Directory.others {s : Listing} (H : s.Directory (before ++ dir :: after))
    (he : e ∈ before ++ after) : ¬ SharesBlock e.pair dir.pair := by
  obtain ⟨_, hafter, hbefore⟩ := List.pairwise_append.mp H.disjoint
  rcases List.mem_append.mp he with he | he
  · exact hbefore e he dir (.head _)
  · exact fun h => (List.pairwise_cons.mp hafter).1 e he h.symm

theorem Listing.Directory.replace {s : Listing} {gdisk : GState}
    (H : s.Directory (before ++ dir :: after)) (hc : Continues dir dir')
    (hcount : before ≠ [] → 0 < dir'.count) (hmove : gstateHasmove gdisk = false) :
    Directory { s with dev := setPair s.dev dir', gdisk } (before ++ dir' :: after) where
  nameMax := H.nameMax
  device := setPair_readsPair H.device dir'
  blockCount := H.blockCount
  linked := H.linked.replace hc.pair hc.split hc.tail
  head e he := by
    cases before with
    | nil =>
      cases he
      rw [hc.pair]
      exact H.head dir rfl
    | cons first before => exact H.head e he
  stored e he := by
    have hdir := H.stored dir (by simp)
    have hothers : ∀ e ∈ before ++ after, Stored (setPair s.dev dir') s.blockCount e :=
      fun e he => (H.stored e (by
        rcases List.mem_append.mp he with he | he <;> simp [he])).set
        (by rw [hc.pair]; exact H.others he)
    rcases List.mem_append.mp he with he | he
    · exact hothers e (List.mem_append_left _ he)
    · rcases List.mem_cons.mp he with rfl | he
      · refine ⟨?_, fun pair h => setPair_self _ _ h, hc.whole⟩
        rw [hc.pair]
        exact hdir.range
      · exact hothers e (List.mem_append_right _ he)
  disjoint := by
    have hpairs : ((before ++ dir :: after).map fun e => e.pair).Pairwise
        fun a b => ¬ SharesBlock a b := List.pairwise_map.mpr H.disjoint
    have hmap : (before ++ dir :: after).map (fun e => e.pair) =
        (before ++ dir' :: after).map fun e => e.pair := by
      simp only [List.map_append, List.map_cons, hc.pair]
    rw [hmap] at hpairs
    exact List.pairwise_map.mp hpairs
  nonempty e he := by
    cases before with
    | nil => exact H.nonempty e he
    | cons first before =>
      rcases List.mem_append.mp he with he | he
      · exact H.nonempty e (List.mem_append_left _ he)
      · rcases List.mem_cons.mp he with rfl | he
        · exact hcount (by simp)
        · exact H.nonempty e (List.mem_append_right _ (.tail _ he))
  move h := by rw [hmove] at h; cases h

theorem Listing.Directory.elsewhere {s : Listing} {gdisk : GState} (H : s.Directory dirs)
    (hne : ∀ e ∈ dirs, ¬ SharesBlock e.pair dir'.pair) (hmove : gstateHasmove gdisk = false) :
    Directory { s with dev := setPair s.dev dir', gdisk } dirs :=
  ⟨H.nameMax, setPair_readsPair H.device dir', H.blockCount, H.linked, H.head,
    fun e he => (H.stored e he).set (hne e he), H.disjoint, H.nonempty,
    fun h => by rw [hmove] at h; cases h⟩

theorem pairCmp_of_not_shares (h : ¬ SharesBlock paira pairb) : pairCmp paira pairb = true := by
  rw [← Bool.not_eq_false, pairCmp_eq_false]
  exact h

/-- What a commit into one pair does to the names ahead of the handle: those in `Kept` stay. -/
theorem Listing.Directory.commit {s : Listing} {gdisk : GState}
    (H : s.Directory (before ++ dir :: after)) (hc : Continues dir dir')
    (hcount : before ≠ [] → 0 < dir'.count) (hmove : gstateHasmove gdisk = false)
    (hat : At s.nameMax s.gdisk (before ++ dir :: after) s.handle rest) {kept : List UInt8 → Prop}
    (hnames : ∀ n, kept n → (namesFrom s.nameMax gdisk dir' 0).count n =
      (namesFrom s.nameMax s.gdisk dir 0).count n)
    (hothers : ∀ e ∈ before ++ after, ∀ i,
      namesFrom s.nameMax gdisk e i = namesFrom s.nameMax s.gdisk e i)
    (hfix : s.handle.metadata = dir → s.handle.id ≤ dir.count →
      Fixed dir' (attrs.foldl fixAttr { s.handle with metadata := dir' }) ∧
      ∀ n, kept n → (namesFrom s.nameMax gdisk dir'
        (attrs.foldl fixAttr { s.handle with metadata := dir' }).id).count n =
        (namesFrom s.nameMax s.gdisk dir s.handle.id).count n) :
    ∃ rest', At s.nameMax gdisk (before ++ dir' :: after)
      (fixHandle (setPair s.dev dir') s.blockCount gdisk none dir.pair dir' attrs s.handle).1
        rest' ∧ ∀ n, kept n → rest'.count n = rest.count n := by
  have H' := H.replace hc hcount hmove
  have hflat : ∀ l : List MetadataDir, (∀ e ∈ l, e ∈ before ++ after) →
      (l.flatMap fun e => namesFrom s.nameMax gdisk e 0) =
        l.flatMap fun e => namesFrom s.nameMax s.gdisk e 0 := fun l hl =>
    List.flatMap_congr fun e he => hothers e (hl e he) 0
  have haway : ∀ e, s.handle.metadata = e → e ∈ before ++ after →
      (fixHandle (setPair s.dev dir') s.blockCount gdisk none dir.pair dir' attrs s.handle).1 =
        s.handle := fun e he hmem => by
    rw [fixHandle, he, pairCmp_of_not_shares (H.others hmem), if_neg (by decide)]
  generalize hdirs : before ++ dir :: after = dirs at hat
  cases hat with
  | ended hpair hid hsplit =>
    have hrange := (H.stored dir (by simp)).range
    have hle := H.blockCount
    have hnull : pairIsnull dir.pair = false := by
      simp only [pairIsnull, Bool.or_eq_false_iff, beq_eq_false_iff_ne]
      omega
    rw [fixHandle_pairNull hpair hnull]
    exact ⟨[], .ended hpair hid hsplit, fun _ _ => rfl⟩
  | @on before₂ e after₂ hdirs₂ hmetadata hid =>
    rcases ListCursor.split_cases (hdirs.trans hdirs₂) with
      ⟨rfl, rfl, rfl⟩ | ⟨c, hbefore, hafter⟩ | ⟨c, hbefore, hafter⟩
    · obtain ⟨hfixed, hcounts⟩ := hfix hmetadata hid
      have hfixHandle : fixHandle (setPair s.dev dir') s.blockCount gdisk none dir.pair dir' attrs
          s.handle = followSplit (setPair s.dev dir') s.blockCount gdisk s.blockCount
            (attrs.foldl fixAttr { s.handle with metadata := dir' }) := by
        rw [fixHandle, hmetadata, pairCmp_eq_false.mpr (.inl rfl), if_pos rfl]
        rfl
      refine ⟨_, hfixHandle ▸ H'.follow hfixed, fun n hn => ?_⟩
      rw [List.count_append, List.count_append, hcounts n hn, hflat after fun e he => by simp [he]]
    · -- the handle has already passed the pair
      have hmem : e ∈ before ++ after := by simp [hafter]
      rw [haway e hmetadata hmem, hothers e hmem s.handle.id |>.symm,
        ← hflat after₂ fun e he => by simp [hafter, he]]
      refine ⟨_, .on (show before ++ dir' :: after = (before ++ dir' :: c) ++ e :: after₂ from ?_)
        hmetadata hid, fun _ _ => rfl⟩
      rw [hafter, List.append_assoc, List.cons_append]
    · have hmem : e ∈ before ++ after := by simp [hbefore]
      rw [haway e hmetadata hmem, hothers e hmem s.handle.id |>.symm]
      refine ⟨_, .on (show before ++ dir' :: after = before₂ ++ e :: (c ++ dir' :: after) from ?_)
        hmetadata hid, fun n hn => ?_⟩
      · rw [hbefore, List.append_assoc, List.cons_append]
      · have hc := hflat c fun e he => by simp [hbefore, he]
        have ha := hflat after fun e he => by simp [he]
        simp only [hafter, List.flatMap_append, List.flatMap_cons, List.count_append, hc, ha,
          hnames n hn]

/-! ## The names behind a commit -/

theorem seen_of_no_move (h : gstateHasmove gdisk = false) (pair : BlockPair) (l : List α) :
    seen gdisk pair l = l := by
  rw [gstateHasmove] at h
  rw [seen, gstateHasmovehere, h, Bool.false_and, if_neg (by decide)]

theorem cString_append_zero {name : List UInt8} (h : 0 ∉ name) (l : List UInt8) :
    cString (name ++ 0 :: l) = name := by
  rw [cString, List.takeWhile_append_of_pos fun b hb => by
    rw [bne_iff_ne]
    exact fun h0 => h (h0 ▸ hb)]
  simp

theorem nameOf_created {id : Nat} {name : List UInt8} (hi : id < 2 ^ 10)
    (hname : name.length ≤ nameMax) (hmax : nameMax + 1 < 0x3ff) (hnul : 0 ∉ name) :
    nameOf nameMax ⟨mkTag typeReg id name.length, name⟩ = name := by
  have hsize := (mkTag_fields (show typeReg < 2 ^ 11 by decide) hi
    (show name.length < 2 ^ 10 by omega)).2.2
  obtain ⟨k, hk⟩ := Nat.exists_eq_add_of_le hname
  rw [nameOf, hsize, readPadded, Nat.min_eq_left (by omega), List.take_length,
    show nameMax + 1 - name.length = k + 1 by omega, List.replicate_succ, cString_append_zero hnul]

theorem reduceOption_count_of_perm {l l' : List (Option (List UInt8))}
    (h : l.Perm (some name :: l')) (hn : n ≠ name) :
    l.reduceOption.count n = l'.reduceOption.count n := by
  have hperm : l.reduceOption.Perm (name :: l'.reduceOption) := h.filterMap id
  rw [hperm.count_eq, List.count_cons_of_ne hn.symm]

section
variable {id : Nat} {name n : List UInt8}

/-- The names from an id up to the created one on. -/
theorem namesFrom_create (hmove : gstateHasmove gdisk = false) (hi : id ≤ dir.count)
    (hnames : entryNames nameMax dir' = (entryNames nameMax dir).insertIdx id (some name))
    (hn : n ≠ name) (h : i ≤ id) :
    (namesFrom nameMax gdisk dir' i).count n = (namesFrom nameMax gdisk dir i).count n := by
  simp only [namesFrom, seen_of_no_move hmove, hnames]
  refine reduceOption_count_of_perm (ListCursor.drop_insertIdx_perm _ _ h ?_) hn
  rwa [entryNames, List.length_map, length_slots]

theorem namesFrom_create_behind (hmove : gstateHasmove gdisk = false)
    (hnames : entryNames nameMax dir' = (entryNames nameMax dir).insertIdx id (some name))
    (h : id ≤ i) : namesFrom nameMax gdisk dir' (i + 1) = namesFrom nameMax gdisk dir i := by
  simp only [namesFrom, seen_of_no_move hmove, hnames, ListCursor.drop_insertIdx_of_le _ _ h]

/-- The names from an id up to the deleted one on. -/
theorem namesFrom_delete (hmove : gstateHasmove gdisk = false)
    (hi : (entryNames nameMax dir)[id]? = some (some name))
    (hnames : entryNames nameMax dir' = (entryNames nameMax dir).eraseIdx id) (hn : n ≠ name)
    (h : i ≤ id) :
    (namesFrom nameMax gdisk dir' i).count n = (namesFrom nameMax gdisk dir i).count n := by
  obtain ⟨hlt, hget⟩ := List.getElem?_eq_some_iff.mp hi
  simp only [namesFrom, seen_of_no_move hmove, hnames]
  refine (reduceOption_count_of_perm ?_ hn).symm
  rw [← hget]
  exact ListCursor.drop_eraseIdx_perm _ h hlt

theorem namesFrom_delete_behind (hmove : gstateHasmove gdisk = false)
    (hnames : entryNames nameMax dir' = (entryNames nameMax dir).eraseIdx id) (h : id < i) :
    namesFrom nameMax gdisk dir' (i - 1) = namesFrom nameMax gdisk dir i := by
  simp only [namesFrom, seen_of_no_move hmove, hnames, ListCursor.drop_eraseIdx_of_lt _ h]

end

/-- What is seen does not change when the hidden entry is deleted. -/
theorem namesFrom_repair (nameMax : Nat) (hhere : gstateHasmovehere gdisk dir.pair = true)
    (hmove : gstateHasmove gdisk' = false)
    (hnames : entryNames nameMax dir' = (entryNames nameMax dir).eraseIdx (tagId gdisk.tag))
    (i : Nat) : namesFrom nameMax gdisk' dir' i = namesFrom nameMax gdisk dir i := by
  rw [namesFrom, namesFrom, seen_of_no_move hmove, hnames, seen, if_pos hhere]

/-! ## The steps -/

/-- The names that exist and are not removed are each returned or ahead, once. -/
structure Listing.Iterates (watched : List (List UInt8)) (s : Listing) (dirs : List MetadataDir)
    (rest : List (List UInt8)) : Prop where
  directory : s.Directory dirs
  position : At s.nameMax s.gdisk dirs s.handle rest
  present : ∀ n ∈ watched, n ∉ s.removed →
    (dirs.flatMap fun dir => namesFrom s.nameMax s.gdisk dir 0).count n = 1
  once : ∀ n ∈ watched, n ∉ s.removed → (s.returned ++ rest).count n = 1

/-- What a read does. -/
structure Listing.Reads (s : Listing) (dirs : List MetadataDir) (rest : List (List UInt8))
    (h' : Handle) (err : Int) (info : Info) : Prop where
  head : h'.head = s.handle.head
  result : err = errOk ∨ err = errNoent ∧ rest = []
  rest : ∃ rest', At s.nameMax s.gdisk dirs h' rest' ∧
    s.returns err info ++ rest' = s.returned ++ rest

theorem Listing.Directory.handle {s : Listing} (H : s.Directory dirs) {g : Handle}
    (hhead : g.head = s.handle.head) : Directory { s with handle := g } dirs :=
  ⟨H.nameMax, H.device, H.blockCount, H.linked, fun dir hdir => hhead ▸ H.head dir hdir, H.stored,
    H.disjoint, H.nonempty, H.move⟩

theorem Listing.At.pos {nameMax : Nat} {gdisk : GState} {h : Handle}
    (H : At nameMax gdisk dirs h rest) (pos : BitVec 64) :
    At nameMax gdisk dirs { h with pos } rest := by
  cases H with
  | on hdirs hmetadata hid => exact .on hdirs hmetadata hid
  | ended hpair hid hsplit => exact .ended hpair hid hsplit

theorem dirReadLoop_mono (h : dirReadLoop dev blockCount nameMax gdisk fuel g = some r) (k : Nat) :
    dirReadLoop dev blockCount nameMax gdisk (fuel + k) g = some r := by
  induction fuel generalizing g with
  | zero => cases h
  | succ fuel ih =>
    rw [Nat.add_right_comm, dirReadLoop]
    rw [dirReadLoop] at h
    revert h
    split
    · exact id
    · split
      · exact id
      · split
        · exact id
        · exact ih

theorem dirRawread_mono {s : Listing} (h : s.read fuel = some r) (k : Nat) :
    s.read (fuel + k) = some r := by
  revert h
  rw [Listing.read, Listing.read, dirRawread, dirRawread]
  split
  · exact id
  · split
    · exact id
    · exact fun h => dirReadLoop_mono h k

theorem Listing.Iterates.exists_reads {s : Listing} (H : s.Iterates watched dirs rest) :
    ∃ fuel₀, ∀ fuel, fuel₀ < fuel →
      ∃ h' err info, s.read fuel = some (h', err, info) ∧ s.Reads dirs rest h' err info := by
  by_cases h0 : s.handle.pos = 0#64
  · refine ⟨0, fun fuel _ => ⟨_, _, _, if_pos h0, rfl, .inl rfl, rest, H.position.pos _, ?_⟩⟩
    rw [returns, if_neg fun h => h.2.1 h0]
  · by_cases h1 : s.handle.pos = 1#64
    · refine ⟨0, fun fuel _ => ⟨_, _, _, (if_neg h0).trans (if_pos h1), rfl, .inl rfl, rest,
        H.position.pos _, ?_⟩⟩
      rw [returns, if_neg fun h => h.2.2 h1]
    · have htakes : ∀ {h' err info},
          Takes s.nameMax s.gdisk dirs rest s.handle h' err info →
          s.Reads dirs rest h' err info := by
        rintro h' err info ⟨hhead, ⟨rfl, rfl, hat⟩ | ⟨rfl, rest', rfl, hat⟩⟩
        · exact ⟨hhead, .inr ⟨rfl, rfl⟩, [], hat, rfl⟩
        · refine ⟨hhead, .inl rfl, rest', hat, ?_⟩
          rw [returns, if_pos ⟨rfl, h0, h1⟩, List.append_assoc, List.singleton_append]
      have hread : ∀ fuel, s.read fuel =
          dirReadLoop s.dev s.blockCount s.nameMax s.gdisk fuel s.handle := fun fuel => by
        rw [read, dirRawread, if_neg h0, if_neg h1]
      have hposition := H.position
      have hdirectory := H.directory
      generalize s.handle = g at hposition htakes hread
      cases hposition with
      | @on before dir after hdirs hmetadata hid =>
        subst hdirs
        refine ⟨roundsLeft g.id dir after, fun fuel hfuel => ?_⟩
        obtain ⟨h', err, info, hloop, ht⟩ := hdirectory.loop hmetadata hid hfuel
        exact ⟨h', err, info, (hread fuel).trans hloop, htakes ht⟩
      | ended hpair hid hsplit =>
        refine ⟨0, fun fuel hfuel => ⟨g, errNoent, {}, ?_,
          htakes ⟨rfl, .inl ⟨rfl, rfl, .ended hpair hid hsplit⟩⟩⟩⟩
        obtain ⟨fuel, rfl⟩ := Nat.exists_eq_add_one.mpr hfuel
        rw [hread, dirReadLoop, if_pos hid, if_pos hsplit]

/-- Every read that returns. -/
theorem Listing.Iterates.reads {s : Listing} (H : s.Iterates watched dirs rest)
    (hread : s.read fuel = some (h', err, info)) : s.Reads dirs rest h' err info := by
  obtain ⟨fuel₀, hfuel⟩ := H.exists_reads
  obtain ⟨_, _, _, hread', hreads⟩ := hfuel (fuel + (fuel₀ + 1)) (by omega)
  rw [dirRawread_mono hread] at hread'
  cases hread'
  exact hreads

theorem Listing.Iterates.read {s : Listing} (H : s.Iterates watched dirs rest)
    (hreads : s.Reads dirs rest h' err info) :
    ∃ rest', Iterates watched { s with handle := h', returned := s.returns err info } dirs
      rest' := by
  obtain ⟨rest', hat, hrest⟩ := hreads.rest
  have hdirectory := H.directory.handle hreads.head
  refine ⟨rest', ⟨hdirectory.nameMax, hdirectory.device, hdirectory.blockCount, hdirectory.linked,
    hdirectory.head, hdirectory.stored, hdirectory.disjoint, hdirectory.nonempty, hdirectory.move⟩,
    hat, H.present, fun n hn hremoved => ?_⟩
  rw [← H.once n hn hremoved, ← hrest]

/-- A commit that keeps the watched names which it does not remove. -/
theorem Listing.Iterates.commit {s : Listing} {gdisk : GState}
    (H : s.Iterates watched (before ++ dir :: after) rest) (attrs : List Attr)
    (removed : List (List UInt8)) (kept : List UInt8 → Prop) (hc : Continues dir dir')
    (hcount : before ≠ [] → 0 < dir'.count)
    (hmove : gstateHasmove gdisk = false) (hremoved : ∀ n, n ∉ removed → n ∉ s.removed)
    (hkept : ∀ n ∈ watched, n ∉ removed → kept n)
    (hnames : ∀ n, kept n → (namesFrom s.nameMax gdisk dir' 0).count n =
      (namesFrom s.nameMax s.gdisk dir 0).count n)
    (hothers : ∀ e ∈ before ++ after, ∀ i,
      namesFrom s.nameMax gdisk e i = namesFrom s.nameMax s.gdisk e i)
    (hfix : s.handle.metadata = dir → s.handle.id ≤ dir.count →
      Fixed dir' (attrs.foldl fixAttr { s.handle with metadata := dir' }) ∧
      ∀ n, kept n → (namesFrom s.nameMax gdisk dir'
        (attrs.foldl fixAttr { s.handle with metadata := dir' }).id).count n =
        (namesFrom s.nameMax s.gdisk dir s.handle.id).count n) :
    ∃ rest', Iterates watched { s with
      dev := setPair s.dev dir'
      gdisk
      handle := (fixHandle (setPair s.dev dir') s.blockCount gdisk none dir.pair dir' attrs
        s.handle).1
      removed } (before ++ dir' :: after) rest' := by
  obtain ⟨rest', hat, hrest⟩ :=
    H.directory.commit hc hcount hmove H.position hnames hothers hfix
  have hdirectory := (H.directory.replace hc hcount hmove).handle
    (fixHandle_head (setPair s.dev dir') s.blockCount gdisk none dir.pair dir' attrs s.handle)
  refine ⟨rest', ⟨hdirectory.nameMax, hdirectory.device, hdirectory.blockCount, hdirectory.linked,
    hdirectory.head, hdirectory.stored, hdirectory.disjoint, hdirectory.nonempty, hdirectory.move⟩,
    hat, fun n hn hr => ?_, fun n hn hr => ?_⟩
  · have hflat : ∀ l : List MetadataDir, (∀ e ∈ l, e ∈ before ++ after) →
        (l.flatMap fun e => namesFrom s.nameMax gdisk e 0) =
          l.flatMap fun e => namesFrom s.nameMax s.gdisk e 0 := fun l hl =>
      List.flatMap_congr fun e he => hothers e (hl e he) 0
    have hpresent := H.present n hn (hremoved n hr)
    have hb := hflat before fun e he => by simp [he]
    have ha := hflat after fun e he => by simp [he]
    rw [List.flatMap_append, List.flatMap_cons, List.count_append, List.count_append] at hpresent ⊢
    rw [hb, ha, hnames n (hkept n hn hr), hpresent]
  · rw [← H.once n hn (hremoved n hr), List.count_append, List.count_append,
      hrest n (hkept n hn hr)]

/-- A pair that keeps its place behind a hard tail keeps an entry. -/
theorem Listing.Directory.count_ne_one {s : Listing} (H : s.Directory (before ++ dir :: after))
    (hkeep : s.Keeps dir) (hbefore : before ≠ []) : dir.count ≠ 1 := by
  refine hkeep.resolve_right fun h => ?_
  obtain ⟨before, pred, rfl⟩ := (List.eq_nil_or_concat before).resolve_left hbefore
  rw [List.concat_eq_append, List.append_assoc, List.singleton_append] at H
  rcases H.linked.tail with ⟨hnil, _⟩ | ⟨_, _, hcons, hsplit, htail⟩
  · cases hnil
  · cases hcons
    have hnot := h pred (H.inDirectory.mpr (by simp)) hsplit
    cases htail.symm.trans hnot

theorem Listing.Iterates.create {s : Listing} {id : Nat} {name : List UInt8}
    (H : s.Iterates watched dirs rest) (hsafe : s.Safe (.create dir id name))
    (hdir : s.InDirectory dir) (hid : id ≤ dir.count) (hname : name.length ≤ s.nameMax ∧ 0 ∉ name)
    (hfresh : ∀ d, s.InDirectory d → name ∉ s.names d)
    (hextra : ∀ e ∈ extra, LogEntry.Neutral e)
    (h : s.append dir (createAttrs id name) extra s.gdisk = some s') :
    ∃ dirs' rest', s'.Iterates watched dirs' rest' := by
  obtain ⟨hmove, hroom⟩ := hsafe
  obtain ⟨before, after, rfl⟩ := List.append_of_mem (H.directory.inDirectory.mp hdir)
  have hmax := H.directory.nameMax
  have hi : id < 2 ^ 10 := by omega
  have hlen : name.length < 2 ^ 10 := by omega
  obtain ⟨dir', happend, hc, hcount, hslots⟩ :=
    (H.directory.stored dir (by simp)).whole.create hid hroom
      (show name.length < 0x3ff by omega) hextra
  have hnames : entryNames s.nameMax dir' =
      (entryNames s.nameMax dir).insertIdx id (some name) := by
    rw [entryNames, hslots, List.map_insertIdx, createdSlot, Option.map_some,
      nameOf_created hi hname.1 hmax hname.2]
    rfl
  rw [append, happend, Option.map_some, Option.some.injEq] at h
  subst h
  have hkept : ∀ n ∈ watched, n ∉ s.removed → n ≠ name := by
    rintro n hn hremoved rfl
    have hmem := List.count_pos_iff.mp (Nat.lt_of_lt_of_eq Nat.zero_lt_one
      (H.present n hn hremoved).symm)
    obtain ⟨d, hd, hnd⟩ := List.mem_flatMap.mp hmem
    exact hfresh d (H.directory.inDirectory.mpr hd) hnd
  obtain ⟨rest', H'⟩ := H.commit (createAttrs id name) s.removed (· ≠ name) hc
    (fun _ => by omega) hmove (fun _ h => h) hkept
    (fun n hn => namesFrom_create hmove hid hnames hn (Nat.zero_le _)) (fun _ _ _ => rfl)
    fun _ hle => by
      obtain ⟨hfixed, hgid⟩ := fixed_create (h := s.handle) hi hlen hle hcount
      refine ⟨hfixed, fun n hn => ?_⟩
      rw [hgid]
      split
      · rw [namesFrom_create_behind hmove hnames ‹_›]
      · exact namesFrom_create hmove hid hnames hn (by omega)
  exact ⟨_, rest', H'⟩

theorem Listing.Iterates.remove {s : Listing} {id : Nat} {name : List UInt8}
    (H : s.Iterates watched dirs rest) (hsafe : s.Safe (.remove dir id))
    (hdir : s.InDirectory dir) (hid : (entryNames s.nameMax dir)[id]? = some (some name))
    (hkeep : s.Keeps dir) (hextra : ∀ e ∈ extra, LogEntry.Neutral e)
    (h : s.append dir (deleteAttrs id) extra s.gdisk = some s') :
    ∃ dirs' rest', Iterates watched { s' with removed := s.removed ++ [name] } dirs' rest' := by
  obtain ⟨hmove, hspares⟩ := hsafe
  obtain ⟨before, after, rfl⟩ := List.append_of_mem (H.directory.inDirectory.mp hdir)
  have hlt : id < dir.count := by
    obtain ⟨hlt, _⟩ := List.getElem?_eq_some_iff.mp hid
    rwa [entryNames, List.length_map, length_slots] at hlt
  have hwhole := (H.directory.stored dir (by simp)).whole
  have hroom := logCount_lt hwhole.log.count_eq
  obtain ⟨dir', happend, hc, hcount, hslots⟩ := hwhole.delete hlt hextra
  have hnames : entryNames s.nameMax dir' = (entryNames s.nameMax dir).eraseIdx id := by
    rw [entryNames, hslots, entryNames, List.eraseIdx_map]
  rw [append, happend, Option.map_some, Option.some.injEq] at h
  subst h
  obtain ⟨rest', H'⟩ := H.commit (deleteAttrs id) (s.removed ++ [name]) (· ≠ name) hc
    (fun hbefore => by
      have := H.directory.count_ne_one hkeep hbefore
      omega) hmove
    (fun n hn h => hn (List.mem_append_left _ h))
    (by rintro n _ hn rfl; exact hn (by simp))
    (fun n hn => namesFrom_delete hmove hid hnames hn (Nat.zero_le _)) (fun _ _ _ => rfl)
    fun hmetadata hle => by
      obtain ⟨hfixed, hgid⟩ := fixed_delete (h := s.handle) hlt (by omega)
        (hspares (hmetadata ▸ .inl rfl)) hle hcount
      refine ⟨hfixed, fun n hn => ?_⟩
      rw [hgid]
      split
      · rw [namesFrom_delete_behind hmove hnames ‹_›]
      · exact namesFrom_delete hmove hid hnames hn (by omega)
  exact ⟨_, rest', H'⟩

/-- No move is left when no orphan is recorded. -/
theorem fsPrepmove_no_move {g : GState} (h : tagIsValid g.tag = true) :
    gstateHasmove (fsPrepmove g 0x3ff#16 (0, 0)) = false := by
  rw [tagIsValid_iff] at h
  have hmask := BitField.and_mask g.tag.toNat 10 21
  have htoNat : (g.tag &&& ~~~ mkTag typeMovestate 0x3ff 0).toNat < 2 ^ 28 := by
    rw [BitField.toNat_and_not,
      show (mkTag typeMovestate 0x3ff 0).toNat = (2 ^ 21 - 1) * 2 ^ 10 from rfl, hmask]
    omega
  have hzero : tagType1 (g.tag &&& ~~~ mkTag typeMovestate 0x3ff 0) = 0 := by
    rw [tagType1_eq]
    omega
  simp only [gstateHasmove, fsPrepmove, bne_self_eq_false, Bool.false_eq_true, ↓reduceIte,
    BitVec.or_zero, hzero]

theorem gstateHasmovehere_iff (hmove : gstateHasmove gdisk = true) :
    gstateHasmovehere gdisk pair = true ↔ SharesBlock gdisk.pair pair := by
  rw [gstateHasmove] at hmove
  rw [gstateHasmovehere, hmove, Bool.true_and, Bool.not_eq_true', pairCmp_eq_false]

/-- Where the hidden entry is not, a repair changes nothing that is seen. -/
theorem namesFrom_elsewhere (hmove : gstateHasmove gdisk = true)
    (hne : ¬ SharesBlock gdisk.pair dir.pair) (hmove' : gstateHasmove gdisk' = false) (i : Nat) :
    namesFrom nameMax gdisk' dir i = namesFrom nameMax gdisk dir i := by
  rw [namesFrom, namesFrom, seen_of_no_move hmove', seen,
    if_neg (mt (gstateHasmovehere_iff hmove).mp hne)]

theorem appendAttrs_pair (h : appendAttrs dir (deleteAttrs i) extra = some dir') :
    dir'.pair = dir.pair := by
  rw [appendAttrs, Option.map_eq_some_iff] at h
  obtain ⟨p, hp, rfl⟩ := h
  simp only [deleteAttrs, List.foldlM_cons, List.foldlM_nil, Option.bind_eq_bind, Option.pure_def,
    Option.bind_fun_some] at hp
  rw [commitAttr] at hp
  split_ifs at hp <;> cases hp <;> rfl

/-- A commit into another directory. -/
theorem Listing.Iterates.elsewhere {s : Listing} {gdisk : GState} {dir : MetadataDir}
    (H : s.Iterates watched dirs rest)
    (hnull : pairIsnull dir.pair = false) (hpair : dir'.pair = dir.pair)
    (hne : ∀ e ∈ dirs, ¬ SharesBlock e.pair dir.pair) (hmove : gstateHasmove gdisk = false)
    (hnames : ∀ e ∈ dirs, ∀ i, namesFrom s.nameMax gdisk e i = namesFrom s.nameMax s.gdisk e i)
    (attrs : List Attr) :
    Iterates watched { s with
      dev := setPair s.dev dir'
      gdisk
      handle := (fixHandle (setPair s.dev dir') s.blockCount gdisk none dir.pair dir' attrs
        s.handle).1 } dirs rest := by
  have hstays : (fixHandle (setPair s.dev dir') s.blockCount gdisk none dir.pair dir' attrs
      s.handle).1 = s.handle := by
    cases H.position with
    | @on before e after hdirs hmetadata hid =>
      rw [fixHandle, hmetadata, pairCmp_of_not_shares (hne e (by simp [hdirs])),
        if_neg (by decide)]
    | ended hpair hid hsplit => rw [fixHandle_pairNull hpair hnull]
  have hflat : ∀ l : List MetadataDir, (∀ e ∈ l, e ∈ dirs) →
      (l.flatMap fun e => namesFrom s.nameMax gdisk e 0) =
        l.flatMap fun e => namesFrom s.nameMax s.gdisk e 0 := fun l hl =>
    List.flatMap_congr fun e he => hnames e (hl e he) 0
  have hdirectory := (H.directory.elsewhere (fun e he => hpair ▸ hne e he) hmove).handle
    (fixHandle_head (setPair s.dev dir') s.blockCount gdisk none dir.pair dir' attrs s.handle)
  refine ⟨⟨hdirectory.nameMax, hdirectory.device, hdirectory.blockCount, hdirectory.linked,
    hdirectory.head, hdirectory.stored, hdirectory.disjoint, hdirectory.nonempty, hdirectory.move⟩,
    ?_, fun n hn hr => ?_, H.once⟩
  · rw [hstays]
    have hposition := H.position
    cases hposition with
    | @on before e after hdirs hmetadata hid =>
      rw [← hnames e (by simp [hdirs]), ← hflat after fun e he => by simp [hdirs, he]]
      exact .on hdirs hmetadata hid
    | ended hpair hid hsplit => exact .ended hpair hid hsplit
  · rw [hflat dirs fun _ he => he]
    exact H.present n hn hr

theorem Listing.Iterates.repair {s : Listing} (H : s.Iterates watched dirs rest)
    (hsafe : s.Safe (.repair dir)) (hmove : gstateHasmove s.gdisk = true)
    (hdir : dirFetch s.dev s.blockCount s.gdisk s.gdisk.pair = some dir) (hkeep : s.Keeps dir)
    (hextra : ∀ e ∈ extra, LogEntry.Neutral e)
    (h : s.append dir (deleteAttrs (tagId s.gdisk.tag)) extra
      (fsPrepmove s.gdisk 0x3ff#16 (0, 0)) = some s') :
    ∃ dirs' rest', s'.Iterates watched dirs' rest' := by
  obtain ⟨hvalid, hspares, hbehind⟩ := hsafe
  have hmove' := fsPrepmove_no_move hvalid
  rcases H.directory.move hmove with ⟨e, he, hsync, hlt⟩ | helse
  · -- the hidden entry is in the directory
    obtain ⟨before, after, rfl⟩ := List.append_of_mem he
    have hstored := H.directory.stored e he
    rw [hstored.fetch hsync] at hdir
    cases hdir
    have hwhole := hstored.whole
    have hroom := logCount_lt hwhole.log.count_eq
    have hhere := (gstateHasmovehere_iff hmove).mpr (sharesBlock_of_pairSync hsync)
    obtain ⟨dir', happend, hc, hcount, hslots⟩ := hwhole.delete hlt hextra
    have hnames : entryNames s.nameMax dir' =
        (entryNames s.nameMax dir).eraseIdx (tagId s.gdisk.tag) := by
      rw [entryNames, hslots, entryNames, List.eraseIdx_map]
    have hsame := namesFrom_repair s.nameMax hhere hmove' hnames
    rw [append, happend, Option.map_some, Option.some.injEq] at h
    subst h
    obtain ⟨rest', H'⟩ := H.commit (deleteAttrs (tagId s.gdisk.tag)) s.removed (fun _ => True) hc
      (fun hbefore => by
        have := H.directory.count_ne_one hkeep hbefore
        omega) hmove' (fun _ h => h) (fun _ _ _ => trivial)
      (fun n _ => by rw [hsame])
      (fun e he i => namesFrom_elsewhere hmove (fun hshare =>
        H.directory.others he ((sharesBlock_sync_left hsync).mp hshare).symm) hmove' i)
      fun hmetadata hle => by
        obtain ⟨hfixed, hgid⟩ := fixed_delete (h := s.handle) hlt (by omega)
          (hspares (hmetadata ▸ .inl rfl)) hle hcount
        refine ⟨hfixed, fun n _ => ?_⟩
        rw [hgid, hsame]
        split
        · have hend := hbehind (hmetadata ▸ .inl rfl) ‹_›
          rw [← hsame, ← hsame, namesFrom_eq_nil _ _ (by omega), namesFrom_eq_nil _ _ (by omega)]
        · rfl
    exact ⟨_, rest', H'⟩
  · -- the hidden entry is in another directory
    rw [dirFetch_eq] at hdir
    split at hdir
    · cases hdir
    · obtain ⟨⟨pair', log⟩, hread, rfl⟩ := Option.map_eq_some_iff.mp hdir
      have hsync : pairSync pair' s.gdisk.pair = true := by
        rcases H.directory.device _ _ _ hread with rfl | rfl
        · exact pairSync_refl _
        · simp [pairSync]
      have hnull : pairIsnull pair' = false := by
        have hle := H.directory.blockCount
        simp only [pairIsnull, Bool.or_eq_false_iff, beq_eq_false_iff_ne]
        rcases pairSync_cases hsync with rfl | rfl
        · omega
        · simp only [Prod.fst_swap, Prod.snd_swap]
          omega
      rw [append, Option.map_eq_some_iff] at h
      obtain ⟨dir', happend, rfl⟩ := h
      refine ⟨dirs, rest, H.elsewhere hnull (appendAttrs_pair happend) (fun e he hshare => ?_)
        hmove' (fun e he i => namesFrom_elsewhere hmove (helse e he) hmove' i) _⟩
      exact helse e he ((sharesBlock_sync_left hsync).mp hshare.symm)

/-- **One step.** -/
theorem Listing.Iterates.step {s : Listing} (H : s.Iterates watched dirs rest)
    (hsafe : s.Safe e) (hstep : s.Step e s') : ∃ dirs' rest', s'.Iterates watched dirs' rest' := by
  cases hstep with
  | read hread => exact ⟨dirs, H.read (H.reads hread)⟩
  | create hdir hid hname hfresh hextra h =>
    exact H.create hsafe hdir hid hname hfresh hextra h
  | remove hdir hid hkeep hextra h => exact H.remove hsafe hdir hid hkeep hextra h
  | repair hmove hdir hkeep hextra h => exact H.repair hsafe hmove hdir hkeep hextra h

theorem Listing.Opened.iterates {s : Listing} (H : s.Opened dirs) :
    ∃ rest, s.Iterates (dirs.flatMap s.names) dirs rest := by
  cases dirs with
  | nil => exact absurd H.directory.linked fun h => h
  | cons dir dirs =>
    have hmetadata : s.handle.metadata = dir := (Option.some.inj H.metadata).symm
    have hcount : ∀ n ∈ (dir :: dirs).flatMap s.names,
        ((dir :: dirs).flatMap s.names).count n = 1 := fun n hn => by
      rw [H.unique.count, if_pos hn]
    refine ⟨_, H.directory,
      .on (show dir :: dirs = [] ++ dir :: dirs from rfl) hmetadata (H.id ▸ Nat.zero_le _),
      fun n hn _ => hcount n hn, fun n hn _ => ?_⟩
    rw [H.returned, H.id, List.nil_append]
    exact hcount n hn

/-- What the iteration promises at a state: a read returns, with an entry or the end marker, and at
the end marker each name that was there from the start and has not been removed has been returned
exactly once. -/
structure Listing.Stable (s : Listing) (names : List (List UInt8)) : Prop where
  total : ∃ fuel, ∃ r, s.read fuel = some r
  result : ∀ fuel h' err info, s.read fuel = some (h', err, info) → err = errOk ∨ err = errNoent
  complete : ∀ fuel h' info, s.read fuel = some (h', errNoent, info) →
    ∀ n ∈ names, n ∉ s.removed → s.returned.count n = 1
  once : ∀ n ∈ names, n ∉ s.removed → s.returned.count n ≤ 1

/-- **Stable iteration.** In every run whose removals and repairs do not take the entry under the
handle, reads return only entries and the end marker, and every entry that stays is returned exactly
once. -/
theorem dirRawread_stable {s₀ s : Listing} (H : s₀.Opened dirs)
    (hrun : Run.Runs Listing.Step Listing.Safe s₀ s) :
    s.Stable (dirs.flatMap s₀.names) := by
  have hstep : ∀ (s : Listing) e s', (∃ dirs' rest, s.Iterates (dirs.flatMap s₀.names) dirs' rest) →
      s.Safe e → s.Step e s' → ∃ dirs' rest, s'.Iterates (dirs.flatMap s₀.names) dirs' rest := by
    rintro s e s' ⟨_, _, H⟩ hsafe hstep
    exact H.step hsafe hstep
  obtain ⟨dirs', rest, H⟩ := hrun.invariant hstep ⟨dirs, H.iterates⟩
  refine ⟨?_, fun fuel h' err info h => ?_, fun fuel h' info h n hn hremoved => ?_,
    fun n hn hremoved => ?_⟩
  · obtain ⟨fuel₀, hfuel⟩ := H.exists_reads
    obtain ⟨_, _, _, h, _⟩ := hfuel (fuel₀ + 1) (Nat.lt_succ_self _)
    exact ⟨_, _, h⟩
  · exact (H.reads h).result.imp_right And.left
  · rcases (H.reads h).result with herr | ⟨_, rfl⟩
    · exact absurd herr (by decide)
    · rw [← H.once n hn hremoved, List.append_nil]
  · have := H.once n hn hremoved
    rw [List.count_append] at this
    omega

/-! ## Three files -/

/-- The files `a`, `b` and `c` in one pair. -/
def abcDir : MetadataDir where
  pair := (2, 3)
  log := [⟨mkTag typeCreate 0 0, []⟩, ⟨mkTag typeReg 0 1, [97]⟩, ⟨mkTag typeInlinestruct 0 0, []⟩,
    ⟨mkTag typeCreate 1 0, []⟩, ⟨mkTag typeReg 1 1, [98]⟩, ⟨mkTag typeInlinestruct 1 0, []⟩,
    ⟨mkTag typeCreate 2 0, []⟩, ⟨mkTag typeReg 2 1, [99]⟩, ⟨mkTag typeInlinestruct 2 0, []⟩,
    ⟨mkTag typeCrc 0x3ff 4, [0, 0, 0, 0]⟩]
  count := 3
  split := false
  tail := pairNull

def abcListing : Listing where
  dev := setPair (fun _ => none) abcDir
  blockCount := 8
  nameMax := 16
  gdisk := {}
  handle := { serial := 0, id := 0, type := typeDir, metadata := abcDir, head := (2, 3) }

theorem abcDir_stored : Stored (setPair (fun _ => none) abcDir) 8 abcDir :=
  ⟨by decide, fun _ h => setPair_self _ _ h, by decide, ⟨by decide, by decide, by decide⟩,
    by decide⟩

theorem abcListing_opened : abcListing.Opened [abcDir] where
  directory := {
    nameMax := by decide
    device := setPair_readsPair (show ReadsPair fun _ => none from fun _ _ _ h => by cases h) _
    blockCount := by decide
    linked := rfl
    head := by rintro _ ⟨⟩; rfl
    stored := by
      rintro _ hdir
      obtain rfl := List.mem_singleton.mp hdir
      exact abcDir_stored
    disjoint := List.pairwise_singleton ..
    nonempty := fun _ h => nomatch h
    move := fun h => nomatch h }
  metadata := rfl
  id := rfl
  pos := rfl
  unique := by decide
  returned := rfl
  removed := rfl

/-- Behind `n` reads of the special offsets. -/
def abcAt (n : Nat) : Listing :=
  { abcListing with handle := { abcListing.handle with pos := BitVec.ofNat 64 n } }

/-- The pair behind the removal of a file. -/
def abcWithout (id : Nat) : MetadataDir :=
  { abcDir with log := abcDir.log ++ [⟨mkTag typeDelete id 0, []⟩], count := 2 }

/-- The file `name` is removed before the first file is read. -/
def abcRemoved (id : Nat) (name : UInt8) : Listing :=
  { abcAt 2 with
    dev := setPair abcListing.dev (abcWithout id)
    handle := (fixHandle (setPair abcListing.dev (abcWithout id)) 8 {} none (2, 3) (abcWithout id)
      (deleteAttrs id) (abcAt 2).handle).1
    removed := [[name]] }

theorem abcListing_run {P : Listing → Listing.Event → Prop} (hread : ∀ n, P (abcAt n) .read) :
    Run.Runs Listing.Step P abcListing (abcAt 2) := by
  have hspecial : ∀ {s s' : Listing} {h' err info}, s.read 0 = some (h', err, info) →
      s' = { s with handle := h', returned := s.returns err info } → s.Step .read s' := by
    rintro s _ h' err info h rfl
    exact .read h
  have h0 : abcListing.Step .read (abcAt 1) := hspecial rfl rfl
  have h1 : (abcAt 1).Step .read (abcAt 2) := hspecial rfl rfl
  exact .step (.step .refl (hread 0) h0) (hread 1) h1

theorem abcListing_inDirectory (n : Nat) : (abcAt n).InDirectory abcDir :=
  .head (abcDir_stored.fetch rfl _)

theorem abcListing_remove {id : Nat} {name : UInt8} (hi : id < 3)
    (hname : (entryNames 16 abcDir)[id]? = some (some [name])) :
    Listing.Step (abcAt 2) (.remove abcDir id) (abcRemoved id name) := by
  have happend : appendAttrs abcDir (deleteAttrs id) [] = some (abcWithout id) := by
    obtain rfl | rfl | rfl : id = 0 ∨ id = 1 ∨ id = 2 := by omega
    all_goals decide
  have h : (abcAt 2).append abcDir (deleteAttrs id) [] (abcAt 2).gdisk =
      some { abcRemoved id name with removed := [] } := by
    rw [Listing.append, happend]
    rfl
  exact .remove (abcListing_inDirectory 2) hname (.inl (by decide))
    (fun _ he => absurd he List.not_mem_nil) h

theorem dirRawread_stable_removed :
    (abcRemoved 2 99).Stable ([abcDir].flatMap abcListing.names) :=
  dirRawread_stable abcListing_opened
    (.step (abcListing_run fun _ => trivial)
      (show Listing.Safe (abcAt 2) (.remove abcDir 2) from ⟨rfl, fun _ h => absurd h (by decide)⟩)
      (abcListing_remove (by decide) (by decide)))

/-- The first file is removed when it is the next one to be read: the next read fails. -/
theorem dirRawread_stable_fails :
    ¬ ∀ (s₀ s : Listing) (dirs : List MetadataDir), s₀.Opened dirs →
      Run.Runs Listing.Step (fun _ _ => True) s₀ s → s.Stable (dirs.flatMap s₀.names) := by
  intro h
  have hstable := h abcListing (abcRemoved 0 97) [abcDir] abcListing_opened
    (.step (abcListing_run fun _ => trivial) trivial
      (abcListing_remove (by decide) (by decide)))
  have hread : (abcRemoved 0 97).read 1 = some ((abcRemoved 0 97).handle, errCorrupt, {}) := by
    decide
  exact absurd (hstable.result _ _ _ _ hread) (by decide)

end LittleFs
