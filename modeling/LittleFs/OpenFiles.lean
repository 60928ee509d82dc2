import LittleFs.Relocate

/-! Open handles while the tree changes under them: `lfs->metadata_list`, the fixups that
`lfs_dir_relocating_commit` makes in it after every commit, and what `lfs_file_rawsync` commits for
a handle. A handle whose file is removed gets a null pair, unless the removed entry was the last one
of a pair that continues in a hard tail. -/

namespace LittleFs

/-! ## Handles -/

/-- The internal flags of `enum lfs_open_flags`. -/
def flagDirty : BitVec 32 := 0x010000#32
def flagWriting : BitVec 32 := 0x020000#32
def flagReading : BitVec 32 := 0x040000#32
def flagErred : BitVec 32 := 0x080000#32
def flagInline : BitVec 32 := 0x100000#32

/-- `lfs_ctz_t`. -/
structure Ctz where
  head : Nat
  size : Nat
  deriving DecidableEq, Repr

/-- `lfs_metadata_list_t`, with what `lfs_dir_t` and `lfs_file_t` add to it. The serial number
stands for the address. -/
structure Handle where
  serial : Nat
  id : Nat
  type : Nat
  metadata : MetadataDir
  pos : BitVec 64 := 0#64
  head : BlockPair := (0, 0)
  ctz : Ctz := ⟨0, 0⟩
  flags : BitVec 32 := 0#32
  /-- The contents of an inline file. -/
  cache : List UInt8 := []
  attrs : List UserAttribute := []
  deriving DecidableEq, Repr

def Handle.has (h : Handle) (flag : BitVec 32) : Bool := h.flags &&& flag != 0#32

/-- The null pair of a handle without a file. -/
def pairNull : BlockPair := (blockNull, blockNull)

/-! ## The fixups behind a commit -/

/-- What one attribute of the commit does to another handle on the same pair. -/
def fixAttr (h : Handle) (a : Attr) : Handle :=
  if tagType3 a.tag = typeDelete ∧ h.id = tagId a.tag then
    { h with metadata := { h.metadata with pair := pairNull } }
  else if tagType3 a.tag = typeDelete ∧ h.id > tagId a.tag then
    { h with id := h.id - 1, pos := if h.type = typeDir then h.pos - 1#64 else h.pos }
  else if tagType3 a.tag = typeCreate ∧ h.id ≥ tagId a.tag then
    { h with id := h.id + 1, pos := if h.type = typeDir then h.pos + 1#64 else h.pos }
  else h

/-- The loop that follows a handle to the pair its id is on now; `false` when a fetch fails or the
fuel runs out. -/
def followSplit (dev : Device) (blockCount : Nat) (gdisk : GState) :
    (fuel : Nat) → Handle → Handle × Bool
  | fuel, h =>
    if h.id ≥ h.metadata.count ∧ h.metadata.split = true then
      match fuel with
      | 0 => (h, false)
      | fuel + 1 =>
        -- we split and id is on tail now
        let h := { h with id := h.id - h.metadata.count }
        match dirFetch dev blockCount gdisk h.metadata.tail with
        | none => (h, false)
        | some metadata => followSplit dev blockCount gdisk fuel { h with metadata }
    else (h, true)

/-- The fixup of one handle behind a commit into `pair`, which was given as the `metadata` of the
handle `owner`. -/
def fixHandle (dev : Device) (blockCount : Nat) (gdisk : GState) (owner : Option Nat)
    (pair : BlockPair) (dir : MetadataDir) (attrs : List Attr) (h : Handle) : Handle × Bool :=
  if pairCmp h.metadata.pair pair = false then
    let h := { h with metadata := dir }
    let h := if owner = some h.serial then h else attrs.foldl fixAttr h
    followSplit dev blockCount gdisk blockCount h
  else (h, true)

/-- The loop over `lfs->metadata_list`, which stops at an error. -/
def fixMlist (fix : Handle → Handle × Bool) : List Handle → List Handle × Bool
  | [] => ([], true)
  | h :: mlist =>
    match fix h with
    | (h, true) => ((h :: (fixMlist fix mlist).1), (fixMlist fix mlist).2)
    | (h, false) => (h :: mlist, false)

/-! ## Syncing a file -/

/-- `lfs_file_flush`, when writing out the data of the file comes to `written`. -/
def fileFlush (h : Handle) (written : Except Int Ctz) : Handle × Int :=
  let h := { h with flags := h.flags &&& ~~~flagReading }
  if h.has flagWriting then
    match written with
    | .error err => (h, err)
    | .ok ctz => ({ h with ctz, flags := h.flags &&& ~~~flagWriting ||| flagDirty }, errOk)
  else (h, errOk)

/-- The attributes that update the entry of a file. -/
def fileAttrs (h : Handle) : List Attr :=
  [if h.has flagInline then
      ⟨mkTag typeInlinestruct h.id h.ctz.size, .data (h.cache.take h.ctz.size)⟩
    else ⟨mkTag typeCtzstruct h.id 16, .data (toLe 8 h.ctz.head ++ toLe 8 h.ctz.size)⟩,
    ⟨mkTag fromUserattrs h.id h.attrs.length, .userattrs h.attrs⟩]

/-- `lfs_file_rawsync` up to its commit, with the attributes it commits. -/
def fileRawsync (h : Handle) (written : Except Int Ctz) : Handle × Option (List Attr) :=
  -- it's not safe to do anything if our file errored
  if h.has flagErred then (h, none)
  else
    let (h, err) := fileFlush h written
    if err ≠ errOk then ({ h with flags := h.flags ||| flagErred }, none)
    else if h.has flagDirty ∧ pairIsnull h.metadata.pair = false then (h, some (fileAttrs h))
    else (h, none)

/-! ## The file system -/

/-- What the code below sees of a mounted file system. `opened` is the next serial number, and
`commits` lists the commits that syncs have made, with the handle and its pair. -/
structure Fs where
  dev : Device
  blockCount : Nat
  gdisk : GState
  mlist : List Handle
  opened : Nat
  commits : List (Nat × BlockPair × List Attr)
  blockCount_le : blockCount ≤ blockNull

/-- What a commit leaves: the directory it was made into, and the disk. -/
structure Committing where
  dir : MetadataDir
  dev : Device
  gdisk : GState

/-- A `lfs_dir_relocating_commit` that reached the disk; `false` when a fixup behind it fails. -/
def Fs.commit (s : Fs) (owner : Option Nat) (pair : BlockPair) (attrs : List Attr)
    (c : Committing) : Fs × Bool :=
  let fixed := fixMlist (fixHandle c.dev s.blockCount c.gdisk owner pair c.dir attrs) s.mlist
  ({ s with dev := c.dev, gdisk := c.gdisk, mlist := fixed.1 }, fixed.2)

def Fs.update (s : Fs) (serial : Nat) (f : Handle → Handle) : Fs :=
  { s with mlist := s.mlist.map fun h => if h.serial = serial then f h else h }

/-- `lfs_file_rawsync` of the handle with this serial number. -/
def Fs.sync (s : Fs) (serial : Nat) (written : Except Int Ctz) (c : Committing) : Fs :=
  match s.mlist.find? (·.serial == serial) with
  | none => s
  | some h =>
    let s := s.update serial fun h => (fileRawsync h written).1
    match (fileRawsync h written).2 with
    | none => s
    | some attrs =>
      let s := { s with commits := s.commits ++ [(serial, h.metadata.pair, attrs)] }
      match s.commit (some serial) h.metadata.pair attrs c with
      | (s, true) => s.update serial fun h => { h with flags := h.flags &&& ~~~flagDirty }
      | (s, false) => s.update serial fun h => { h with flags := h.flags ||| flagErred }

/-- What happens in a file system, as far as the list of handles sees it. -/
inductive FsEvent where
  /-- A commit into a pair that was fetched by its own. -/
  | commit (pair : BlockPair) (attrs : List Attr) (c : Committing)
  /-- The relocation of a fetched pair. -/
  | relocate (pair newpair : BlockPair)
  | «open» (h : Handle)
  | sync (serial : Nat) (written : Except Int Ctz) (c : Committing)
  | close (serial : Nat) (written : Except Int Ctz) (c : Committing)
  /-- Reads, writes, seeks and truncations of a file. -/
  | access (serial : Nat) (ctz : Ctz) (flags : BitVec 32) (cache : List UInt8)
  /-- Reads and seeks of a directory. -/
  | dirRead (serial : Nat) (metadata : MetadataDir) (id : Nat) (pos : BitVec 64)

/-- The check that every fetch starts with. -/
def Fs.InRange (s : Fs) (pair : BlockPair) : Prop :=
  pair.1 < s.blockCount ∧ pair.2 < s.blockCount

instance (s : Fs) (pair : BlockPair) : Decidable (s.InRange pair) :=
  inferInstanceAs (Decidable (_ ∧ _))

def Fs.step (s : Fs) : FsEvent → Fs
  | .commit pair attrs c => if s.InRange pair then (s.commit none pair attrs c).1 else s
  | .relocate pair newpair =>
    if s.InRange pair then
      { s with mlist := s.mlist.map fun h => { h with
          metadata := if pairCmp pair h.metadata.pair = false then
            { h.metadata with pair := newpair } else h.metadata
          head := if h.type = typeDir ∧ pairCmp pair h.head = false then newpair else h.head } }
    else s
  | .open h => { s with mlist := { h with serial := s.opened } :: s.mlist, opened := s.opened + 1 }
  | .sync serial written c => s.sync serial written c
  | .close serial written c =>
    let s := s.sync serial written c
    { s with mlist := s.mlist.filter (·.serial ≠ serial) }
  | .access serial ctz flags cache => s.update serial fun h => { h with ctz, flags, cache }
  | .dirRead serial metadata id pos =>
    s.update serial fun h => if h.type = typeDir then { h with metadata, id, pos } else h

def Fs.run (s : Fs) (events : List FsEvent) : Fs := events.foldl Fs.step s

/-! ## Removing a file -/

/-- How the commit of a removal was written: into the pair and its place on disk, and where it was
split if the compaction was. -/
structure Removing where
  pair : BlockPair
  log : List LogEntry
  splitAt : Option (Nat × BlockPair)
  dev : Device
  gdisk : GState

/-- The directory behind a removal. -/
def Removing.dir (o : Removing) (cwd : MetadataDir) : MetadataDir :=
  match o.splitAt with
  | none => { cwd with pair := o.pair, log := o.log, count := cwd.count - 1 }
  | some (split, tail) => ⟨o.pair, o.log, split, true, tail⟩

/-- `lfs_raw_remove` of a file, which `lfs_dir_find` has found under `tag` in `cwd`, when its commit
reaches the disk. -/
def Fs.rawRemove (s : Fs) (cwd : MetadataDir) (tag : Tag) (o : Removing) : Fs × Bool :=
  if tagId tag = 0x3ff then (s, false)
  else s.commit none cwd.pair [⟨mkTag typeDelete (tagId tag) 0, .null⟩]
    ⟨o.dir cwd, o.dev, o.gdisk⟩

/-- The removed entry is not the last one of a pair that continues in a hard tail, nor does the
compaction move its id to a new tail. -/
def StaysInPair (cwd : MetadataDir) (id : Nat) (splitAt : Option (Nat × BlockPair)) : Prop :=
  match splitAt with
  | none => id + 1 < cwd.count ∨ cwd.split = false
  | some (split, _) => id < split

instance (cwd : MetadataDir) (id : Nat) (splitAt : Option (Nat × BlockPair)) :
    Decidable (StaysInPair cwd id splitAt) :=
  match splitAt with
  | none => inferInstanceAs (Decidable (_ ∨ _))
  | some (split, _) => inferInstanceAs (Decidable (id < split))

/-! ## What the fixups leave alone -/

@[simp] theorem fixAttr_serial (h : Handle) (a : Attr) : (fixAttr h a).serial = h.serial := by
  unfold fixAttr
  split_ifs <;> rfl

@[simp] theorem fixAttr_type (h : Handle) (a : Attr) : (fixAttr h a).type = h.type := by
  unfold fixAttr
  split_ifs <;> rfl

theorem foldl_fixAttr (attrs : List Attr) (h : Handle) :
    (attrs.foldl fixAttr h).serial = h.serial ∧ (attrs.foldl fixAttr h).type = h.type := by
  induction attrs generalizing h with
  | nil => exact ⟨rfl, rfl⟩
  | cons a attrs ih =>
    obtain ⟨hserial, htype⟩ := ih (fixAttr h a)
    exact ⟨hserial.trans (fixAttr_serial h a), htype.trans (fixAttr_type h a)⟩

section
variable (dev : Device) (blockCount : Nat) (gdisk : GState)

theorem followSplit_same (fuel : Nat) (h : Handle) :
    (followSplit dev blockCount gdisk fuel h).1.serial = h.serial ∧
      (followSplit dev blockCount gdisk fuel h).1.type = h.type := by
  induction fuel generalizing h with
  | zero =>
    rw [followSplit]
    split <;> exact ⟨rfl, rfl⟩
  | succ fuel ih =>
    rw [followSplit]
    split
    · dsimp only
      split
      · exact ⟨rfl, rfl⟩
      · exact ih _
    · exact ⟨rfl, rfl⟩

theorem fixHandle_same (owner : Option Nat) (pair : BlockPair) (dir : MetadataDir)
    (attrs : List Attr) (h : Handle) :
    (fixHandle dev blockCount gdisk owner pair dir attrs h).1.serial = h.serial ∧
      (fixHandle dev blockCount gdisk owner pair dir attrs h).1.type = h.type := by
  rw [fixHandle]
  split
  · have hfollow := followSplit_same dev blockCount gdisk blockCount
      (if owner = some h.serial then { h with metadata := dir }
        else attrs.foldl fixAttr { h with metadata := dir })
    obtain ⟨hserial, htype⟩ := foldl_fixAttr attrs { h with metadata := dir }
    refine ⟨hfollow.1.trans ?_, hfollow.2.trans ?_⟩
    · split
      · rfl
      · exact hserial
    · split
      · rfl
      · exact htype
  · exact ⟨rfl, rfl⟩

end

theorem pairCmp_pairNull (h : pairIsnull pair = false) : pairCmp pairNull pair = true := by
  simp only [pairIsnull, Bool.or_eq_false_iff, beq_eq_false_iff_ne] at h
  rw [← Bool.not_eq_false, pairCmp_eq_false, SharesBlock, pairNull]
  rintro (h' | h' | h' | h')
  · exact h.1 h'.symm
  · exact h.2 h'.symm
  · exact h.2 h'.symm
  · exact h.1 h'.symm

theorem fixHandle_pairNull {h : Handle} (hnull : h.metadata.pair = pairNull)
    (hpair : pairIsnull pair = false) (dev : Device) (blockCount : Nat) (gdisk : GState)
    (owner : Option Nat) (dir : MetadataDir) (attrs : List Attr) :
    fixHandle dev blockCount gdisk owner pair dir attrs h = (h, true) := by
  rw [fixHandle, hnull, pairCmp_pairNull hpair, if_neg (by decide)]

/-- Every handle behind the fixups is an old one, fixed or not. -/
theorem exists_of_mem_fixMlist {fix : Handle → Handle × Bool} (h : h' ∈ (fixMlist fix mlist).1) :
    ∃ h ∈ mlist, h' = h ∨ h' = (fix h).1 := by
  induction mlist with
  | nil => cases h
  | cons a mlist ih =>
    have hrest : (∃ h ∈ mlist, h' = h ∨ h' = (fix h).1) →
        ∃ h ∈ a :: mlist, h' = h ∨ h' = (fix h).1 :=
      fun ⟨h, hmem, hor⟩ => ⟨h, .tail _ hmem, hor⟩
    rw [fixMlist] at h
    split at h
    · rename_i b hfix
      rcases List.mem_cons.mp h with rfl | h
      · exact ⟨a, .head _, .inr (by rw [hfix])⟩
      · exact hrest (ih h)
    · rename_i b hfix
      rcases List.mem_cons.mp h with rfl | h
      · exact ⟨a, .head _, .inr (by rw [hfix])⟩
      · exact hrest ⟨h', h, .inl rfl⟩

/-- When no fixup fails, every handle is fixed. -/
theorem fixMlist_eq_map {fix : Handle → Handle × Bool} (hok : (fixMlist fix mlist).2 = true) :
    (∀ h ∈ mlist, (fix h).2 = true) ∧ (fixMlist fix mlist).1 = mlist.map fun h => (fix h).1 := by
  induction mlist with
  | nil => exact ⟨fun h hmem => (nomatch hmem), rfl⟩
  | cons a mlist ih =>
    rw [fixMlist] at hok ⊢
    split at hok
    · rename_i b hfix
      obtain ⟨htrue, hmap⟩ := ih hok
      refine ⟨List.forall_mem_cons.mpr ⟨by rw [hfix], htrue⟩, ?_⟩
      rw [hmap, List.map_cons, hfix]
    · cases hok

/-! ## Detached handles -/

/-- The handle stands for a removed file: its pair is null. -/
def Detached (serial : Nat) (s : Fs) : Prop :=
  ∀ h ∈ s.mlist, h.serial = serial → h.type = typeReg ∧ h.metadata.pair = pairNull

/-- The commits that syncs of the handle have made. -/
def commitsOf (serial : Nat) (s : Fs) : List (Nat × BlockPair × List Attr) :=
  s.commits.filter (·.1 = serial)

theorem Detached.commit (H : Detached serial s) (hpair : pairIsnull pair = false)
    (owner : Option Nat) (attrs : List Attr) (c : Committing) :
    Detached serial (s.commit owner pair attrs c).1 := by
  intro h' hmem' hserial
  obtain ⟨h, hmem, rfl | rfl⟩ := exists_of_mem_fixMlist hmem'
  · exact H h' hmem hserial
  · have hsame := fixHandle_same c.dev s.blockCount c.gdisk owner pair c.dir attrs h
    obtain ⟨htype, hnull⟩ := H h hmem (hsame.1.symm.trans hserial)
    rw [fixHandle_pairNull hnull hpair]
    exact ⟨htype, hnull⟩

theorem Detached.update (H : Detached serial s) (other : Nat) {f : Handle → Handle}
    (hf : ∀ h, (f h).serial = h.serial ∧ (f h).type = h.type ∧
      (h.type = typeReg → (f h).metadata = h.metadata)) :
    Detached serial (s.update other f) := by
  intro h' hmem' hserial
  obtain ⟨h, hmem, rfl⟩ := List.mem_map.mp hmem'
  obtain ⟨hserial', htype', hmetadata⟩ := hf h
  by_cases heq : h.serial = other
  · rw [if_pos heq] at hserial ⊢
    obtain ⟨htype, hnull⟩ := H h hmem (hserial'.symm.trans hserial)
    exact ⟨htype'.trans htype, by rw [hmetadata htype, hnull]⟩
  · rw [if_neg heq] at hserial ⊢
    exact H h hmem hserial

theorem fileFlush_same (h : Handle) (written : Except Int Ctz) :
    (fileFlush h written).1.serial = h.serial ∧ (fileFlush h written).1.type = h.type ∧
      (fileFlush h written).1.metadata = h.metadata := by
  unfold fileFlush
  dsimp only
  split
  · split <;> exact ⟨rfl, rfl, rfl⟩
  · exact ⟨rfl, rfl, rfl⟩

theorem fileRawsync_same (h : Handle) (written : Except Int Ctz) :
    (fileRawsync h written).1.serial = h.serial ∧ (fileRawsync h written).1.type = h.type ∧
      (fileRawsync h written).1.metadata = h.metadata := by
  have hflush := fileFlush_same h written
  unfold fileRawsync
  split
  · exact ⟨rfl, rfl, rfl⟩
  · dsimp only
    split
    · exact hflush
    · split <;> exact hflush

/-- A sync commits nothing for a handle with a null pair. -/
theorem fileRawsync_commits {h : Handle} (hcommit : (fileRawsync h written).2 = some attrs) :
    pairIsnull h.metadata.pair = false := by
  have hflush := (fileFlush_same h written).2.2
  unfold fileRawsync at hcommit
  split at hcommit
  · cases hcommit
  · dsimp only at hcommit
    split at hcommit
    · cases hcommit
    · split at hcommit
      · rw [← hflush]
        exact (‹_ ∧ _› : _ ∧ pairIsnull _ = false).2
      · cases hcommit

theorem Detached.sync (H : Detached serial s) (other : Nat) (written : Except Int Ctz)
    (c : Committing) : Detached serial (s.sync other written c) ∧
      commitsOf serial (s.sync other written c) = commitsOf serial s := by
  unfold Fs.sync
  split
  · exact ⟨H, rfl⟩
  · rename_i h hfind
    have hserial := List.find?_some hfind
    replace hserial : h.serial = other := beq_iff_eq.mp hserial
    have H' := H.update other (f := fun h => (fileRawsync h written).1) fun h =>
      have hsame := fileRawsync_same h written
      ⟨hsame.1, hsame.2.1, fun _ => hsame.2.2⟩
    dsimp only
    split
    · exact ⟨H', rfl⟩
    · rename_i attrs hcommit
      have hpair := fileRawsync_commits hcommit
      have hne : other ≠ serial := by
        rintro rfl
        obtain ⟨_, hnull⟩ := H h (List.mem_of_find?_eq_some hfind) hserial
        rw [hnull] at hpair
        cases hpair
      have hcommits : (s.commits ++ [(other, h.metadata.pair, attrs)]).filter (·.1 = serial) =
          commitsOf serial s := by
        rw [List.filter_append, List.filter_singleton]
        simp only [hne, decide_false, cond_false, List.append_nil, commitsOf]
      have H'' := Detached.commit (s := { s.update other fun h => (fileRawsync h written).1 with
        commits := s.commits ++ [(other, h.metadata.pair, attrs)] }) H' hpair (some other) attrs c
      split
      all_goals
        rename_i s' hs'
        have hmlist := congrArg Prod.fst hs'
        dsimp only at hmlist
        subst hmlist
        exact ⟨H''.update other fun _ => ⟨rfl, rfl, fun _ => rfl⟩, hcommits⟩

theorem Fs.sync_opened (s : Fs) (other : Nat) (written : Except Int Ctz) (c : Committing) :
    (s.sync other written c).opened = s.opened := by
  unfold sync
  split
  · rfl
  · dsimp only
    split
    · rfl
    · split
      all_goals
        rename_i s' hs'
        exact congrArg (fun p => p.1.opened) hs'.symm

theorem Fs.InRange.not_null {s : Fs} (h : s.InRange pair) : pairIsnull pair = false := by
  have hle := s.blockCount_le
  obtain ⟨h1, h2⟩ := h
  have hne1 : pair.1 ≠ blockNull := by omega
  have hne2 : pair.2 ≠ blockNull := by omega
  simp only [pairIsnull, beq_eq_false_iff_ne.mpr hne1, beq_eq_false_iff_ne.mpr hne2, Bool.or_self]

/-- One step. -/
theorem Detached.step (H : Detached serial s) (hlt : serial < s.opened) (e : FsEvent) :
    Detached serial (s.step e) ∧ commitsOf serial (s.step e) = commitsOf serial s ∧
      serial < (s.step e).opened := by
  cases e with
  | commit pair attrs c =>
    rw [Fs.step]
    split
    · exact ⟨H.commit (‹s.InRange pair›).not_null none attrs c, rfl, hlt⟩
    · exact ⟨H, rfl, hlt⟩
  | relocate pair newpair =>
    rw [Fs.step]
    split
    · refine ⟨fun h' hmem' hserial => ?_, rfl, hlt⟩
      obtain ⟨h, hmem, rfl⟩ := List.mem_map.mp hmem'
      obtain ⟨htype, hnull⟩ := H h hmem hserial
      have hcmp : pairCmp pair h.metadata.pair = true := by
        rw [← Bool.not_eq_false, pairCmp_eq_false]
        have hnot := pairCmp_pairNull (‹s.InRange pair›).not_null
        rw [← Bool.not_eq_false, pairCmp_eq_false] at hnot
        rw [hnull]
        simp only [SharesBlock] at hnot ⊢
        omega
      refine ⟨htype, ?_⟩
      dsimp only
      rw [if_neg (by rw [hcmp]; decide), hnull]
    · exact ⟨H, rfl, hlt⟩
  | «open» h =>
    refine ⟨fun h' hmem hserial => ?_, rfl, Nat.lt_succ_of_lt hlt⟩
    rcases List.mem_cons.mp hmem with rfl | hmem
    · exact absurd hserial (Nat.ne_of_gt hlt)
    · exact H h' hmem hserial
  | sync other written c =>
    obtain ⟨H, hcommits⟩ := H.sync other written c
    exact ⟨H, hcommits, by rwa [Fs.step, Fs.sync_opened]⟩
  | close other written c =>
    obtain ⟨H, hcommits⟩ := H.sync other written c
    refine ⟨fun h hmem hserial => ?_, hcommits, ?_⟩
    · exact H h (List.mem_filter.mp hmem).1 hserial
    · rw [Fs.step]
      exact lt_of_lt_of_eq hlt (Fs.sync_opened ..).symm
  | access other ctz flags cache =>
    exact ⟨H.update other fun _ => ⟨rfl, rfl, fun _ => rfl⟩, rfl, hlt⟩
  | dirRead other metadata id pos =>
    refine ⟨H.update other fun h => ?_, rfl, hlt⟩
    split
    · exact ⟨rfl, rfl, fun hreg => by
        rw [‹h.type = typeDir›] at hreg
        cases hreg⟩
    · exact ⟨rfl, rfl, fun _ => rfl⟩

/-- Every later run. -/
theorem Detached.run (H : Detached serial s) (hlt : serial < s.opened) (events : List FsEvent) :
    Detached serial (s.run events) ∧ commitsOf serial (s.run events) = commitsOf serial s := by
  induction events generalizing s with
  | nil => exact ⟨H, rfl⟩
  | cons e events ih =>
    obtain ⟨H, hcommits, hlt⟩ := H.step hlt e
    obtain ⟨H, hcommits'⟩ := ih H hlt
    exact ⟨H, hcommits'.trans hcommits⟩

/-! ## The removal -/

theorem fixAttr_delete {h : Handle} {tag : Tag} (hid : h.id = tagId tag) :
    fixAttr h ⟨mkTag typeDelete (tagId tag) 0, .null⟩ =
      { h with metadata := { h.metadata with pair := pairNull } } := by
  obtain ⟨hty, hid', _⟩ := mkTag_fields (show typeDelete < 2 ^ 11 by decide) (tagId_lt tag)
    (show 0 < 2 ^ 10 by decide)
  have hvalid : tagIsValid (mkTag typeDelete (tagId tag) 0) = true := by
    have hlt := tagId_lt tag
    rw [tagIsValid_iff, mkTag_toNat (by decide) hlt (by decide), typeDelete]
    omega
  rw [fixAttr, if_pos ⟨(tagType3_of_valid hvalid).trans hty, by rw [hid', hid]⟩]

theorem staysInPair_iff (o : Removing) (cwd : MetadataDir) (id : Nat) :
    StaysInPair cwd id o.splitAt ↔
      ¬ (id ≥ (o.dir cwd).count ∧ (o.dir cwd).split = true) := by
  unfold StaysInPair Removing.dir
  cases o.splitAt with
  | none =>
    simp only [not_and, Bool.not_eq_true]
    cases cwd.split
    · simp only [or_true, implies_true]
    · simp only [Bool.true_eq_false, or_false, imp_false]
      omega
  | some p => simp only [ge_iff_le, and_true, not_le]

/-- The fixup of a handle on the removed file. -/
theorem fixHandle_removed {cwd : MetadataDir} (hpair : SharesBlock h.metadata.pair cwd.pair)
    (hid : h.id = tagId tag)
    (dev : Device) (blockCount : Nat) (gdisk : GState) (dir : MetadataDir) :
    fixHandle dev blockCount gdisk none cwd.pair dir
        [⟨mkTag typeDelete (tagId tag) 0, .null⟩] h =
      followSplit dev blockCount gdisk blockCount
        { h with metadata := { dir with pair := pairNull } } := by
  rw [fixHandle, if_pos (pairCmp_eq_false.mpr hpair)]
  dsimp only
  rw [if_neg (by simp), List.foldl_cons, List.foldl_nil]
  exact congrArg _ (fixAttr_delete (h := { h with metadata := dir }) hid)

/-- A fetch leaves the pair that it read. -/
def ReadsPair (dev : Device) : Prop :=
  ∀ pair pair' log, dev pair = some (pair', log) → pair' = pair ∨ pair' = pair.swap

theorem dirFetch_not_null (hdev : ReadsPair dev) (hle : blockCount ≤ blockNull)
    (h : dirFetch dev blockCount gdisk pair = some dir) : pairIsnull dir.pair = false := by
  rw [dirFetch, Option.map_eq_some_iff] at h
  obtain ⟨⟨dir, res⟩, h, rfl⟩ := h
  rw [dirFetchmatch] at h
  split at h
  · cases h
  · split at h
    · cases h
    · rename_i hrange _ pair' log hread
      have hdir : dir.pair = pair' := by
        dsimp only at h
        split_ifs at h <;> cases h <;> rfl
      have hne : ∀ b, b < blockCount → (b == blockNull) = false := fun b hb =>
        beq_eq_false_iff_ne.mpr (by omega)
      have h1 := hne pair.1 (by omega)
      have h2 := hne pair.2 (by omega)
      rw [pairIsnull, hdir]
      rcases hdev pair pair' log hread with rfl | rfl
      · rw [h1, h2, Bool.or_self]
      · rw [Prod.fst_swap, Prod.snd_swap, h1, h2, Bool.or_self]

theorem followSplit_stays (h : Handle)
    (hstay : ¬ (h.id ≥ h.metadata.count ∧ h.metadata.split = true))
    (dev : Device) (blockCount : Nat) (gdisk : GState) (fuel : Nat) :
    followSplit dev blockCount gdisk fuel h = (h, true) := by
  cases fuel <;> rw [followSplit, if_neg hstay]

/-- A handle that was followed to another pair is on this pair. -/
theorem followSplit_not_null (hdev : ReadsPair dev) (hle : blockCount ≤ blockNull)
    (hok : (followSplit dev blockCount gdisk fuel h).2 = true)
    (hmoves : (h.id ≥ h.metadata.count ∧ h.metadata.split = true) ∨
      pairIsnull h.metadata.pair = false) :
    pairIsnull (followSplit dev blockCount gdisk fuel h).1.metadata.pair = false := by
  induction fuel generalizing h with
  | zero =>
    rw [followSplit] at hok ⊢
    split at hok
    · cases hok
    · rw [if_neg ‹_›]
      exact hmoves.resolve_left ‹_›
  | succ fuel ih =>
    rw [followSplit] at hok ⊢
    split at hok
    · rw [if_pos ‹_›]
      dsimp only at hok ⊢
      cases hfetch : dirFetch dev blockCount gdisk h.metadata.tail with
      | none =>
        rw [hfetch] at hok
        cases hok
      | some metadata =>
        rw [hfetch] at hok
        exact ih hok (.inr (dirFetch_not_null hdev hle hfetch))
    · rw [if_neg ‹_›]
      exact hmoves.resolve_left ‹_›

/-- **Removed open files.** Behind the removal of its file, a handle stays detached and commits
nothing in every run if and only if the removed entry stays in its pair. -/
theorem rawRemove_detached_iff {s : Fs} (hmem : h ∈ s.mlist) (hreg : h.type = typeReg)
    (hserial : h.serial < s.opened)
    (hunique : ∀ h' ∈ s.mlist, h'.serial = h.serial → h' = h)
    (hpair : SharesBlock h.metadata.pair cwd.pair) (hid : h.id = tagId tag)
    (hdev : ReadsPair o.dev) (hremove : s.rawRemove cwd tag o = (s', true)) :
    (∀ events, Detached h.serial (s'.run events) ∧
      commitsOf h.serial (s'.run events) = commitsOf h.serial s') ↔
    StaysInPair cwd (tagId tag) o.splitAt := by
  rw [Fs.rawRemove] at hremove
  split at hremove
  · cases hremove
  · obtain ⟨rfl, hok⟩ := Prod.mk.inj hremove
    have hfix := fixHandle_removed hpair hid o.dev s.blockCount o.gdisk (o.dir cwd)
    obtain ⟨htrue, hmap⟩ := fixMlist_eq_map hok
    have htrue := htrue h hmem
    rw [hfix] at htrue
    rw [staysInPair_iff]
    constructor
    · intro H hmoves
      have hfixed : (fixHandle o.dev s.blockCount o.gdisk none cwd.pair (o.dir cwd)
          [⟨mkTag typeDelete (tagId tag) 0, .null⟩] h).1 ∈
          (s.commit none cwd.pair [⟨mkTag typeDelete (tagId tag) 0, .null⟩]
            ⟨o.dir cwd, o.dev, o.gdisk⟩).1.mlist := by
        rw [Fs.commit, hmap]
        exact List.mem_map.mpr ⟨h, hmem, rfl⟩
      obtain ⟨_, hnull⟩ := (H []).1 _ hfixed (fixHandle_same ..).1
      rw [hfix] at hnull
      have hnot := followSplit_not_null hdev s.blockCount_le htrue (.inl (by rwa [hid]))
      rw [hnull] at hnot
      cases hnot
    · intro hstays
      have H : Detached h.serial (s.commit none cwd.pair
          [⟨mkTag typeDelete (tagId tag) 0, .null⟩] ⟨o.dir cwd, o.dev, o.gdisk⟩).1 := by
        intro h' hmem' hserial'
        rw [Fs.commit, hmap] at hmem'
        obtain ⟨h₀, hmem₀, rfl⟩ := List.mem_map.mp hmem'
        obtain rfl := hunique h₀ hmem₀ ((fixHandle_same ..).1.symm.trans hserial')
        rw [hfix, followSplit_stays _ (by rwa [hid])]
        exact ⟨hreg, rfl⟩
      exact fun events => H.run hserial events

/-- A directory of three files, the third in a second pair. -/
def splitDev : Device := fun pair =>
  if pair = (2, 3) then
    some (pair, [⟨mkTag typeCreate 0 0, []⟩, ⟨mkTag typeReg 0 1, [97]⟩, ⟨mkTag typeCreate 1 0, []⟩,
      ⟨mkTag typeReg 1 1, [98]⟩, ⟨mkTag typeHardtail 0x3ff 16, pairToLe64 (4, 5)⟩])
  else if pair = (4, 5) then
    some (pair, [⟨mkTag typeCreate 0 0, []⟩, ⟨mkTag typeReg 0 1, [99]⟩,
      ⟨mkTag typeInlinestruct 0 1, [7]⟩])
  else none

def splitDir : MetadataDir := ⟨(2, 3), [], 2, true, (4, 5)⟩

/-- A written inline file under the given id. -/
def dirtyHandle (id : Nat) : Handle :=
  { serial := 0, id, type := typeReg, metadata := splitDir, ctz := ⟨0, 1⟩,
    flags := flagDirty ||| flagInline, cache := [1] }

def splitFs (id : Nat) : Fs := ⟨splitDev, 8, {}, [dirtyHandle id], 1, [], by decide⟩

/-- The removal is appended to the pair. -/
def appended : Removing := ⟨(2, 3), [], none, splitDev, {}⟩

theorem splitDev_readsPair : ReadsPair splitDev := by
  intro pair pair' log h
  unfold splitDev at h
  split_ifs at h <;> cases h <;> exact .inl rfl

/-- The file system behind the removal of file `id`. -/
def removedFs (id : Nat) : Fs × Bool :=
  (splitFs id).rawRemove splitDir (mkTag typeReg id 1) appended

theorem rawRemove_detached_first :
    (∀ events, Detached 0 ((removedFs 0).1.run events) ∧
      commitsOf 0 ((removedFs 0).1.run events) = commitsOf 0 (removedFs 0).1) ↔
    StaysInPair splitDir (tagId (mkTag typeReg 0 1)) none :=
  rawRemove_detached_iff (h := dirtyHandle 0) (s := splitFs 0) (.head _) rfl (by decide)
    (fun _ h _ => List.mem_singleton.mp h) (.inl rfl) (by decide) splitDev_readsPair
    (Prod.ext rfl (by decide))

/-- The last file of the first pair: its handle ends up on the first file of the second pair, and
the next sync writes the contents of the removed file there. -/
theorem rawRemove_detached_fails :
    (removedFs 1).2 = true ∧
    (removedFs 1).1.mlist.map (fun h => (h.id, h.metadata.pair)) = [(0, (4, 5))] ∧
    ((removedFs 1).1.run
      [.sync 0 (.ok ⟨0, 1⟩)
        ⟨⟨(4, 5), [], 1, false, (blockNull, blockNull)⟩, splitDev, {}⟩]).commits =
      [(0, (4, 5), [⟨mkTag typeInlinestruct 0 1, .data [1]⟩,
        ⟨mkTag fromUserattrs 0 0, .userattrs []⟩])] :=
  ⟨by decide, by decide, by decide⟩

end LittleFs
