import LittleFs.RenameAtomic
import LittleFs.Lib.StackWalk
import Mathlib.Data.List.Sublists

/-! `lfs_dir_find`: the names of a path are looked up one after another. A name that a `..` behind
it takes back is skipped, and the scan for this `..` counts the `.` components as names. -/

namespace LittleFs

open StackWalk

/-! ## The names of a path -/

/-- `strspn(s, "/")`. -/
def strspn (s : List UInt8) : Nat := (s.takeWhile (· == slash)).length

/-- `strcspn(s, "/")`. -/
def strcspn (s : List UInt8) : Nat := (s.takeWhile (· != slash)).length

theorem strcspn_le (s : List UInt8) : strcspn s ≤ s.length := (List.takeWhile_sublist _).length_le

theorem length_drop_strcspn (h : strcspn s ≠ 0) : (s.drop (strcspn s)).length < s.length := by
  have := strcspn_le s
  rw [List.length_drop]
  omega

/-- The scan for the `..` that takes back a name: what follows it. -/
def skipMatched (suffix : List UInt8) (depth : Nat) : Option (List UInt8) :=
  let suffix' := suffix.drop (strspn suffix)
  let sufflen := strcspn suffix'
  if h : sufflen = 0 then none
  else if sufflen = 2 ∧ suffix'.take 2 = dotdotName then
    if depth - 1 = 0 then some (suffix'.drop sufflen)
    else skipMatched (suffix'.drop sufflen) (depth - 1)
  else skipMatched (suffix'.drop sufflen) (depth + 1)
termination_by suffix.length
decreasing_by
  all_goals exact (length_drop_strcspn h).trans_le (List.drop_sublist ..).length_le

theorem length_skipMatched (h : skipMatched suffix depth = some rest) :
    rest.length < suffix.length := by
  fun_induction skipMatched suffix depth with
  | case1 => cases h
  | case2 suffix depth suffix' sufflen hlen =>
    cases h
    exact (length_drop_strcspn hlen).trans_le (List.drop_sublist ..).length_le
  | case3 suffix depth suffix' sufflen hlen _ _ ih | case4 suffix depth suffix' sufflen hlen _ ih =>
    exact ((ih h).trans (length_drop_strcspn hlen)).trans_le (List.drop_sublist ..).length_le

/-- The rounds of `lfs_dir_find` up to the next name that it looks up. -/
def nextName (name : List UInt8) : List UInt8 :=
  -- skip slashes
  let name' := name.drop (strspn name)
  let namelen := strcspn name'
  -- skip '.' and root '..'
  if _hdots : namelen = 1 ∧ name'.take 1 = dotName ∨ namelen = 2 ∧ name'.take 2 = dotdotName then
    nextName (name'.drop namelen)
  else
    -- skip if matched by '..' in name
    match _hskip : skipMatched (name'.drop namelen) 1 with
    | some rest => nextName rest
    | none => name'
termination_by name.length
decreasing_by
  · have hlen : namelen ≠ 0 := by omega
    exact (length_drop_strcspn hlen).trans_le (List.drop_sublist ..).length_le
  · have := length_skipMatched _hskip
    have := (List.drop_sublist namelen name').length_le
    have hle : name'.length ≤ name.length := (List.drop_sublist ..).length_le
    omega

theorem length_nextName (name : List UInt8) : (nextName name).length ≤ name.length := by
  fun_induction nextName name with
  | case1 name name' namelen _ ih =>
    exact ih.trans ((List.drop_sublist ..).trans (List.drop_sublist ..)).length_le
  | case2 name name' namelen _ rest hskip ih =>
    have := length_skipMatched hskip
    have := (List.drop_sublist namelen name').length_le
    have hle : name'.length ≤ name.length := (List.drop_sublist ..).length_le
    omega
  | case3 => exact (List.drop_sublist ..).length_le

theorem take_takeWhile (p : α → Bool) (l : List α) :
    l.take (l.takeWhile p).length = l.takeWhile p :=
  (List.prefix_iff_eq_take.mp (List.takeWhile_prefix p)).symm

theorem drop_takeWhile (p : α → Bool) (l : List α) :
    l.drop (l.takeWhile p).length = l.dropWhile p := by
  have h : l.takeWhile p ++ l.drop (l.takeWhile p).length = l.takeWhile p ++ l.dropWhile p := by
    conv_lhs => arg 1; rw [← take_takeWhile p l]
    rw [List.take_append_drop, List.takeWhile_append_dropWhile]
  exact List.append_cancel_left h

/-- Behind slashes there is a name, or the end. -/
theorem strcspn_drop_strspn {s : List UInt8} (h : strcspn (s.drop (strspn s)) = 0) :
    s.drop (strspn s) = [] := by
  rw [strspn, drop_takeWhile] at h ⊢
  cases hs : s.dropWhile (· == slash) with
  | nil => rfl
  | cons a rest =>
    have ha := List.head?_dropWhile_not (· == slash) s
    rw [hs] at ha h
    replace ha : (a == slash) = false := ha
    rw [strcspn, List.takeWhile_cons_of_pos (by rw [bne, ha]; rfl)] at h
    cases h

theorem strcspn_nextName (name : List UInt8) (h : strcspn (nextName name) = 0) :
    nextName name = [] := by
  fun_induction nextName name with
  | case1 name name' namelen _ ih => exact ih h
  | case2 name name' namelen _ rest _ ih => exact ih h
  | case3 => exact strcspn_drop_strspn h

/-! ## The lookup -/

section

variable (dev : Device) (blockCount : Nat) (gdisk : GState)

/-- The directory to look in: the root, or the one whose entry was found last. -/
def enterDir (dir : MetadataDir) (tag : Tag) : Except Int MetadataDir :=
  -- only continue if we hit a directory
  if tagType3 tag ≠ typeDir then .error errNotdir
  else if tagId tag = 0x3ff then .ok dir
  else
    -- grab the entry data
    match dirGet gdisk dir (mkTag typeGlobals 0x3ff 0) (mkTag typeStruct (tagId tag) 16) with
    | .error err => .error err
    | .ok (_, data) => .ok { dir with tail := pairFromLe64 data }

/-- The loop over the pairs of a directory: what it has fetched, `*id` and the tag or the error.
`none` when the fuel runs out. -/
def findEntry (name : List UInt8) (last : Bool) :
    (fuel : Nat) → (dir : MetadataDir) → (id : Nat) → Option (MetadataDir × Nat × Except Int Tag)
  | 0, _, _ => none
  | fuel + 1, dir, id =>
    let fmask := mkTag 0x780 0 0
    let ftag := mkTag typeName 0 name.length
    match dirFetchmatch dev blockCount gdisk dir.tail fmask ftag (dirFindMatch name) with
    | none => some (dir, id, .error errCorrupt)
    | some (found, res) =>
      -- are we last name?
      let id := if last then
          (dirFetchmatchId dev blockCount gdisk dir.tail fmask ftag (dirFindMatch name)).getD id
        else id
      match res with
      | .noent => some (found, id, .error errNoent)
      | .tag tag =>
        if tag ≠ 0#32 then some (found, id, .ok tag)
        else if found.split = false then some (found, id, .error errNoent)
        else findEntry name last fuel found id
      | .ok =>
        if found.split = false then some (found, id, .error errNoent)
        else findEntry name last fuel found id

end

/-- What `lfs_dir_find` leaves in its arguments and returns. -/
structure FoundPath where
  dir : MetadataDir
  path : List UInt8
  id : Nat
  result : Except Int Tag

/-- The loop of `lfs_dir_find`, with the names that it looks up, over what it does to enter a
directory and to find an entry in it. -/
def dirFindLoop (enter : MetadataDir → Tag → Except Int MetadataDir)
    (find : List UInt8 → Bool → MetadataDir → Nat → Option (MetadataDir × Nat × Except Int Tag))
    (name : List UInt8) (dir : MetadataDir) (tag : Tag) (path : List UInt8) (id : Nat) :
    List (List UInt8) × Option FoundPath :=
  let name' := nextName name
  -- found path
  if _hend : name' = [] then ([], some ⟨dir, path, id, .ok tag⟩)
  else
    -- update what we've found so far
    let path := name'
    match enter dir tag with
    | .error err => ([], some ⟨dir, path, id, .error err⟩)
    | .ok dir =>
      let namelen := strcspn name'
      -- find entry matching name
      match find (name'.take namelen) (slash ∉ name') dir id with
      | none => ([name'.take namelen], none)
      | some (dir, id, .error err) => ([name'.take namelen], some ⟨dir, path, id, .error err⟩)
      | some (dir, id, .ok tag) =>
        -- to next name
        let rest := dirFindLoop enter find (name'.drop namelen) dir tag path id
        (name'.take namelen :: rest.1, rest.2)
termination_by name.length
decreasing_by
  exact (length_drop_strcspn (mt (strcspn_nextName name) _hend)).trans_le (length_nextName name)

/-- `lfs_dir_find`; a directory has at most `fuel` pairs. -/
def dirFind (dev : Device) (blockCount : Nat) (gdisk : GState) (fuel : Nat) (root : BlockPair)
    (dir : MetadataDir) (path : List UInt8) : List (List UInt8) × Option FoundPath :=
  -- default to root dir
  dirFindLoop (enterDir gdisk) (findEntry dev blockCount gdisk · · fuel) path
    { dir with tail := root } (mkTag typeDir 0x3ff 0) path 0x3ff

/-! ## Components -/

def components (path : List UInt8) : List (List UInt8) := (path.splitOn slash).filter (· ≠ [])

theorem components_slash (s : List UInt8) : components (slash :: s) = components s := by
  rw [components, List.splitOn_cons_eq_if_modifyHead, if_pos (beq_self_eq_true slash)]
  rfl

theorem splitOn_eq (s : List UInt8) : ∃ rest, s.splitOn slash = s.takeWhile (· != slash) :: rest ∧
    components (s.dropWhile (· != slash)) = rest.filter (· ≠ []) := by
  induction s with
  | nil => exact ⟨[], List.splitOn_nil .., rfl⟩
  | cons a s ih =>
    obtain ⟨rest, hsplit, hrest⟩ := ih
    rw [List.splitOn_cons_eq_if_modifyHead]
    by_cases ha : a = slash
    · subst a
      rw [if_pos (beq_self_eq_true slash), List.takeWhile_cons_of_neg (by decide),
        List.dropWhile_cons_of_neg (by decide)]
      exact ⟨_, rfl, components_slash s⟩
    · have hne : (a != slash) = true := bne_iff_ne.mpr ha
      rw [if_neg (mt beq_iff_eq.mp ha), hsplit, List.modifyHead_cons,
        List.takeWhile_cons_of_pos (p := (· != slash)) hne,
        List.dropWhile_cons_of_pos (p := (· != slash)) hne]
      exact ⟨rest, rfl, hrest⟩

theorem components_cons {s : List UInt8} (h : strcspn s ≠ 0) :
    components s = s.take (strcspn s) :: components (s.drop (strcspn s)) := by
  obtain ⟨rest, hsplit, hrest⟩ := splitOn_eq s
  have hne : s.takeWhile (· != slash) ≠ [] := fun hnil => h (by rw [strcspn, hnil]; rfl)
  rw [strcspn, take_takeWhile, drop_takeWhile, hrest, components, hsplit,
    List.filter_cons_of_pos (p := fun part => decide (part ≠ [])) (decide_eq_true hne)]

theorem components_drop_strspn (s : List UInt8) :
    components (s.drop (strspn s)) = components s := by
  rw [strspn, drop_takeWhile]
  induction s with
  | nil => rfl
  | cons a s ih =>
    by_cases ha : a = slash
    · subst a
      rw [List.dropWhile_cons_of_pos (by decide), components_slash, ih]
    · rw [List.dropWhile_cons_of_neg (p := (· == slash)) (mt beq_iff_eq.mp ha)]

/-- A test of the next component by its length and its bytes. -/
theorem take_strcspn_eq_iff (s name : List UInt8) :
    s.take (strcspn s) = name ↔ strcspn s = name.length ∧ s.take name.length = name := by
  constructor
  · intro h
    have hlen := congrArg List.length h
    rw [List.length_take, Nat.min_eq_left (strcspn_le s)] at hlen
    exact ⟨hlen, by rw [← hlen, h]⟩
  · rintro ⟨hlen, h⟩
    rw [hlen, h]

/-! ## The names that are looked up -/

def moveOf (part : List UInt8) : Move (List UInt8) :=
  if part = dotdotName then .up else .down part

def moves (path : List UInt8) : List (Move (List UInt8)) := (components path).map moveOf

/-- The names that are left when a `..` takes back a `.` just as it does a name. -/
def namesOf (moves : List (Move (List UInt8))) : List (List UInt8) :=
  (kept moves).filter (· ≠ dotName)

theorem moves_cons {s : List UInt8} (h : strcspn s ≠ 0) :
    moves s = moveOf (s.take (strcspn s)) :: moves (s.drop (strcspn s)) := by
  rw [moves, components_cons h, List.map_cons, moves]

theorem moves_drop_strspn (s : List UInt8) : moves (s.drop (strspn s)) = moves s := by
  rw [moves, components_drop_strspn, moves]

theorem skipMatched_eq (h : 0 < depth) (suffix : List UInt8) :
    (skipMatched suffix depth).map moves = resume depth (moves suffix) := by
  fun_induction skipMatched suffix depth with
  | case1 suffix depth suffix' sufflen hlen =>
    have hnil : suffix' = [] := strcspn_drop_strspn hlen
    rw [← moves_drop_strspn suffix]
    change _ = resume depth (moves suffix')
    rw [hnil]
    rfl
  | case2 suffix depth suffix' sufflen hlen hup hdepth =>
    have hpart := (take_strcspn_eq_iff suffix' dotdotName).mpr hup
    rw [← moves_drop_strspn suffix, moves_cons hlen, hpart, moveOf, if_pos rfl, resume,
      if_pos (by omega)]
    rfl
  | case3 suffix depth suffix' sufflen hlen hup hdepth ih =>
    have hpart := (take_strcspn_eq_iff suffix' dotdotName).mpr hup
    rw [ih (by omega), ← moves_drop_strspn suffix, moves_cons hlen, hpart, moveOf, if_pos rfl,
      resume, if_neg (by omega)]
  | case4 suffix depth suffix' sufflen hlen hup ih =>
    have hpart := mt (take_strcspn_eq_iff suffix' dotdotName).mp hup
    rw [ih (Nat.succ_pos depth), ← moves_drop_strspn suffix, moves_cons hlen, moveOf, if_neg hpart,
      resume]

theorem namesOf_up (moves : List (Move (List UInt8))) : namesOf (.up :: moves) = namesOf moves :=
  rfl

theorem namesOf_dot (moves : List (Move (List UInt8))) :
    namesOf (.down dotName :: moves) = namesOf moves := by
  rw [namesOf, kept]
  split
  · rw [List.filter_cons_of_neg (by decide), namesOf]
  · rw [namesOf]

theorem moveOf_name {s : List UInt8} (h : ¬ (strcspn s = 1 ∧ s.take 1 = dotName ∨
    strcspn s = 2 ∧ s.take 2 = dotdotName)) :
    moveOf (s.take (strcspn s)) = .down (s.take (strcspn s)) :=
  if_neg fun hup => h (.inr ((take_strcspn_eq_iff s dotdotName).mp hup))

/-- The next name that is looked up. -/
theorem nextName_spec (name : List UInt8) :
    namesOf (moves name) = if nextName name = [] then [] else
    (nextName name).take (strcspn (nextName name)) ::
      namesOf (moves ((nextName name).drop (strcspn (nextName name)))) := by
  fun_induction nextName name with
  | case1 name name' namelen hdots ih =>
    rw [← ih, ← moves_drop_strspn name]
    have hlen : strcspn name' ≠ 0 := by
      change namelen ≠ 0
      omega
    rw [moves_cons hlen]
    rcases hdots with hdot | hup
    · rw [(take_strcspn_eq_iff name' dotName).mpr hdot, moveOf, if_neg (by decide), namesOf_dot]
    · rw [(take_strcspn_eq_iff name' dotdotName).mpr hup, moveOf, if_pos rfl, namesOf_up]
  | case2 name name' namelen hdots rest hskip ih =>
    have hresume := skipMatched_eq Nat.one_pos (name'.drop namelen)
    rw [hskip, Option.map_some] at hresume
    by_cases hlen : strcspn name' = 0
    · -- behind the end of the path there is no '..'
      have hnil : name' = [] := strcspn_drop_strspn hlen
      rw [hnil, List.drop_nil] at hresume
      cases hresume
    · have hover : overdraw (moves (name'.drop namelen)) ≠ 0 := fun hzero => by
        have hnone := (resume_eq_none Nat.one_pos).mpr
          (show overdraw (moves (name'.drop namelen)) < 1 by omega)
        rw [← hresume] at hnone
        cases hnone
      rw [← ih, ← moves_drop_strspn name, moves_cons hlen, moveOf_name hdots, namesOf, kept,
        if_neg hover, kept_resume Nat.one_pos hresume.symm, namesOf]
  | case3 name name' namelen hdots hskip =>
    by_cases hlen : strcspn name' = 0
    · have hnil : name' = [] := strcspn_drop_strspn hlen
      rw [if_pos hnil, ← moves_drop_strspn name]
      change namesOf (moves name') = []
      rw [hnil]
      rfl
    · have hne : name' ≠ [] := fun hnil => hlen (by rw [hnil]; rfl)
      have hresume := skipMatched_eq Nat.one_pos (name'.drop namelen)
      rw [hskip, Option.map_none] at hresume
      have hzero : overdraw (moves (name'.drop (strcspn name'))) < 1 :=
        (resume_eq_none Nat.one_pos).mp hresume.symm
      have hdot : name'.take (strcspn name') ≠ dotName :=
        fun h => hdots (.inl ((take_strcspn_eq_iff name' dotName).mp h))
      rw [if_neg hne, ← moves_drop_strspn name, moves_cons hlen, moveOf_name hdots, namesOf, kept,
        if_pos (by omega), List.filter_cons_of_pos (p := fun part => decide (part ≠ dotName))
          (decide_eq_true hdot), namesOf]

/-! ## The walk over the names -/

/-- `lfs_dir_find` on the names that it looks up. -/
def dirFindNames (enter : MetadataDir → Tag → Except Int MetadataDir)
    (find : List UInt8 → MetadataDir → Option (MetadataDir × Except Int Tag)) :
    List (List UInt8) → (dir : MetadataDir) → (tag : Tag) →
    List (List UInt8) × Option (MetadataDir × Except Int Tag)
  | [], dir, tag => ([], some (dir, .ok tag))
  | name :: names, dir, tag =>
    match enter dir tag with
    | .error err => ([], some (dir, .error err))
    | .ok dir =>
      match find name dir with
      | none => ([name], none)
      | some (dir, .error err) => ([name], some (dir, .error err))
      | some (dir, .ok tag) =>
        let rest := dirFindNames enter find names dir tag
        (name :: rest.1, rest.2)

/-- The entry that a path leads to. -/
def FoundPath.entry (f : FoundPath) : MetadataDir × Except Int Tag := (f.dir, f.result)

theorem dirFindLoop_eq {enter : MetadataDir → Tag → Except Int MetadataDir}
    {find : List UInt8 → Bool → MetadataDir → Nat → Option (MetadataDir × Nat × Except Int Tag)}
    {find' : List UInt8 → MetadataDir → Option (MetadataDir × Except Int Tag)}
    (hfind : ∀ name last dir id,
      (find name last dir id).map (fun r => (r.1, r.2.2)) = find' name dir)
    (name : List UInt8) (dir : MetadataDir) (tag : Tag) (path : List UInt8) (id : Nat) :
    let r := dirFindLoop enter find name dir tag path id
    (r.1, r.2.map FoundPath.entry) = dirFindNames enter find' (namesOf (moves name)) dir tag := by
  dsimp only
  fun_induction dirFindLoop enter find name dir tag path id with
  | case1 name dir tag path id name' hend =>
    rw [nextName_spec, if_pos hend]
    rfl
  | case2 name dir tag path id name' hend path' err henter =>
    rw [nextName_spec, if_neg hend, dirFindNames, henter]
    rfl
  | case3 name _ tag path id name' hend dir henter namelen hnone =>
    have hlookup := hfind (name'.take namelen) (slash ∉ name') dir id
    rw [hnone] at hlookup
    change none = find' ((nextName name).take (strcspn (nextName name))) dir at hlookup
    rw [nextName_spec, if_neg hend, dirFindNames, henter]
    dsimp only
    rw [← hlookup]
    rfl
  | case4 name _ tag path id name' hend _ dir henter namelen dir' id' err herr =>
    have hlookup := hfind (name'.take namelen) (slash ∉ name') dir id
    rw [herr] at hlookup
    change some (dir', .error err) = find' ((nextName name).take (strcspn (nextName name))) dir
      at hlookup
    rw [nextName_spec, if_neg hend, dirFindNames, henter]
    dsimp only
    rw [← hlookup]
    rfl
  | case5 name _ tag path id name' hend _ dir henter namelen dir' id' tag' hok rest ih =>
    have hlookup := hfind (name'.take namelen) (slash ∉ name') dir id
    rw [hok] at hlookup
    change some (dir', .ok tag') = find' ((nextName name).take (strcspn (nextName name))) dir
      at hlookup
    rw [nextName_spec, if_neg hend, dirFindNames, henter]
    dsimp only
    rw [← hlookup]
    dsimp only
    change _ = (_ :: (dirFindNames enter find' (namesOf (moves (name'.drop namelen))) dir' tag').1,
      _)
    rw [← ih]

section

variable {dev : Device} {blockCount fuel : Nat} {gdisk : GState} {name : List UInt8}

/-- What `findEntry` finds does not depend on whether the id is asked for. -/
theorem findEntry_map (last last' : Bool) (dir : MetadataDir) (id id' : Nat) :
    (findEntry dev blockCount gdisk name last fuel dir id).map (fun r => (r.1, r.2.2)) =
      (findEntry dev blockCount gdisk name last' fuel dir id').map fun r => (r.1, r.2.2) := by
  induction fuel generalizing dir id id' with
  | zero => rfl
  | succ fuel ih =>
    rw [findEntry, findEntry]
    rcases dirFetchmatch dev blockCount gdisk dir.tail (mkTag 0x780 0 0)
      (mkTag typeName 0 name.length) (dirFindMatch name) with _ | ⟨found, tag | _ | _⟩
    · rfl
    · dsimp only
      by_cases htag : tag ≠ 0#32
      · rw [if_pos htag, if_pos htag]
        rfl
      · rw [if_neg htag, if_neg htag]
        by_cases hsplit : found.split = false
        · rw [if_pos hsplit, if_pos hsplit]
          rfl
        · rw [if_neg hsplit, if_neg hsplit]
          exact ih ..
    · rfl
    · dsimp only
      by_cases hsplit : found.split = false
      · rw [if_pos hsplit, if_pos hsplit]
        rfl
      · rw [if_neg hsplit, if_neg hsplit]
        exact ih ..

/-- Only the tail of the directory passed in says where an entry is found. -/
theorem findEntry_tail {dir dir' found : MetadataDir} {id : Nat}
    (hfound : findEntry dev blockCount gdisk name last fuel dir id = some (found, id', .ok tag))
    (h : dir.tail = dir'.tail) :
    findEntry dev blockCount gdisk name last fuel dir' id = some (found, id', .ok tag) := by
  cases fuel with
  | zero => cases hfound
  | succ fuel =>
    rw [findEntry, h] at hfound
    rw [findEntry]
    rcases hfetch : dirFetchmatch dev blockCount gdisk dir'.tail (mkTag 0x780 0 0)
      (mkTag typeName 0 name.length) (dirFindMatch name) with _ | ⟨dir, res⟩
    · rw [hfetch] at hfound
      cases hfound
    · rw [hfetch] at hfound
      exact hfound

end

/-- The pair of the directory that has this name in the directory at `pair`. -/
def subdir (dev : Device) (blockCount : Nat) (gdisk : GState) (fuel : Nat) (pair : BlockPair)
    (name : List UInt8) : Option BlockPair :=
  match findEntry dev blockCount gdisk name false fuel ⟨pair, [], 0, false, pair⟩ 0 with
  | some (dir, _, .ok tag) => (enterDir gdisk dir tag).toOption.map MetadataDir.tail
  | _ => none

/-- The directory that the names lead to. -/
def descend (dev : Device) (blockCount : Nat) (gdisk : GState) (fuel : Nat) (root : BlockPair)
    (names : List (List UInt8)) : Option BlockPair :=
  names.foldlM (subdir dev blockCount gdisk fuel) root

section

variable {dev : Device} {blockCount fuel : Nat} {gdisk : GState}

/-- The names that `lfs_dir_find` looks up in `findEntry`. -/
abbrev findName (dev : Device) (blockCount : Nat) (gdisk : GState) (fuel : Nat)
    (name : List UInt8) (dir : MetadataDir) : Option (MetadataDir × Except Int Tag) :=
  (findEntry dev blockCount gdisk name false fuel dir 0).map fun r => (r.1, r.2.2)

theorem subdir_eq_some {dir : MetadataDir}
    (h : subdir dev blockCount gdisk fuel dir.tail name = some pair) :
    ∃ found tag dir', findName dev blockCount gdisk fuel name dir = some (found, .ok tag) ∧
      enterDir gdisk found tag = .ok dir' ∧ dir'.tail = pair := by
  rw [subdir] at h
  split at h
  · rename_i found id tag hfind
    cases henter : enterDir gdisk found tag with
    | error err =>
      rw [henter] at h
      cases h
    | ok dir' =>
      rw [henter] at h
      have hfind' : findEntry dev blockCount gdisk name false fuel dir 0 =
          some (found, id, .ok tag) := findEntry_tail hfind rfl
      exact ⟨found, tag, dir', by rw [findName, hfind', Option.map_some], henter, Option.some.inj h⟩
  · cases h

/-- As long as the directories exist, all names are looked up. -/
theorem dirFindNames_visits {dir dir' : MetadataDir} (henter : enterDir gdisk dir tag = .ok dir')
    (hexist : (descend dev blockCount gdisk fuel dir'.tail names.dropLast).isSome) :
    (dirFindNames (enterDir gdisk) (findName dev blockCount gdisk fuel) names dir tag).1 =
      names := by
  induction names generalizing dir tag dir' with
  | nil => rfl
  | cons name names ih =>
    rw [dirFindNames, henter]
    dsimp only
    by_cases hlast : names = []
    · subst names
      rcases findName dev blockCount gdisk fuel name dir' with _ | ⟨found, err | tag'⟩
      all_goals rfl
    · rw [List.dropLast_cons_of_ne_nil hlast, descend, List.foldlM_cons] at hexist
      cases hsub : subdir dev blockCount gdisk fuel dir'.tail name with
      | none =>
        rw [hsub] at hexist
        cases hexist
      | some pair =>
        rw [hsub] at hexist
        obtain ⟨found, tag', dir'', hfind, henter', rfl⟩ := subdir_eq_some hsub
        rw [hfind]
        dsimp only
        rw [ih henter' hexist]

end

/-! ## The normal form of a path -/

/-- A component of a path, with the names that are left of the path so far. -/
def normalStep (names : List (List UInt8)) (part : List UInt8) : List (List UInt8) :=
  if part = dotName then names
  else if part = dotdotName then names.tail
  else part :: names

/-- Empty and `.` components are dropped, and each `..` removes the name before it. -/
def normalPath (path : List UInt8) : List (List UInt8) :=
  ((components path).foldl normalStep []).reverse

/-- A component of a path for which a `.` is a name like any other. -/
def literalStep (names : List (List UInt8)) (part : List UInt8) : List (List UInt8) :=
  if part = dotdotName then names.tail else part :: names

/-- The names that are left of a path when a `..` removes a `.` just as it does a name. -/
def literalPath (path : List UInt8) : List (List UInt8) :=
  ((components path).foldl literalStep []).reverse.filter (· ≠ dotName)

/-- In some part right behind a name, the `..` outnumber the components that count. -/
def TakenBack (counts : List UInt8 → Bool) (behind : List (List UInt8)) : Prop :=
  ∃ n, (behind.take n).countP counts < (behind.take n).count dotdotName

/-- A name that is taken back is so with the `.` components counted as names, too. -/
def DotsHarmless (path : List UInt8) : Prop :=
  ∀ before name behind, components path = before ++ name :: behind →
    name ≠ dotName → name ≠ dotdotName →
    TakenBack (fun part => part ≠ dotdotName ∧ part ≠ dotName) behind →
      TakenBack (· ≠ dotdotName) behind

theorem literalPath_eq (path : List UInt8) : literalPath path = namesOf (moves path) := by
  have hstep : literalStep = fun names part => step names (moveOf part) := by
    funext names part
    rw [literalStep, moveOf]
    split <;> rfl
  rw [namesOf, ← walk_eq_kept, walk, moves, List.foldl_map, ← hstep, literalPath]

theorem normalPath_eq (path : List UInt8) :
    normalPath path = kept ((moves path).filter (Move.only (· ≠ dotName))) := by
  have hfold : ∀ names, (components path).foldl normalStep names =
      ((moves path).filter (Move.only (· ≠ dotName))).foldl step names := by
    rw [moves]
    induction components path with
    | nil => exact fun _ => rfl
    | cons part parts ih =>
      intro names
      rw [List.foldl_cons, ih, List.map_cons, normalStep, moveOf]
      by_cases hdot : part = dotName
      · subst part
        rw [if_pos rfl, if_neg (by decide), List.filter_cons_of_neg (by decide)]
      · by_cases hup : part = dotdotName
        · rw [if_neg hdot, if_pos hup, if_pos hup, List.filter_cons_of_pos (by decide),
            List.foldl_cons, step]
        · rw [if_neg hdot, if_neg hup, if_neg hup,
            List.filter_cons_of_pos
              (show Move.only (· ≠ dotName) (.down part) = true from decide_eq_true hdot),
            List.foldl_cons, step]
  rw [← walk_eq_kept, walk, normalPath, hfold]

theorem takenBack_iff (p : List UInt8 → Bool) (behind : List (List UInt8)) :
    TakenBack (fun part => part ≠ dotdotName ∧ p part) behind ↔
      0 < overdraw ((behind.map moveOf).filter (Move.only p)) := by
  have hup : Move.isUp ∘ moveOf = (· == dotdotName) := by
    funext part
    rw [Function.comp, moveOf]
    split
    · subst part; rfl
    · rename_i h
      exact (beq_eq_false_iff_ne.mpr h).symm
  have hdown : Move.isDown p ∘ moveOf = fun part => decide (part ≠ dotdotName ∧ p part = true) := by
    funext part
    rw [Function.comp, moveOf]
    split
    · subst part; rfl
    · rename_i h
      simp [Move.isDown, h]
  rw [TakenBack, Nat.lt_iff_add_one_le, Nat.zero_add, le_overdraw_iff]
  simp only [← List.map_take, List.countP_map, hup, hdown, List.count, Nat.lt_iff_add_one_le]

theorem takenBack_names (behind : List (List UInt8)) :
    TakenBack (fun part => part ≠ dotdotName ∧ part ≠ dotName) behind ↔
      0 < overdraw ((behind.map moveOf).filter (Move.only (· ≠ dotName))) := by
  rw [← takenBack_iff]
  simp only [decide_eq_true_eq]

theorem takenBack_all (behind : List (List UInt8)) :
    TakenBack (· ≠ dotdotName) behind ↔ 0 < overdraw (behind.map moveOf) := by
  have hall : (behind.map moveOf).filter (Move.only fun _ => true) = behind.map moveOf :=
    List.filter_eq_self.mpr fun move _ => by cases move <;> rfl
  have h := takenBack_iff (fun _ => true) behind
  simp only [and_true, hall] at h
  exact h

theorem dotsHarmless_iff (path : List UInt8) :
    DotsHarmless path ↔ Harmless (· ≠ dotName) (moves path) := by
  have hdown : ∀ {part name}, moveOf part = .down name ↔ part = name ∧ part ≠ dotdotName := by
    intro part name
    rw [moveOf]
    split
    · exact ⟨fun h => (by cases h), fun h => absurd ‹_› h.2⟩
    · rw [Move.down.injEq]
      exact ⟨fun h => ⟨h, ‹_›⟩, And.left⟩
  constructor
  · intro h before name behind hmoves hname hover
    obtain ⟨before, _, hparts, rfl, hrest⟩ := List.map_eq_append_iff.mp hmoves
    obtain ⟨part, behind, rfl, hpart, rfl⟩ := List.map_eq_cons_iff.mp hrest
    obtain ⟨rfl, hne⟩ := hdown.mp hpart
    exact (takenBack_all behind).mp
      (h before part behind hparts (of_decide_eq_true hname) hne
        ((takenBack_names behind).mpr hover))
  · intro h before name behind hparts hdot hne htaken
    refine (takenBack_all behind).mpr (h (before.map moveOf) name (behind.map moveOf) ?_
      (decide_eq_true hdot) ((takenBack_names behind).mp htaken))
    rw [moves, hparts, List.map_append, List.map_cons, hdown.mpr ⟨rfl, hne⟩]

/-- `lfs_dir_find` of a path is that of its names. -/
theorem dirFind_eq (dev : Device) (blockCount : Nat) (gdisk : GState) (fuel : Nat)
    (root : BlockPair) (dir : MetadataDir) (path : List UInt8) :
    let r := dirFindNames (enterDir gdisk) (findName dev blockCount gdisk fuel)
      (namesOf (moves path)) { dir with tail := root } (mkTag typeDir 0x3ff 0)
    (dirFind dev blockCount gdisk fuel root dir path).1 = r.1 ∧
      (dirFind dev blockCount gdisk fuel root dir path).2.map FoundPath.entry = r.2 := by
  have hfind : ∀ name last dir id, (findEntry dev blockCount gdisk name last fuel dir id).map
      (fun r => (r.1, r.2.2)) = findName dev blockCount gdisk fuel name dir :=
    fun _ last dir id => findEntry_map last false dir id 0
  exact Prod.mk.inj (dirFindLoop_eq hfind path { dir with tail := root } (mkTag typeDir 0x3ff 0)
    path 0x3ff)

theorem dotsHarmless_iff_names (path : List UInt8) :
    DotsHarmless path ↔ namesOf (moves path) = normalPath path := by
  rw [dotsHarmless_iff, ← kept_only_iff, normalPath_eq, namesOf]

/-- **Paths are resolved in their normal form** if and only if no `.` keeps a `..` from a name: in
every tree that has the directories on the way, the names that `lfs_dir_find` looks up are those
of the normal form, and paths with the same normal form lead to the same entry. -/
theorem dirFind_normal_iff (dev : Device) (blockCount : Nat) (gdisk : GState) (fuel : Nat)
    (root : BlockPair) (dir : MetadataDir) :
    (∀ path, (descend dev blockCount gdisk fuel root (literalPath path).dropLast).isSome →
      ((dirFind dev blockCount gdisk fuel root dir path).1 = normalPath path ↔
        DotsHarmless path)) ∧
    ∀ path path', DotsHarmless path → DotsHarmless path' → normalPath path = normalPath path' →
      (dirFind dev blockCount gdisk fuel root dir path).2.map FoundPath.entry =
        (dirFind dev blockCount gdisk fuel root dir path').2.map FoundPath.entry := by
  refine ⟨fun path hexist => ?_, fun path path' h h' hnormal => ?_⟩
  · have henter : enterDir gdisk { dir with tail := root } (mkTag typeDir 0x3ff 0) =
        .ok { dir with tail := root } := by
      obtain ⟨htype, hid⟩ : tagType3 (mkTag typeDir 0x3ff 0) = typeDir ∧
        tagId (mkTag typeDir 0x3ff 0) = 0x3ff := by decide
      rw [enterDir, if_neg (not_not.mpr htype), if_pos hid]
    rw [literalPath_eq] at hexist
    rw [dotsHarmless_iff_names, (dirFind_eq ..).1, dirFindNames_visits henter hexist]
  · rw [(dirFind_eq ..).2, (dirFind_eq ..).2, (dotsHarmless_iff_names path).mp h,
      (dotsHarmless_iff_names path').mp h', hnormal]

/-- A root directory with one directory in it, `a`. -/
def homeDevice : Device := fun pair =>
  if pair = (0, 1) then
    some (pair, [⟨mkTag typeCreate 0 0, []⟩, ⟨mkTag typeDir 0 1, [97]⟩,
      ⟨mkTag typeDirstruct 0 16, pairToLe64 (2, 3)⟩, ⟨mkTag typeCrc 0x3ff 4, [0, 0, 0, 0]⟩])
  else if pair = (2, 3) then some (pair, [⟨mkTag typeCrc 0x3ff 4, [0, 0, 0, 0]⟩])
  else none

/-- `b/../a` and `./a//` are the path `a`. -/
theorem dirFind_normal_home (dir : MetadataDir) :
    (dirFind homeDevice 4 {} 1 (0, 1) dir [98, 47, 46, 46, 47, 97]).1 = [[97]] ∧
      (dirFind homeDevice 4 {} 1 (0, 1) dir [98, 47, 46, 46, 47, 97]).2.map FoundPath.entry =
        (dirFind homeDevice 4 {} 1 (0, 1) dir [46, 47, 97, 47, 47]).2.map FoundPath.entry := by
  have h := dirFind_normal_iff homeDevice 4 {} 1 (0, 1) dir
  have hbefore : DotsHarmless [98, 47, 46, 46, 47, 97] :=
    (dotsHarmless_iff_names _).mpr (by decide +kernel)
  have hafter : DotsHarmless [46, 47, 97, 47, 47] :=
    (dotsHarmless_iff_names _).mpr (by decide +kernel)
  refine ⟨((h.1 _ (by decide +kernel)).mpr hbefore).trans (by decide +kernel),
    h.2 _ _ hbefore hafter (by decide +kernel)⟩

/-- `a/./..` leads to `a`, where its normal form is the root. -/
theorem dirFind_not_normal :
    ¬ ∀ (dev : Device) (blockCount : Nat) (gdisk : GState) (fuel : Nat) (root : BlockPair)
      (dir : MetadataDir) (path : List UInt8),
      (∀ names, names.Sublist ((components path).filter
        fun part => part ≠ dotName ∧ part ≠ dotdotName) →
          (descend dev blockCount gdisk fuel root names).isSome) →
      (dirFind dev blockCount gdisk fuel root dir path).1 = normalPath path := by
  intro h
  have hexist : ∀ names ∈ (components [97, 47, 46, 47, 46, 46] |>.filter
      fun part => part ≠ dotName ∧ part ≠ dotdotName).sublists,
      (descend homeDevice 4 {} 1 (0, 1) names).isSome := by decide +kernel
  have hvisits := h homeDevice 4 {} 1 (0, 1) ⟨(0, 1), [], 0, false, (0, 1)⟩
    [97, 47, 46, 47, 46, 46] fun names hnames => hexist names (List.mem_sublists.mpr hnames)
  have henter : enterDir {} ⟨(0, 1), [], 0, false, (0, 1)⟩ (mkTag typeDir 0x3ff 0) =
      .ok ⟨(0, 1), [], 0, false, (0, 1)⟩ := by decide +kernel
  rw [(dirFind_eq ..).1, dirFindNames_visits henter (by decide +kernel)] at hvisits
  exact absurd hvisits (by decide +kernel)

/-! ## The walk of `lfs_raw_rename` -/

def partMoves (parts : List (List UInt8)) : List (Move (List UInt8)) :=
  (parts.filter (· ≠ [])).map moveOf

theorem partMoves_cons (h : part ≠ []) (parts : List (List UInt8)) :
    partMoves (part :: parts) = moveOf part :: partMoves parts := by
  rw [partMoves, List.filter_cons_of_pos (p := fun part => decide (part ≠ [])) (decide_eq_true h),
    List.map_cons, partMoves]

theorem matchedBy_eq (h : 0 < depth) (parts : List (List UInt8)) :
    (matchedBy depth parts).map partMoves = resume depth (partMoves parts) := by
  induction parts generalizing depth with
  | nil => rfl
  | cons part parts ih =>
    rw [matchedBy]
    by_cases hnil : part = []
    · subst part
      rw [if_pos rfl, ih h]
      rfl
    · rw [if_neg hnil, partMoves_cons hnil, moveOf]
      by_cases hup : part = dotdotName
      · rw [if_pos hup, if_pos hup, resume]
        by_cases hdepth : depth = 1
        · rw [if_pos hdepth, if_pos hdepth]
          rfl
        · rw [if_neg hdepth, if_neg hdepth, ih (by omega)]
      · rw [if_neg hup, if_neg hup, resume, ih (Nat.succ_pos depth)]

theorem length_matchedBy (h : matchedBy depth parts = some rest) : rest.length < parts.length := by
  induction parts generalizing depth with
  | nil => cases h
  | cons part parts ih =>
    rw [List.length_cons]
    rw [matchedBy] at h
    split at h
    · exact (ih h).trans (Nat.lt_succ_self _)
    · split at h
      · split at h
        · cases h
          exact Nat.lt_succ_self _
        · exact (ih h).trans (Nat.lt_succ_self _)
      · exact (ih h).trans (Nat.lt_succ_self _)

theorem partSteps_names (h : parts.length ≤ fuel) :
    (partSteps fuel parts).map Prod.fst = namesOf (partMoves parts) := by
  fun_induction partSteps fuel parts with
  | case1 fuel part rest hskip ih =>
    rw [ih (Nat.le_of_succ_le_succ h)]
    rcases hskip with rfl | rfl | rfl
    · rfl
    · rw [partMoves_cons (by decide), moveOf, if_neg (by decide), namesOf_dot]
    · rw [partMoves_cons (by decide), moveOf, if_pos rfl, namesOf_up]
  | case2 fuel part rest hskip rest' hmatched ih =>
    have hlen := length_matchedBy hmatched
    obtain ⟨hnil, hdots⟩ := not_or.mp hskip
    have hresume := matchedBy_eq Nat.one_pos rest
    rw [hmatched, Option.map_some] at hresume
    have hover : overdraw (partMoves rest) ≠ 0 := fun hzero => by
      have hnone := (resume_eq_none Nat.one_pos).mpr (show overdraw (partMoves rest) < 1 by omega)
      rw [← hresume] at hnone
      cases hnone
    rw [List.length_cons] at h
    rw [ih (by omega), partMoves_cons hnil, moveOf, if_neg (not_or.mp hdots).2, namesOf, namesOf,
      kept, if_neg hover, kept_resume Nat.one_pos hresume.symm]
  | case3 fuel part rest hskip hmatched ih =>
    obtain ⟨hnil, hdots⟩ := not_or.mp hskip
    have hresume := matchedBy_eq Nat.one_pos rest
    rw [hmatched, Option.map_none] at hresume
    have hzero : overdraw (partMoves rest) < 1 := (resume_eq_none Nat.one_pos).mp hresume.symm
    rw [List.map_cons, ih (Nat.le_of_succ_le_succ h), partMoves_cons hnil, moveOf,
      if_neg (not_or.mp hdots).2, namesOf, namesOf, kept, if_pos (by omega),
      List.filter_cons_of_pos (p := fun part => decide (part ≠ dotName))
        (decide_eq_true (not_or.mp hdots).1)]
  | case4 fuel parts hnot =>
    cases parts with
    | nil => rfl
    | cons part rest =>
      cases fuel with
      | zero => cases h
      | succ fuel => exact (hnot fuel part rest rfl rfl).elim

/-- **The names of a path that `lfs_raw_rename` walks over** are those that `lfs_dir_find` looks
up. -/
theorem pathSteps_names (path : List UInt8) : (pathSteps path).map Prod.fst = literalPath path := by
  rw [pathSteps, partSteps_names (Nat.le_refl _), literalPath_eq]
  rfl

end LittleFs
