import LittleFs.Lib.PartialWalk
import LittleFs.Mount
import LittleFs.PathFind
import Mathlib.Data.Finset.Prod

/-! Which lookups end on a mounted device. `lfs_raw_mount` follows the tail list from the superblock
on and refuses it when it is longer than the device; `lfs_dir_find` follows child references and
hard tails to pairs that are on no such list, without a bound. -/

namespace LittleFs

open PartialWalk (steps Cycles)

/-! ## The pairs of a directory -/

/-- The fetch has found the entry, or the place where it belongs. -/
def FetchResult.decides : FetchResult → Bool
  | .tag found => found != 0#32
  | .noent => true
  | .ok => false

/-- The pair in which a lookup of the name goes on. -/
def lookupNext (dev : Device) (blockCount : Nat) (gdisk : GState) (name : List UInt8)
    (pair : BlockPair) : Option BlockPair :=
  match dirFetchmatch dev blockCount gdisk pair (mkTag 0x780 0 0) (mkTag typeName 0 name.length)
      (dirFindMatch name) with
  | none => none
  | some (found, res) => if res.decides || !found.split then none else some found.tail

variable {dev : Device} {blockCount fuel fuel' : Nat} {gdisk : GState} {name : List UInt8}
  {pair : BlockPair} {dir dir' : MetadataDir} {id : Nat} {last : Bool}

/-- A lookup runs out of fuel when it has more pairs to go through. -/
theorem findEntry_eq_none_iff : findEntry dev blockCount gdisk name last fuel dir id = none ↔
    (steps (lookupNext dev blockCount gdisk name) fuel dir.tail).isSome := by
  induction fuel generalizing dir id with
  | zero => exact iff_of_true rfl rfl
  | succ fuel ih =>
    rw [findEntry, steps, lookupNext]
    rcases dirFetchmatch dev blockCount gdisk dir.tail (mkTag 0x780 0 0)
      (mkTag typeName 0 name.length) (dirFindMatch name) with _ | ⟨found, tag | _ | _⟩
    · exact iff_of_false (fun h => by cases h) (fun h => by cases h)
    · dsimp only
      by_cases htag : tag = 0#32
      · rw [if_neg (not_not.mpr htag), FetchResult.decides, htag]
        cases hsplit : found.split with
        | false => exact iff_of_false (fun h => by cases h) (fun h => by cases h)
        | true => exact ih
      · rw [if_pos htag, FetchResult.decides, bne_iff_ne.mpr htag]
        exact iff_of_false (fun h => by cases h) (fun h => by cases h)
    · exact iff_of_false (fun h => by cases h) (fun h => by cases h)
    · dsimp only
      cases hsplit : found.split with
      | false => exact iff_of_false (fun h => by cases h) (fun h => by cases h)
      | true => exact ih

theorem findEntry_of_le {r : MetadataDir × Nat × Except Int Tag}
    (h : findEntry dev blockCount gdisk name last fuel dir id = some r) (hle : fuel ≤ fuel') :
    findEntry dev blockCount gdisk name last fuel' dir id = some r := by
  induction fuel generalizing dir id fuel' with
  | zero => cases h
  | succ fuel ih =>
    obtain ⟨k, rfl⟩ : ∃ k, fuel' = k + 1 := ⟨fuel' - 1, by omega⟩
    rw [findEntry] at h ⊢
    revert h
    rcases dirFetchmatch dev blockCount gdisk dir.tail (mkTag 0x780 0 0)
      (mkTag typeName 0 name.length) (dirFindMatch name) with _ | ⟨found, tag | _ | _⟩
    · exact fun h => h
    · dsimp only
      split
      · exact fun h => h
      · split
        · exact fun h => h
        · exact fun h => ih h (by omega)
    · exact fun h => h
    · dsimp only
      split
      · exact fun h => h
      · exact fun h => ih h (by omega)

/-- What is found does not depend on the fuel. -/
theorem findName_det {r r' : MetadataDir × Except Int Tag}
    (h : findName dev blockCount gdisk fuel name dir = some r)
    (h' : findName dev blockCount gdisk fuel' name dir = some r') : r = r' := by
  obtain ⟨e, he, rfl⟩ := Option.map_eq_some_iff.mp h
  obtain ⟨e', he', rfl⟩ := Option.map_eq_some_iff.mp h'
  have hmax := findEntry_of_le he (Nat.le_max_left fuel fuel')
  rw [findEntry_of_le he' (Nat.le_max_right fuel fuel')] at hmax
  cases hmax
  rfl

theorem findName_eq_none_iff : findName dev blockCount gdisk fuel name dir = none ↔
    (steps (lookupNext dev blockCount gdisk name) fuel dir.tail).isSome := by
  rw [findName, Option.map_eq_none_iff, findEntry_eq_none_iff]

/-! ## Where the walk is bounded -/

/-- The pairs of the device. -/
def devicePairs (blockCount : Nat) : Finset BlockPair :=
  Finset.range blockCount ×ˢ Finset.range blockCount

theorem lookupNext_found {next : BlockPair}
    (h : lookupNext dev blockCount gdisk name pair = some next) :
    (pair.1 < blockCount ∧ pair.2 < blockCount) ∧
      ∃ pair' log, dev pair = some (pair', log) ∧ next = logTail log := by
  unfold lookupNext at h
  split at h
  · cases h
  · rename_i found res hfetch
    obtain ⟨hrange, hdev, htail⟩ := dirFetchmatch_found hfetch
    split at h
    · cases h
    · cases h
      exact ⟨hrange, found.pair, found.log, hdev, htail⟩

theorem lookupNext_mem (h : (lookupNext dev blockCount gdisk name pair).isSome) :
    pair ∈ devicePairs blockCount := by
  obtain ⟨next, hnext⟩ := Option.isSome_iff_exists.mp h
  obtain ⟨⟨hfst, hsnd⟩, -⟩ := lookupNext_found hnext
  exact Finset.mem_product.mpr ⟨Finset.mem_range.mpr hfst, Finset.mem_range.mpr hsnd⟩

/-- The fuel that is enough for every lookup that ends. -/
def lookupFuel (blockCount : Nat) : Nat := (devicePairs blockCount).card + 1

theorem findName_ends (h : ¬ Cycles (lookupNext dev blockCount gdisk name) dir.tail) :
    (findName dev blockCount gdisk (lookupFuel blockCount) name dir).isSome := by
  rw [Option.isSome_iff_ne_none, Ne, findName_eq_none_iff, lookupFuel,
    PartialWalk.steps_eq_none _ (fun _ => lookupNext_mem) h]
  exact fun h => by cases h

theorem findName_loops (h : Cycles (lookupNext dev blockCount gdisk name) dir.tail) :
    findName dev blockCount gdisk fuel name dir = none :=
  findName_eq_none_iff.mpr (h.steps_isSome fuel)

/-- Along a tail list that ends, so does every lookup. -/
theorem ListEnds.not_cycles (H : ListEnds dev pair) (hcount : blockCount < 2 ^ 64) :
    ¬ Cycles (lookupNext dev blockCount gdisk name) pair := by
  suffices ∃ n, steps (lookupNext dev blockCount gdisk name) n pair = none from
    (PartialWalk.halts_iff (devicePairs blockCount) fun _ => lookupNext_mem).mp this
  induction H with
  | @null tail hnull =>
    refine ⟨1, ?_⟩
    cases hnext : lookupNext dev blockCount gdisk name tail with
    | none => rw [steps, hnext, Option.bind_none]
    | some next =>
      obtain ⟨⟨hfst, hsnd⟩, -⟩ := lookupNext_found hnext
      rw [pairIsnull, Bool.or_eq_true, beq_iff_eq, beq_iff_eq] at hnull
      have hle : blockCount ≤ blockNull := Nat.le_sub_one_of_lt hcount
      omega
  | @next tail pair' log hdev _ ih =>
    obtain ⟨n, hn⟩ := ih
    cases hnext : lookupNext dev blockCount gdisk name tail with
    | none => exact ⟨1, by rw [steps, hnext, Option.bind_none]⟩
    | some next =>
      obtain ⟨-, pair'', log', hdev', rfl⟩ := lookupNext_found hnext
      rw [hdev] at hdev'
      cases hdev'
      exact ⟨n + 1, by rw [steps, hnext, Option.bind_some, hn]⟩

/-! ## Paths -/

/-- The names lead from one directory down to another one. -/
inductive Leads (dev : Device) (blockCount : Nat) (gdisk : GState) :
    BlockPair → List (List UInt8) → BlockPair → Prop where
  | here {pair : BlockPair} : Leads dev blockCount gdisk pair [] pair
  | down {fuel : Nat} {dir found dir' : MetadataDir} {tag : Tag} {name : List UInt8}
      {names : List (List UInt8)} {pair : BlockPair} :
      findName dev blockCount gdisk fuel name dir = some (found, .ok tag) →
      enterDir gdisk found tag = .ok dir' → Leads dev blockCount gdisk dir'.tail names pair →
      Leads dev blockCount gdisk dir.tail (name :: names) pair

theorem Leads.eq_of_nil {pair' : BlockPair} (h : Leads dev blockCount gdisk pair [] pair') :
    pair = pair' := by
  cases h
  rfl

variable {names rest : List (List UInt8)} {tag : Tag}

theorem findName_tail {found : MetadataDir}
    (h : findName dev blockCount gdisk fuel name dir = some (found, .ok tag))
    (htail : dir.tail = dir'.tail) :
    findName dev blockCount gdisk fuel name dir' = some (found, .ok tag) := by
  obtain ⟨⟨found', id, res⟩, hfind, heq⟩ := Option.map_eq_some_iff.mp h
  cases heq
  rw [findName, findEntry_tail hfind htail, Option.map_some]

/-- A walk over the names that ends has ended the lookup of each of them. -/
theorem not_cycles_of_ends (henter : enterDir gdisk dir tag = .ok dir')
    (hlead : Leads dev blockCount gdisk dir'.tail names pair)
    (hends : (dirFindNames (enterDir gdisk) (findName dev blockCount gdisk fuel)
      (names ++ name :: rest) dir tag).2.isSome) :
    ¬ Cycles (lookupNext dev blockCount gdisk name) pair := by
  obtain ⟨start, hstart⟩ : ∃ start, dir'.tail = start := ⟨_, rfl⟩
  rw [hstart] at hlead
  induction hlead generalizing dir tag dir' with
  | here =>
    intro hcycle
    subst hstart
    rw [List.nil_append, dirFindNames, henter] at hends
    dsimp only at hends
    rw [findName_loops hcycle] at hends
    cases hends
  | @down fuel' from' found next tag' first names pair hfind henter' hlead ih =>
    rw [List.cons_append, dirFindNames, henter] at hends
    dsimp only at hends
    cases hrun : findName dev blockCount gdisk fuel first dir' with
    | none =>
      rw [hrun] at hends
      cases hends
    | some r =>
      obtain rfl := findName_det hrun (findName_tail hfind hstart.symm)
      rw [hrun] at hends
      exact ih henter' hends rfl

/-- Where no lookup comes to a cycle, the walk over the names ends. -/
theorem ends_of_not_cycles
    (h : ∀ before name behind dir' pair, names = before ++ name :: behind →
      enterDir gdisk dir tag = .ok dir' → Leads dev blockCount gdisk dir'.tail before pair →
      ¬ Cycles (lookupNext dev blockCount gdisk name) pair) :
    (dirFindNames (enterDir gdisk) (findName dev blockCount gdisk (lookupFuel blockCount)) names dir
      tag).2.isSome := by
  induction names generalizing dir tag with
  | nil => rfl
  | cons name names ih =>
    rw [dirFindNames]
    cases henter : enterDir gdisk dir tag with
    | error err => rfl
    | ok dir' =>
      have hfirst := @findName_ends _ _ _ _ dir' (h [] name names dir' _ rfl henter .here)
      obtain ⟨⟨found, res⟩, hfound⟩ := Option.isSome_iff_exists.mp hfirst
      dsimp only
      rw [hfound]
      cases res with
      | error err => rfl
      | ok tag' =>
        refine ih fun before name' behind next pair hnames henter' hlead => ?_
        exact h (name :: before) name' behind dir' pair (by rw [hnames]; rfl) henter
          (.down hfound henter' hlead)

theorem enterDir_root (gdisk : GState) (dir : MetadataDir) :
    enterDir gdisk dir (mkTag typeDir 0x3ff 0) = .ok dir := by
  obtain ⟨htype, hid⟩ : tagType3 (mkTag typeDir 0x3ff 0) = typeDir ∧
    tagId (mkTag typeDir 0x3ff 0) = 0x3ff := by decide
  rw [enterDir, if_neg (not_not.mpr htype), if_pos hid]

/-- **Which lookups end.** `lfs_dir_find` ends on a mounted device if and only if no directory on
the way leads by hard tails, past pairs without the name, to a cycle. The root leads to none unless
the block size had to be searched for. -/
theorem dirFind_ends_iff {image : Nat → Nat → DiskBlock} {cfg : MountConfig} {m : MountState}
    (hmount : rawMount image cfg fuel = some (.ok m)) (dir : MetadataDir) (path : List UInt8) :
    (∃ fuel, (dirFind (blocksDevice (image m.blockSize)) m.blockCount m.gstate fuel m.root dir
      path).2.isSome) ↔
    ∀ before name behind pair, literalPath path = before ++ name :: behind →
      Leads (blocksDevice (image m.blockSize)) m.blockCount m.gstate m.root before pair →
      (before = [] → cfg.blockSize = 0) →
      ¬ Cycles (lookupNext (blocksDevice (image m.blockSize)) m.blockCount m.gstate name) pair := by
  have hnames : ∀ fuel, (dirFind (blocksDevice (image m.blockSize)) m.blockCount m.gstate fuel
      m.root dir path).2.isSome = (dirFindNames (enterDir m.gstate)
        (findName (blocksDevice (image m.blockSize)) m.blockCount m.gstate fuel) (literalPath path)
        { dir with tail := m.root } (mkTag typeDir 0x3ff 0)).2.isSome := by
    intro fuel
    rw [literalPath_eq, ← (dirFind_eq ..).2, Option.isSome_map]
  constructor
  · rintro ⟨fuel, hends⟩ before name behind pair hpath hlead -
    rw [hnames, hpath] at hends
    exact not_cycles_of_ends (enterDir_root ..) hlead hends
  · intro h
    refine ⟨lookupFuel m.blockCount, ?_⟩
    rw [hnames]
    refine ends_of_not_cycles fun before name behind dir' pair hpath henter hlead => ?_
    rw [enterDir_root] at henter
    cases henter
    by_cases hroot : before = [] ∧ cfg.blockSize ≠ 0
    · -- the root itself, on a list that the mount has followed to its end
      obtain ⟨rfl, hsize⟩ := hroot
      obtain ⟨hlist, hcount⟩ := rawMount_root hsize hmount
      exact hlead.eq_of_nil ▸ hlist.not_cycles hcount
    · refine h before name behind pair hpath hlead fun hnil => ?_
      exact not_not.mp fun hsize => hroot ⟨hnil, hsize⟩

/-- A root with one directory `a` whose only pair has a hard tail to itself. -/
def loopImage (_blockSize block : Nat) : DiskBlock :=
  if block = 0 then
    ⟨1#32, some [⟨mkTag typeCreate 0 0, []⟩, ⟨mkTag typeSuperblock 0 8, littlefsName⟩,
      ⟨mkTag typeInlinestruct 0 48, toLe 8 0x20000 ++ toLe 8 128 ++ toLe 8 8 ++
        List.replicate 24 0⟩,
      ⟨mkTag typeCreate 1 0, []⟩, ⟨mkTag typeDir 1 1, [97]⟩,
      ⟨mkTag typeDirstruct 1 16, pairToLe64 (2, 3)⟩]⟩
  else if block = 2 then ⟨1#32, some [⟨mkTag typeHardtail 0x3ff 16, pairToLe64 (2, 3)⟩]⟩
  else ⟨0#32, none⟩

def loopConfig : MountConfig where
  blockSize := 128
  blockCount := 8
  eraseSize := 128
  nameMax := 255
  fileMaxSize := fileMax
  attrMax := 1022
  eraseSize_pos := by decide
  blockCount_lt := by decide

/-- What the mount of this image leaves. -/
def loopMount : MountState where
  blockSize := 128
  sizeLimit := 128
  blockCount := 8
  root := (0, 1)
  gstate := {}
  nameMax := 255
  fileMaxSize := fileMax
  attrMax := 1022

theorem loopImage_mounts : rawMount loopImage loopConfig 3 = some (.ok loopMount) := by
  decide +kernel

/-- The lookup of `a` on this image. -/
theorem dirFind_ends_loop : ∃ fuel, (dirFind (blocksDevice (loopImage 128)) 8 {} fuel (0, 1)
    ⟨(0, 1), [], 0, false, (0, 1)⟩ [97]).2.isSome := by
  refine (dirFind_ends_iff loopImage_mounts ⟨(0, 1), [], 0, false, (0, 1)⟩ [97]).mpr
    fun before name behind pair hpath _ => ?_
  have hlength := congrArg List.length hpath
  rw [List.length_append, List.length_cons, show (literalPath [97]).length = 1 by decide +kernel]
    at hlength
  obtain rfl : before = [] := List.eq_nil_of_length_eq_zero (by omega)
  intro hroot
  exact absurd (hroot rfl) (by decide)

/-- The lookup of `a/b` goes round the hard tail for ever. -/
theorem dirFind_loops : rawMount loopImage loopConfig 3 = some (.ok loopMount) ∧
    ∀ fuel, (dirFind (blocksDevice (loopImage 128)) 8 {} fuel (0, 1)
      ⟨(0, 1), [], 0, false, (0, 1)⟩ [97, 47, 98]).2 = none := by
  refine ⟨loopImage_mounts, fun fuel => ?_⟩
  obtain ⟨dir, hdir⟩ : ∃ dir : MetadataDir, dir = ⟨(0, 1), [], 0, false, (0, 1)⟩ := ⟨_, rfl⟩
  obtain ⟨found, tag, dir', hfind, henter, htail⟩ : ∃ found tag dir',
      findName (blocksDevice (loopImage 128)) 8 {} 1 [97] dir = some (found, .ok tag) ∧
        enterDir {} found tag = .ok dir' ∧ dir'.tail = (2, 3) := by
    refine subdir_eq_some ?_
    rw [hdir]
    decide +kernel
  have hcycle : Cycles (lookupNext (blocksDevice (loopImage 128)) 8 {} [98]) (2, 3) :=
    ⟨0, 1, (2, 3), rfl, Nat.one_pos, by decide +kernel⟩
  have hlead : Leads (blocksDevice (loopImage 128)) 8 {} dir.tail [[97]] (2, 3) :=
    .down hfind henter (htail ▸ .here)
  rw [← Option.not_isSome_iff_eq_none, ← Option.isSome_map, (dirFind_eq ..).2, ← hdir]
  intro hends
  have hpath : namesOf (moves [97, 47, 98]) = [[97]] ++ [98] :: [] := by decide +kernel
  rw [hpath] at hends
  refine not_cycles_of_ends (enterDir_root ..) ?_ hends hcycle
  rw [hdir] at hlead ⊢
  exact hlead

end LittleFs
