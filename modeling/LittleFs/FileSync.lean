import LittleFs.FileSession

/-! `lfs_file_rawsync`: the entry of a file always refers to bytes that a sync has saved, or the one
that is under way, whenever a run of calls and syncs stops.

A power loss is a device whose requests fail from some time on. What `lfs_dir_commit` leaves is
given by a function: on failure the entry may be the old one or the new one. -/

namespace LittleFs

open BitCount SkipList
open StateLogic StateLogic.Prog

namespace FileIo

/-! ## The entry of a file -/

/-- The struct of a file in its directory. -/
inductive FileStruct where
  /-- `LFS_TYPE_INLINESTRUCT`. -/
  | inline (bytes : List UInt8)
  /-- `LFS_TYPE_CTZSTRUCT`. -/
  | ctz (head size : Nat)
  deriving DecidableEq

/-- The blocks that `lfs_fs_rawtraverse` finds behind the entry. -/
def FileStruct.blocks (cfg : Config) (disk : Nat → ByteImage.Image) : FileStruct → List Nat
  | .inline _ => []
  | .ctz head size =>
    if size = 0 then [] else chainBack disk (ctzIndex cfg.blockSize (size - 1)).1 head

/-- A file with this entry holds the bytes. -/
def FileStruct.Stores (cfg : Config) (disk : Nat → ByteImage.Image) (bytes : List UInt8) :
    FileStruct → Prop
  | .inline bytes' => bytes' = bytes
  | .ctz head size => ∃ addr, FileReader.Stores cfg.toReadConfig disk addr bytes { head, size }

/-- What the entry becomes. -/
def File.struct (f : File) : FileStruct :=
  if f.isInline then .inline (ByteImage.read f.cache.buffer 0 f.size) else .ctz f.head f.size

/-! ## The program -/

/-- A file handle, and what the device has of its file. -/
structure Volume where
  state : State
  /-- The struct of the file in its directory. -/
  entry : FileStruct
  /-- `lfs_pair_isnull` of the pair of the handle: the file was removed. -/
  removed : Bool := false
  /-- The steps that were answered. -/
  done : Nat := 0

/-- How `lfs_dir_commit` of a struct ends. -/
structure CommitResult where
  err : Option DeviceError
  /-- The struct has reached the device. -/
  entered : Bool
  disk : Nat → ByteImage.Image
  readCache : WriteCache
  writeCache : WriteCache

/-- What is answered to a handle: by the device and by `lfs_alloc`, which knows the blocks that the
entry of the file refers to, and by `lfs_dir_commit`. -/
structure Media where
  world : (committed : List Nat) → World
  commit : Volume → FileStruct → CommitResult

abbrev VolumeM := Prog Volume

def Volume.setState (v : Volume) (state : State) : Volume := { v with state }

def Volume.modFile (v : Volume) (g : File → File) : Volume := v.setState (v.state.modFile g)

/-- The blocks that the entry of the file refers to. -/
def Volume.committed (cfg : Config) (v : Volume) : List Nat := v.entry.blocks cfg v.state.disk

/-- The volume after a commit; the requests are counted anew. -/
def Volume.enter (v : Volume) (e : FileStruct) (r : CommitResult) : Volume :=
  { v with
    state := { v.state.tick with
      disk := r.disk, readCache := r.readCache, writeCache := r.writeCache, events := [] }
    entry := if r.entered then e else v.entry }

variable (cfg : Config) (m : Media)

/-- A program of the handle. -/
def onHandle (p : World → FileM α) : VolumeM α :=
  Prog.within Volume.state Volume.setState fun v => p (m.world (v.committed cfg))

/-- `lfs_dir_commit` of the struct of the file. -/
def dirCommit (e : FileStruct) : VolumeM Int := fun v =>
  (some (resultOf (m.commit v e).err), v.enter e (m.commit v e))

/-- `LFS_F_ERRED` is set with the error. -/
def syncErred (err : Int) : VolumeM Int := do
  Prog.modify (·.modFile fun f => { f with erred := true })
  return err

/-- What `lfs_file_rawsync` commits after the flush. -/
def updateEntry : VolumeM Int := do
  let v ← Prog.get
  if v.state.file.dirty ∧ v.removed = false then do
    -- update dir entry
    let err ← dirCommit m v.state.file.struct
    if err ≠ errOk then syncErred err
    else do
      Prog.modify (·.modFile fun f => { f with dirty := false })
      return errOk
  else return errOk

/-- `lfs_file_rawsync`. -/
def rawsync : VolumeM Int := do
  let v ← Prog.get
  -- it's not safe to do anything if our file errored
  if v.state.file.erred then return errOk
  else do
    let err ← onHandle cfg m (flush cfg)
    if err ≠ errOk then syncErred err
    else updateEntry m

inductive Step where
  | call (c : Call)
  | sync

def Step.answer : Step → VolumeM (Except Int Answer)
  | .call c => onHandle cfg m fun w => FileIo.answer cfg w c
  | .sync => do
    let res ← rawsync cfg m
    return answerOf res fun _ => .done

/-- The answers of the steps that succeed, up to the first one that fails, and its error. -/
def runSteps : List Step → VolumeM (List Answer × Int)
  | [] => return ([], errOk)
  | step :: steps => do
    match ← step.answer cfg m with
    | .error err => return ([], err)
    | .ok a => do
      Prog.modify fun v => { v with done := v.done + 1 }
      let (answers, err) ← runSteps steps
      return (a :: answers, err)

/-! ## What it is for -/

/-- The bytes of a handle, and those that were saved. -/
structure Saved where
  content : Content
  saved : List UInt8
  deriving DecidableEq

def Saved.step (maxSize : Nat) (x : Saved) : Step → Option (Answer × Saved)
  | .call c => (x.content.call maxSize c).map fun (a, content) => (a, { x with content })
  | .sync => some (.done, { x with saved := x.content.bytes })

def Step.call? : Step → Option Call
  | .call c => some c
  | .sync => none

/-- The farthest position of the steps up to the first one that is refused. -/
def Saved.farthest (maxSize : Nat) (steps : List Step) (x : Saved) : Nat :=
  x.content.farthest maxSize (steps.filterMap Step.call?)

/-- The answers of the steps up to the first one that is refused, and the bytes then. -/
def Saved.run (maxSize : Nat) : List Step → Saved → List Answer × Saved
  | [], x => ([], x)
  | step :: steps, x =>
    match x.step maxSize step with
    | none => ([], x)
    | some (a, x) => (a :: (Saved.run maxSize steps x).1, (Saved.run maxSize steps x).2)

variable {cfg : Config} {m : Media} {w : World} {P : Nat → Prop} {d d' : Nat → ByteImage.Image}
  {bytes bytes' : List UInt8} {old addr addr' : Nat → Nat} {e : FileStruct} {n k b : Nat}
  {s s' : State} {v v' : Volume} {x : Saved} {c : Content} {step : Step} {steps : List Step}
  {a : Answer}

/-! ## One entry -/

/-- The list of a file that is not empty. -/
theorem stores_lists (H : FileReader.Stores cfg.toReadConfig d addr bytes { head := k, size := n })
    (h : bytes ≠ []) : n = bytes.length ∧ k = addr (cfg.lastByte bytes).1 ∧
      Lists cfg d bytes (cfg.lastByte bytes).1 addr := by
  have hpos := List.length_pos_iff.mpr h
  obtain ⟨rfl, hhead, hlist, hbyte⟩ := H
  exact ⟨rfl, hhead hpos, hlist hpos, fun i pos off => hbyte pos i off⟩

theorem Lists.stores (H : bytes ≠ [] → Lists cfg d bytes (cfg.lastByte bytes).1 addr)
    (hhead : bytes ≠ [] → k = addr (cfg.lastByte bytes).1) :
    FileReader.Stores cfg.toReadConfig d addr bytes { head := k, size := bytes.length } :=
  ⟨rfl, fun h => hhead (List.ne_nil_of_length_pos h),
    fun h => (H (List.ne_nil_of_length_pos h)).list,
    fun pos i off hholds h => (H (List.ne_nil_of_length_pos (by omega))).byte i pos off hholds h⟩

/-- The blocks of a list. -/
theorem Lists.mem_chainBack_iff (H : Lists cfg d bytes n addr) :
    b ∈ chainBack d n (addr n) ↔ ∃ i ≤ n, addr i = b := by
  rw [chainBack_eq H.list (Nat.le_refl n), List.mem_map]
  constructor
  · rintro ⟨i, hi, rfl⟩
    exact ⟨i, Nat.le_of_lt_succ (List.mem_range.mp (List.mem_reverse.mp hi)), rfl⟩
  · rintro ⟨i, hi, rfl⟩
    exact ⟨i, List.mem_reverse.mpr (List.mem_range.mpr (Nat.lt_succ_of_le hi)), rfl⟩

/-- The blocks behind an entry are those of its list. -/
theorem mem_blocks (H : FileReader.Stores cfg.toReadConfig d addr bytes { head := k, size := n }) :
    b ∈ (FileStruct.ctz k n).blocks cfg d ↔ ListBlock cfg bytes addr b := by
  rw [FileStruct.blocks, ListBlock]
  by_cases hnil : bytes = []
  · subst hnil
    obtain rfl : n = 0 := H.size
    simp
  · obtain ⟨rfl, rfl, Hl⟩ := stores_lists H hnil
    rw [if_neg (Nat.ne_of_gt (List.length_pos_iff.mpr hnil))]
    exact Hl.mem_chainBack_iff.trans ⟨fun h => ⟨hnil, h⟩, fun h => h.2⟩

/-- What an entry refers to stays while its blocks do. -/
theorem FileStruct.Stores.congr (H : e.Stores cfg d bytes) (hmax : cfg.Indexes bytes.length)
    (h : ∀ b ∈ e.blocks cfg d, d' b = d b) :
    e.Stores cfg d' bytes ∧ e.blocks cfg d' = e.blocks cfg d := by
  cases e with
  | inline => exact ⟨H, rfl⟩
  | ctz k n =>
    obtain ⟨addr, H⟩ := H
    by_cases hnil : bytes = []
    · subst hnil
      obtain rfl : n = 0 := H.size
      refine ⟨⟨addr, rfl, fun h => absurd h (Nat.lt_irrefl 0), fun h => absurd h (Nat.lt_irrefl 0),
        fun _ _ _ _ h => absurd h (Nat.not_lt_zero _)⟩, ?_⟩
      rw [FileStruct.blocks, FileStruct.blocks, if_pos rfl, if_pos rfl]
    · have hblock : ∀ b, ListBlock cfg bytes addr b → d' b = d b := fun b hb =>
        h b ((mem_blocks H).mpr hb)
      obtain ⟨rfl, rfl, Hl⟩ := stores_lists H hnil
      obtain ⟨off, hends, -⟩ := lastByte_spec hmax hnil Hl.list.room
      have Hl' : Lists cfg d' bytes (cfg.lastByte bytes).1 addr :=
        Hl.of_eq hends fun i hi => hblock _ ⟨hnil, i, hi, rfl⟩
      refine ⟨⟨addr, Lists.stores (fun _ => Hl') fun _ => rfl⟩, ?_⟩
      rw [FileStruct.blocks, FileStruct.blocks]
      split
      · rfl
      · have hchain := chainBack_eq Hl.list (Nat.le_refl (cfg.lastByte bytes).1)
        exact (chainBack_eq Hl'.list (Nat.le_refl _)).trans hchain.symm

/-- Two lists with one head hold one content. -/
theorem Lists.unique (H : Lists cfg d bytes n addr) (H' : Lists cfg d bytes' n addr')
    (hhead : addr n = addr' n) (hlength : bytes'.length = bytes.length)
    (hholds : ∀ pos < bytes.length, ∃ i ≤ n, ∃ off, Holds 8 cfg.blockSize i pos off) :
    bytes' = bytes := by
  have hchain := chainBack_eq H.list (Nat.le_refl n)
  rw [hhead, chainBack_eq H'.list (Nat.le_refl n)] at hchain
  refine List.ext_getElem hlength fun pos hpos' hpos => ?_
  obtain ⟨i, hi, off, hat⟩ := hholds pos hpos
  have haddr : addr' i = addr i := List.map_inj_left.mp hchain i
    (List.mem_reverse.mpr (List.mem_range.mpr (Nat.lt_succ_of_le hi)))
  rw [← H.byte i pos off hat hpos, ← H'.byte i pos off hat hpos', haddr]

/-- An entry refers to one content. -/
theorem FileStruct.Stores.unique (H : e.Stores cfg d bytes) (H' : e.Stores cfg d bytes')
    (hmax : cfg.Indexes bytes.length) : bytes' = bytes := by
  cases e with
  | inline => exact Eq.trans (Eq.symm H') H
  | ctz k n =>
    obtain ⟨addr, H⟩ := H
    obtain ⟨addr', H'⟩ := H'
    have hlength : bytes'.length = bytes.length := H'.size.symm.trans H.size
    by_cases hnil : bytes = []
    · subst hnil
      exact List.length_eq_zero_iff.mp hlength
    · have hnil' : bytes' ≠ [] := fun h => by
        rw [h] at hlength
        exact hnil (List.length_eq_zero_iff.mp hlength.symm)
      obtain ⟨-, hhead, Hl⟩ := stores_lists H hnil
      obtain ⟨-, hhead', Hl'⟩ := stores_lists H' hnil'
      have hlast : (cfg.lastByte bytes').1 = (cfg.lastByte bytes).1 := by
        rw [Config.lastByte, Config.lastByte, hlength]
      rw [hlast] at hhead' Hl'
      refine Hl.unique Hl' (hhead.symm.trans hhead') hlength fun pos hpos => ?_
      have hexact := hmax.exact pos (by omega)
      have hend := (hmax.exact (bytes.length - 1) (by omega)).lt
      exact ⟨_, hexact.index_le (Nat.lt_of_le_of_lt (by omega) hend), _, hexact⟩

/-! ## Between two commits -/

/-- **The committed file.** In a run of calls none of which is a truncation that slips, no request
addresses a block that the committed metadata reaches, each of these holds what it held, and so does
each committed file. -/
theorem run_keepsCommitted (hcfg : cfg.toReadConfig.Ok) (hblock : 0 < cfg.blockSize)
    (hinline : ¬ P blockInline) (hw : w.AllocatesOutside P) (hnew : s.events = [])
    (H : Apart P s) {calls : List Call} (hclear : Clear cfg w calls s) :
    (∀ e ∈ (run cfg w calls s).2.events, ∀ b, e.block = some b → ¬ P b) ∧
      (∀ b, P b → (run cfg w calls s).2.disk b = s.disk b) ∧
      ∀ (e : FileStruct) bytes, (∀ b ∈ e.blocks cfg s.disk, P b) → cfg.Indexes bytes.length →
        e.Stores cfg s.disk bytes → e.Stores cfg (run cfg w calls s).2.disk bytes := by
  have hcache : cfg.cacheSize ≤ cfg.blockSize := Nat.le_of_dvd hblock hcfg.cacheSize_dvd
  have hstart : Untouched P s.disk s :=
    ⟨fun e he => absurd (hnew ▸ he) List.not_mem_nil, fun _ _ => rfl⟩
  have hrun := (keeps_run hw hinline hblock hcache calls H hclear).holds hstart
  exact ⟨hrun.requests, hrun.disk, fun e bytes hreached hmax hstores =>
    (hstores.congr hmax fun b hb => hrun.disk b (hreached b hb)).1⟩

/-- A device on which the first program fails, and the read behind it. -/
def failsTwice : World :=
  { firstFree smallBlocks 2 8 with
    readFails := fun clock _ _ _ => if clock = 3 then some (ioError, []) else none
    program := fun clock _ offset bytes image =>
      if clock = 2 then (some ioError, image) else (none, ByteImage.write image offset bytes) }

theorem failsTwice_allocates : failsTwice.Allocates smallBlocks (· < 2) :=
  ⟨(firstFree_allocates smallBlocks 2 8).block, (firstFree_allocates smallBlocks 2 8).cache⟩

theorem run_keepsCommitted_relocated :
    let s' := (run smallBlocks (faulty [] corruptError [2]) [.write (List.replicate 16 1),
      .seek 3 .set, .write [2], .truncate 4, .write [3]] seventeenBytes).2
    (∀ e ∈ s'.events, ∀ b, e.block = some b → ¬ b = 1) ∧
      (∀ b, b = 1 → s'.disk b = seventeenBytes.disk b) ∧
      ∀ (e : FileStruct) bytes, (∀ b ∈ e.blocks smallBlocks seventeenBytes.disk, b = 1) →
        smallBlocks.Indexes bytes.length → e.Stores smallBlocks seventeenBytes.disk bytes →
        e.Stores smallBlocks s'.disk bytes :=
  run_keepsCommitted smallBlocks_ok (by decide) (by decide) (faulty_allocatesOutside _ _ _) rfl
    (.opened rfl rfl) (by decide +kernel)

/-- The file of 17 bytes is committed in block 1; the last write programs this block. -/
theorem run_touchesCommitted : ¬ ∀ cfg w P calls s, cfg.toReadConfig.Ok → 0 < cfg.blockSize →
    ¬ P blockInline → w.Allocates cfg P → s.events = [] → Apart P s →
    ∀ e ∈ (run cfg w calls s).2.events, ∀ b, e.block = some b → ¬ P b := by
  intro h
  have hnone := h smallBlocks failsTwice (· < 2)
    [.write (List.replicate 16 1), .truncate 4, .write [1]] seventeenBytes smallBlocks_ok
      (by decide)
    (by decide) failsTwice_allocates rfl (.opened rfl rfl)
  have hany : (run smallBlocks failsTwice [.write (List.replicate 16 1), .truncate 4, .write [1]]
      seventeenBytes).2.events.any (fun e => e.block == some 1) = true := by decide +kernel
  obtain ⟨e, he, hb⟩ := List.any_eq_true.mp hany
  exact hnone e he 1 (beq_iff_eq.mp hb) (by decide)

/-! ## The invariant -/

/-- What is relied on: `lfs_alloc` returns no block that the entry or the handle refers to, and a
commit touches none; it enters the struct when it succeeds. -/
structure Media.Sound (cfg : Config) (m : Media) : Prop where
  programs : ∀ committed, (m.world committed).ProgramsLocal
  allocates : ∀ committed, (m.world committed).Allocates cfg (· ∈ committed)
  entered : ∀ v e, (m.commit v e).err = none → (m.commit v e).entered = true
  disk : ∀ v e b, b ∈ v.committed cfg ∨ b ∈ e.blocks cfg v.state.disk →
    (m.commit v e).disk b = v.state.disk b
  readCache : ∀ v e, (m.commit v e).err = none → (m.commit v e).readCache = v.state.readCache ∨
    ∀ b ∈ e.blocks cfg v.state.disk, AgreesOn b (v.enter e (m.commit v e)).state
  writeCache : ∀ v e, (m.commit v e).err = none → (m.commit v e).writeCache.block = none

/-- The entry of the file holds the bytes. -/
def Volume.Saves (cfg : Config) (bytes : List UInt8) (v : Volume) : Prop :=
  v.entry.Stores cfg v.state.disk bytes

/-- Between two steps. -/
structure Volume.Stands (cfg : Config) (x : Saved) (v : Volume) : Prop where
  stands : v.state.Stands cfg (· ∈ v.committed cfg) x.content
  apart : Apart (· ∈ v.committed cfg) v.state
  requests : ∀ e ∈ v.state.events, ∀ b, e.block = some b → b ∉ v.committed cfg
  allocs : Allocs (SeesLists cfg) v.state
  attached : v.removed = false
  erred : v.state.file.erred = false
  clean : v.state.file.dirty = false → v.entry = .ctz v.state.file.head v.state.file.size
  saves : v.Saves cfg x.saved
  length : cfg.Indexes x.saved.length

/-- While a step is under way the entry holds what was saved, or what a sync saves. -/
structure Volume.During (cfg : Config) (x : Saved) (step : Step) (n : Nat) (v : Volume) : Prop where
  done : v.done = n
  saves : v.Saves cfg x.saved ∨ step = .sync ∧ v.Saves cfg x.content.bytes

theorem State.Stands.apart (H : s.Stands cfg P c) (hwriting : s.file.writing = false) :
    Apart P s := by
  obtain ⟨old, Hi⟩ := H.holds.idle_of hwriting
  exact ⟨.none Hi.shared, fun h => (by cases hwriting.symm.trans h), fun h => by
    cases hwriting.symm.trans h⟩

/-- The device keeps the blocks of the entry. -/
theorem Volume.Stands.untouched (H : v.Stands cfg x)
    (h : Untouched (· ∈ v.committed cfg) v.state.disk s) :
    (v.setState s).Saves cfg x.saved ∧ (v.setState s).committed cfg = v.committed cfg :=
  FileStruct.Stores.congr H.saves H.length fun b hb => h.disk b hb

/-- The blocks of the entry are blocks of the device. -/
theorem Volume.Stands.lt (H : v.Stands cfg x) (hb : b ∈ v.committed cfg) : b < cfg.blockCount := by
  have hsaves := H.saves
  rw [Volume.Saves] at hsaves
  rw [Volume.committed] at hb
  cases hentry : v.entry with
  | inline =>
    rw [hentry] at hb
    cases hb
  | ctz k n =>
    rw [hentry] at hb hsaves
    obtain ⟨addr, hsaves⟩ := hsaves
    obtain ⟨hnil, i, hi, rfl⟩ := (mem_blocks hsaves).mp hb
    obtain ⟨-, -, Hl⟩ := stores_lists hsaves hnil
    exact Hl.list.lt i hi

theorem Volume.Stands.not_inline (H : v.Stands cfg x) (Hcfg : cfg.Fits) :
    blockInline ∉ v.committed cfg := fun h => Nat.not_lt.mpr Hcfg.count (H.lt h)

/-! ## The calls -/

theorem Config.Fits.blockSize_pos (H : cfg.Fits) : 0 < cfg.blockSize :=
  Nat.lt_of_le_of_lt (Nat.zero_le _) H.blockSize

theorem Config.Fits.cacheSize_le (H : cfg.Fits) : cfg.cacheSize ≤ cfg.blockSize :=
  Nat.le_of_dvd H.blockSize_pos H.read.cacheSize_dvd

theorem World.Allocates.outside (H : w.Allocates cfg P) : w.AllocatesOutside P :=
  fun clock s b h => (H.block clock s b h).2.1

/-- A call that the durable bytes do not notice. -/
theorem keeps_answer (ha : w.Allocates cfg P) (hinline : ¬ P blockInline) (Hcfg : cfg.Fits)
    (H : Apart P s) {call : Call} (hplain : s.file.Plain cfg call) :
    Keeps (Untouched P d) (answer cfg w call) s fun _ s' => Apart P s' := by
  have hw := ha.outside
  have hblock := Hcfg.blockSize_pos
  have hcache := Hcfg.cacheSize_le
  cases call with
  | write bytes =>
    exact .bind (keeps_rawwrite hw hinline hblock hcache bytes H) fun _ _ h => .pure h
  | read size =>
    exact .bind (keeps_rawreadFile hw hinline hblock hcache size H) fun _ _ h => .pure h
  | seek offset whence =>
    exact .bind (keeps_rawseek hw hinline hblock hcache offset whence H) fun _ _ h => .pure h
  | truncate size =>
    refine .bind (keeps_rawtruncate hw hinline hblock hcache size H fun h => ?_)
      fun _ _ h => .pure h
    obtain ⟨-, hlt, hle, -⟩ := h
    exact Nat.not_lt.mpr hle (hplain.1 hlt)
  | flush => exact .bind (keeps_flush hw hinline hblock hcache H) fun _ _ h => .pure h.1

/-- The program of a handle. -/
theorem keeps_onHandle (H : v.Stands cfg x) (step : Step)
    {p : World → FileM α} {Q R : α → State → Prop}
    (hp : Keeps (Allocs (SeesLists cfg)) (p (m.world (v.committed cfg))) v.state Q)
    (hp' : Keeps (Untouched (· ∈ v.committed cfg) v.state.disk) (p (m.world (v.committed cfg)))
      v.state R) :
    Keeps (Volume.During cfg x step v.done) (onHandle cfg m p) v fun a v' => ∃ s,
      v' = v.setState s ∧ Allocs (SeesLists cfg) s ∧
        Untouched (· ∈ v.committed cfg) v.state.disk s ∧ Q a s ∧ R a s :=
  .mono (.within (hp.and hp') ⟨H.allocs, H.requests, fun _ _ => rfl⟩ fun _ h =>
    ⟨rfl, .inl (H.untouched h.2).1⟩) fun _ _ ⟨s, hv, hJ, hQ⟩ => ⟨s, hv, hJ.1, hJ.2, hQ⟩

/-- The volume after a step of the handle. -/
theorem Volume.Stands.onward (H : v.Stands cfg x)
    (hallocs : Allocs (SeesLists cfg) s) (h : Untouched (· ∈ v.committed cfg) v.state.disk s)
    (hapart : Apart (· ∈ v.committed cfg) s) (hr : Reaches cfg (· ∈ v.committed cfg) v.state c s) :
    (v.setState s).Stands cfg { x with content := c } := by
  obtain ⟨hsaves, hcommitted⟩ := H.untouched h
  exact {
    stands := by
      rw [hcommitted]
      exact hr.toStands
    apart := by
      rw [hcommitted]
      exact hapart
    requests := by
      rw [hcommitted]
      exact h.requests
    allocs := hallocs
    attached := H.attached
    erred := hr.follows.erred H.erred
    clean := fun hclean => by
      obtain ⟨hclean, hhead, hsize⟩ := hr.follows.clean hclean
      exact (H.clean hclean).trans (by rw [← hhead, ← hsize]; rfl)
    saves := hsaves
    length := H.length }

/-- **A call** leaves what is saved. -/
theorem Volume.Stands.call (H : v.Stands cfg x) (Hcfg : cfg.Fits) (hlong : 256 < cfg.cacheSize)
    (hm : m.Sound cfg) {call : Call} {calls : List Call} (hplain : v.state.file.Plain cfg call)
    (hreach : cfg.Indexes (x.content.farthest cfg.fileMaxSize (call :: calls))) :
    Keeps (Volume.During cfg x (.call call) v.done) ((Step.call call).answer cfg m) v fun res v' =>
      Fails res ∧ ∀ a, res = .ok a → v'.done = v.done ∧
        ∃ x', x.step cfg.fileMaxSize (.call call) = some (a, x') ∧ v'.Stands cfg x' := by
  have hw := hm.programs (v.committed cfg)
  have ha := hm.allocates (v.committed cfg)
  refine .mono (keeps_onHandle (p := fun w => answer cfg w call) H (.call call)
    (H.stands.answer Hcfg hlong hw ha hplain hreach)
    (keeps_answer ha (H.not_inline Hcfg) Hcfg H.apart hplain)) fun res v' h => ?_
  obtain ⟨s, rfl, hallocs, huntouched, ⟨hfails, hok⟩, hapart⟩ := h
  refine ⟨hfails, fun a heq => ⟨rfl, ?_⟩⟩
  obtain ⟨⟨c, hcall, hr⟩, -⟩ := hok a heq
  exact ⟨{ x with content := c }, by rw [Saved.step, hcall]; rfl,
    H.onward hallocs huntouched hapart hr⟩

/-! ## A sync -/

/-- The entry after a commit, also one that fails. -/
theorem Volume.Stands.during (H : v.Stands cfg x) (hm : m.Sound cfg)
    (he : e.Stores cfg v.state.disk x.content.bytes) :
    (v.enter e (m.commit v e)).During cfg x .sync v.done := by
  refine ⟨rfl, ?_⟩
  have hdisk := hm.disk v e
  rw [Volume.Saves, Volume.Saves, Volume.enter]
  dsimp only
  split
  · exact .inr ⟨rfl, (he.congr H.stands.length fun b hb => hdisk b (.inr hb)).1⟩
  · exact .inl (H.saves.congr H.length fun b hb => hdisk b (.inl hb)).1

/-- The handle once its list is entered. -/
theorem Idle.entered (H : Idle cfg P bytes old s)
    (hkept : Kept (ListBlock cfg bytes old) s s') (hfile : s'.file = s.file)
    (hshared : s'.writeCache.block = none) {P' : Nat → Prop}
    (hP : ∀ b, ListBlock cfg bytes old b → P' b) :
    Idle cfg P' bytes old (s'.modFile fun f => { f with dirty := false }) := by
  have Hs := H.stored.kept hkept (fun _ hb => hb) (by rw [hfile]) (by rw [hfile]) (by rw [hfile])
  obtain ⟨hwriting, hinline, -, -, hcache, hdropped, hplaced⟩ := H
  rw [← hfile] at hwriting hinline hcache hdropped hplaced
  exact {
    writing := hwriting
    isInline := hinline
    shared := hshared
    stored := ⟨Hs.size, Hs.head, Hs.lists, Hs.length, Hs.agrees, .inl hP⟩
    cache := fun b hb x hlo hhi hhas hnot => by
      change _ = s'.disk b x
      rw [hkept.disk b hb]
      exact hcache b hb x hlo hhi hhas hnot
    dropped := hdropped
    placed := hplaced }

/-- What a sync returns and leaves. -/
def Volume.Synced (cfg : Config) (x : Saved) (n : Nat) (err : Int) (v : Volume) : Prop :=
  Code err ∧ (err = errOk → v.done = n ∧ v.Stands cfg { x with saved := x.content.bytes })

theorem keeps_syncErred {err : Int} (hcode : Code err) (h : err ≠ errOk) :
    Keeps (Volume.During cfg x .sync n) (syncErred err) v (Volume.Synced cfg x n) :=
  .modify_bind (fun h => ⟨h.done, h.saves⟩) (.pure ⟨hcode, fun herr => absurd herr h⟩)

/-- **A commit** that succeeds. -/
theorem Volume.Stands.entered (H : v.Stands cfg x) (hm : m.Sound cfg)
    (Hi : Idle cfg (· ∈ v.committed cfg) x.content.bytes old v.state)
    (he : FileStruct.ctz v.state.file.head v.state.file.size = e)
    (hstores : e.Stores cfg v.state.disk x.content.bytes)
    (hblocks : ∀ b, b ∈ e.blocks cfg v.state.disk ↔ ListBlock cfg x.content.bytes old b)
    (hok : (m.commit v e).err = none) :
    ((v.enter e (m.commit v e)).modFile fun f => { f with dirty := false }).Stands cfg
      { x with saved := x.content.bytes } := by
  obtain ⟨v₂, hv₂⟩ : ∃ v₂, v.enter e (m.commit v e) = v₂ := ⟨_, rfl⟩
  have hentry : v₂.entry = e := by
    rw [← hv₂, Volume.enter]
    exact if_pos (hm.entered v e hok)
  have hdisk : ∀ b, b ∈ e.blocks cfg v.state.disk → v₂.state.disk b = v.state.disk b :=
    fun b hb => hv₂ ▸ hm.disk v e b (.inr hb)
  obtain ⟨hsaves, hcommitted⟩ := hstores.congr H.stands.length hdisk
  have hkept : Kept (ListBlock cfg x.content.bytes old) v.state v₂.state :=
    ⟨fun b hb => hdisk b ((hblocks b).mpr hb), hv₂ ▸ (hm.readCache v e hok).imp id fun h b hb =>
      h b ((hblocks b).mpr hb)⟩
  have hfile : v₂.state.file = v.state.file := hv₂ ▸ rfl
  have hshared : v₂.state.writeCache.block = none := hv₂ ▸ hm.writeCache v e hok
  have hevents : v₂.state.events = [] := hv₂ ▸ rfl
  have hmod : (v₂.modFile fun f => { f with dirty := false }).committed cfg =
      e.blocks cfg v.state.disk := (congrArg _ hentry).trans hcommitted
  rw [hv₂]
  have hstands :
      State.Stands cfg (· ∈ (v₂.modFile fun f => { f with dirty := false }).committed cfg)
      x.content (v₂.modFile fun f => { f with dirty := false }).state := {
    holds := .idle old (Hi.entered hkept hfile hshared fun b hb => by
      rw [hmod]
      exact (hblocks b).mpr hb)
    pos := (congrArg File.pos hfile).trans H.stands.pos
    append := (congrArg File.append hfile).trans H.stands.append
    indexes := H.stands.indexes }
  exact {
    stands := hstands
    apart := hstands.apart ((congrArg File.writing hfile).trans Hi.writing)
    requests := fun ev hev => by
      rw [show (v₂.modFile _).state.events = [] from hevents] at hev
      cases hev
    allocs := fun f d hev => by
      rw [show (v₂.modFile _).state.events = [] from hevents] at hev
      cases hev
    attached := hv₂ ▸ H.attached
    erred := (congrArg File.erred hfile).trans H.erred
    clean := fun _ => by
      change v₂.entry = .ctz v₂.state.file.head v₂.state.file.size
      rw [hentry, hfile, he]
    saves := by
      change v₂.entry.Stores cfg v₂.state.disk x.content.bytes
      rw [hentry]
      exact hsaves
    length := H.stands.length }

/-- A handle that is dirty is entered. -/
theorem Volume.Stands.updateEntry (H : v.Stands cfg x) (Hcfg : cfg.Fits) (hm : m.Sound cfg)
    (Hi : Idle cfg (· ∈ v.committed cfg) x.content.bytes old v.state) :
    Keeps (Volume.During cfg x .sync v.done) (updateEntry m) v (Volume.Synced cfg x v.done) := by
  have hstores : FileReader.Stores cfg.toReadConfig v.state.disk old x.content.bytes
      { head := v.state.file.head, size := v.state.file.size } :=
    (Hi.stored.opened (f := v.state.file) Hcfg rfl rfl).stores.of_same ⟨rfl, rfl⟩
  have hstruct : v.state.file.struct = .ctz v.state.file.head v.state.file.size := by
    rw [File.struct, if_neg (by rw [Hi.isInline]; exact Bool.false_ne_true)]
  refine .get_bind (.ite (fun _ => ?_) fun hclean => ?_)
  · -- the struct is committed
    rw [hstruct]
    obtain ⟨e, he⟩ : ∃ e, FileStruct.ctz v.state.file.head v.state.file.size = e := ⟨_, rfl⟩
    have hestores : e.Stores cfg v.state.disk x.content.bytes := he ▸ ⟨old, hstores⟩
    have hblocks : ∀ b, b ∈ e.blocks cfg v.state.disk ↔ ListBlock cfg x.content.bytes old b :=
      fun b => he ▸ mem_blocks hstores
    rw [he]
    refine .bind (Q := fun err v' => err = resultOf (m.commit v e).err ∧
      v' = v.enter e (m.commit v e)) ⟨fun _ => ⟨H.during hm hestores, rfl, rfl⟩⟩
      fun err v' h => ?_
    obtain ⟨rfl, rfl⟩ := h
    refine .ite (fun herr => keeps_syncErred (code_resultOf _) herr) fun herr => ?_
    have hok : (m.commit v e).err = none := by
      cases herr' : (m.commit v e).err with
      | none => rfl
      | some err =>
        have hneg := err.neg
        rw [herr'] at herr
        rw [show err.code = errOk from not_not.mp herr] at hneg
        cases hneg
    exact .modify_bind (fun h => ⟨h.done, h.saves⟩)
      (.pure ⟨.ok, fun _ => ⟨rfl, H.entered hm Hi he hestores hblocks hok⟩⟩)
  · -- nothing was written since the last sync
    have hclean : v.state.file.dirty = false := Bool.not_eq_true _ ▸ fun h =>
      hclean ⟨h, H.attached⟩
    have hsaves := H.saves
    rw [Volume.Saves, H.clean hclean] at hsaves
    have hsame : x.content.bytes = x.saved :=
      hsaves.unique ⟨old, hstores⟩ H.length
    exact .pure ⟨.ok, fun _ => ⟨rfl, by rw [hsame]; exact H⟩⟩

/-- **A sync** saves what the handle holds, and fails or stops with what was saved before or with
this. -/
theorem Volume.Stands.rawsync (H : v.Stands cfg x) (Hcfg : cfg.Fits) (hlong : 256 < cfg.cacheSize)
    (hm : m.Sound cfg) :
    Keeps (Volume.During cfg x .sync v.done) (rawsync cfg m) v (Volume.Synced cfg x v.done) := by
  have hw := hm.programs (v.committed cfg)
  have ha := hm.allocates (v.committed cfg)
  refine .get_bind (.ite (fun h => ?_) fun _ => ?_)
  · cases H.erred.symm.trans h
  refine .bind (keeps_onHandle (p := flush cfg) H .sync
    (H.stands.holds.flush Hcfg hlong hw ha) (keeps_flush ha.outside (H.not_inline Hcfg)
      Hcfg.blockSize_pos Hcfg.cacheSize_le H.apart)) fun err v₁ h => ?_
  obtain ⟨s, rfl, hallocs, huntouched, ⟨hcode, hok⟩, hapart, -⟩ := h
  refine .ite (fun herr => keeps_syncErred hcode herr) fun herr => ?_
  obtain ⟨⟨old, Hi⟩, -, hpos, hfollows⟩ := hok (not_not.mp herr)
  have hr : Reaches cfg (· ∈ v.committed cfg) v.state x.content s :=
    ⟨⟨.idle old Hi, hpos.trans H.stands.pos, hfollows.append.trans H.stands.append,
      H.stands.indexes⟩, hfollows⟩
  have H₁ := H.onward hallocs huntouched hapart hr
  obtain ⟨old, Hi⟩ := H₁.stands.holds.idle_of Hi.writing
  exact H₁.updateEntry Hcfg hm Hi

/-! ## Runs -/

/-- No call of the steps slips, and the file does not become inline. -/
def PlainSteps (cfg : Config) (m : Media) : List Step → Volume → Prop
  | [], _ => True
  | step :: steps, v => (∀ c, step = .call c → v.state.file.Plain cfg c) ∧
      ∀ a v', step.answer cfg m v = (some (.ok a), v') →
        PlainSteps cfg m steps { v' with done := v'.done + 1 }

theorem PlainSteps.cons (hplain : ∀ c, step = .call c → v.state.file.Plain cfg c)
    (H : PlainSteps cfg m steps
      { (step.answer cfg m v).2 with done := (step.answer cfg m v).2.done + 1 }) :
    PlainSteps cfg m (step :: steps) v :=
  ⟨hplain, fun a v' h => by rwa [h] at H⟩

/-- Of `steps`, before which `start` were answered: the entry holds what the answered ones have
saved, or what the sync behind them saves. -/
def Survives (cfg : Config) (start : Nat) (steps : List Step) (x : Saved) (v : Volume) : Prop :=
  ∃ n ≤ steps.length, v.done = start + n ∧
    (v.Saves cfg (Saved.run cfg.fileMaxSize (steps.take n) x).2.saved ∨ steps[n]? = some .sync ∧
      v.Saves cfg (Saved.run cfg.fileMaxSize (steps.take n) x).2.content.bytes)

theorem Volume.During.survives (H : v.During cfg x step n) : Survives cfg n (step :: steps) x v :=
  ⟨0, Nat.zero_le _, H.done, H.saves.imp id fun h => ⟨congrArg some h.1, h.2⟩⟩

/-- Behind a step that was answered. -/
theorem Survives.cons {x' : Saved} (hstep : x.step cfg.fileMaxSize step = some (a, x'))
    (H : Survives cfg (n + 1) steps x' v) : Survives cfg n (step :: steps) x v := by
  obtain ⟨k, hk, hdone, H⟩ := H
  refine ⟨k + 1, Nat.succ_le_succ hk, by omega, ?_⟩
  rw [List.take_succ_cons, Saved.run, hstep, List.getElem?_cons_succ]
  exact H

theorem Saved.farthest_le {maxSize : Nat} {x' : Saved} (h : x.step maxSize step = some (a, x'))
    (steps : List Step) : x'.farthest maxSize steps ≤ x.farthest maxSize (step :: steps) := by
  cases step with
  | call c =>
    rw [Saved.step] at h
    cases hcall : x.content.call maxSize c with
    | none =>
      rw [hcall] at h
      cases h
    | some r =>
      rw [hcall] at h
      cases h
      exact Content.farthest_le hcall _
  | sync =>
    cases h
    exact Nat.le_refl _

/-- **A step.** -/
theorem Volume.Stands.answer (H : v.Stands cfg x) (Hcfg : cfg.Fits) (hlong : 256 < cfg.cacheSize)
    (hm : m.Sound cfg) (hplain : ∀ c, step = .call c → v.state.file.Plain cfg c)
    (hreach : cfg.Indexes (x.farthest cfg.fileMaxSize (step :: steps))) :
    Keeps (Volume.During cfg x step v.done) (step.answer cfg m) v fun res v' => Fails res ∧
      ∀ a, res = .ok a → v'.done = v.done ∧
        ∃ x', x.step cfg.fileMaxSize step = some (a, x') ∧ v'.Stands cfg x' := by
  cases step with
  | call c => exact H.call Hcfg hlong hm (hplain c rfl) hreach
  | sync =>
    refine .bind (H.rawsync Hcfg hlong hm) fun res v' h =>
      .pure ⟨fails_answerOf _ _, fun a heq => ?_⟩
    obtain ⟨hnot, rfl⟩ := answerOf_ok heq
    obtain ⟨hdone, H'⟩ := h.2 (h.1.resolve_right hnot)
    exact ⟨hdone, _, rfl, H'⟩

theorem Volume.Stands.answered (H : v.Stands cfg x) (n : Nat) : { v with done := n }.Stands cfg x :=
  ⟨H.stands, H.apart, H.requests, H.allocs, H.attached, H.erred, H.clean, H.saves, H.length⟩

/-- **A run** of steps. -/
theorem Volume.Stands.runSteps (H : v.Stands cfg x) (Hcfg : cfg.Fits) (hlong : 256 < cfg.cacheSize)
    (hm : m.Sound cfg) (steps : List Step) (hplain : PlainSteps cfg m steps v)
    (hreach : cfg.Indexes (x.farthest cfg.fileMaxSize steps)) :
    Keeps (Survives cfg v.done steps x) (runSteps cfg m steps) v fun r v' => Code r.2 ∧
      v'.done = v.done + r.1.length ∧
        r.1 = (Saved.run cfg.fileMaxSize (steps.take r.1.length) x).1 ∧
          (r.2 = errOk → r.1.length = steps.length) := by
  induction steps generalizing v x with
  | nil => exact .pure ⟨.ok, rfl, rfl, fun _ => rfl⟩
  | cons step steps ih =>
    obtain ⟨hplain, hrest⟩ := hplain
    have hstep := (H.answer Hcfg hlong hm hplain hreach).attach
    refine .bind (.weaken hstep ⟨rfl, .inl H.saves⟩ fun _ h => h.survives) fun res v₁ h => ?_
    obtain ⟨hduring, ⟨hfails, hok⟩, hanswer⟩ := h
    cases res with
    | error err =>
      have hneg := hfails err rfl
      exact .pure ⟨.of_neg hneg, hduring.done, rfl, fun h => absurd h (Int.ne_of_lt hneg)⟩
    | ok a =>
      obtain ⟨hdone, x', hx', H₁⟩ := hok a rfl
      have hnext : { v₁ with done := v₁.done + 1 }.done = v.done + 1 := congrArg (· + 1) hdone
      have hrun := ih (H₁.answered (v₁.done + 1)) (hrest a v₁ hanswer)
        (hreach.mono (Saved.farthest_le hx' steps))
      rw [hnext] at hrun
      have hsaves : Survives cfg (v.done + 1) steps x' { v₁ with done := v₁.done + 1 } :=
        ⟨0, Nat.zero_le _, hnext, .inl H₁.saves⟩
      refine .modify_bind (fun _ => hsaves.cons hx') ?_
      refine .bind (.weaken hrun hsaves fun _ h => h.cons hx') fun r v' h => .pure ?_
      obtain ⟨-, hcode, hdone', hanswers, hall⟩ := h
      refine ⟨hcode, ?_, ?_, fun herr => congrArg (· + 1) (hall herr)⟩
      · rw [List.length_cons]
        omega
      · rw [List.length_cons, List.take_succ_cons, Saved.run, hx']
        exact congrArg (a :: ·) hanswers

/-- **Durability.** Whenever a run of calls and syncs on a file stops, the entry of the file on the
device holds what the syncs have saved that returned, or what the one under way saves; and the steps
answer as they do on the bytes, up to the first one that fails. -/
theorem runSteps_survives (Hcfg : cfg.Fits) (hlong : 256 < cfg.cacheSize) (hm : m.Sound cfg)
    (H : Idle cfg (· ∈ v.committed cfg) bytes old v.state)
    (hevents : v.state.events = []) (herred : v.state.file.erred = false)
    (hentry : v.entry = .ctz v.state.file.head v.state.file.size) (hattached : v.removed = false)
    (hdone : v.done = 0) (steps : List Step) (hplain : PlainSteps cfg m steps v)
    (hreach : cfg.Indexes (Saved.farthest cfg.fileMaxSize steps
      ⟨⟨bytes, v.state.file.pos, v.state.file.append⟩, bytes⟩)) :
    (runSteps cfg m steps).Ensures v (fun r v' =>
      let x : Saved := ⟨⟨bytes, v.state.file.pos, v.state.file.append⟩, bytes⟩
      Survives cfg 0 steps x v' ∧ v'.done = r.1.length ∧
        r.1 = (x.run cfg.fileMaxSize (steps.take v'.done)).1 ∧
          (r.2 = errOk → v'.done = steps.length))
      fun v' => Survives cfg 0 steps ⟨⟨bytes, v.state.file.pos, v.state.file.append⟩, bytes⟩
        v' := by
  have hstores : FileReader.Stores cfg.toReadConfig v.state.disk old bytes
      { head := v.state.file.head, size := v.state.file.size } :=
    (H.stored.opened (f := v.state.file) Hcfg rfl rfl).stores.of_same ⟨rfl, rfl⟩
  have hsaves : v.Saves cfg bytes := by
    rw [Volume.Saves, hentry]
    exact ⟨old, hstores⟩
  have hstands := H.stands hreach
  have Hv : v.Stands cfg ⟨⟨bytes, v.state.file.pos, v.state.file.append⟩, bytes⟩ := {
    stands := hstands
    apart := hstands.apart H.writing
    requests := fun e he => by
      rw [hevents] at he
      cases he
    allocs := fun f d he => by
      rw [hevents] at he
      cases he
    attached := hattached
    erred := herred
    clean := fun _ => hentry
    saves := hsaves
    length := H.stored.length }
  have hrun := Hv.runSteps Hcfg hlong hm steps hplain hreach
  rw [hdone] at hrun
  refine (hrun.ensures ⟨0, Nat.zero_le _, hdone, .inl hsaves⟩).mono (fun r v' h => ?_) fun _ h => h
  obtain ⟨hsurvives, -, hdone', hanswers, hall⟩ := h
  rw [Nat.zero_add] at hdone'
  refine ⟨hsurvives, hdone', ?_, fun herr => hdone'.trans (hall herr)⟩
  rw [hdone']
  exact hanswers

/-! ## A power loss -/

/-- The first block that is free is allocated; from step `lost` on a commit reaches the device but
fails. -/
def losesPower (cfg : Config) (bad lost : Nat) : Media where
  world committed :=
    { firstFree cfg 0 bad with
      alloc := fun _ s =>
        (match (List.range cfg.blockCount).find? fun b => b ∉ committed ∧ b ∉ s.uncommitted cfg with
          | some b => .ok b
          | none => .error ioError, s.readCache) }
  commit v _ :=
    { err := if v.done < lost then none else some ioError
      entered := true
      disk := v.state.disk
      readCache := v.state.readCache
      writeCache := v.state.writeCache.zero }

theorem losesPower_sound (cfg : Config) (bad lost : Nat) : (losesPower cfg bad lost).Sound cfg where
  programs _ := firstFree_local cfg 0 bad
  allocates committed :=
    { block := fun clock s b h => by
        simp only [losesPower] at h
        split at h
        · rename_i hfind
          cases h
          have hb := of_decide_eq_true
            (List.find?_some (p := fun b => decide (b ∉ committed ∧ b ∉ s.uncommitted cfg)) hfind)
          exact ⟨List.mem_range.mp (List.mem_of_find?_eq_some hfind), hb.1, hb.2⟩
        · cases h
      cache := fun _ _ => .inl rfl }
  entered _ _ _ := rfl
  disk _ _ _ _ := rfl
  readCache _ _ _ := .inl rfl
  writeCache _ _ _ := rfl

def threeBytesSaved : Volume where
  state := threeBytes
  entry := .ctz 1 3

def twoSyncs : List Step :=
  [.call (.seek 2 .set), .call (.write [1, 2]), .sync, .call (.write [3]), .sync]

def savedBefore : Saved :=
  ⟨⟨[7, 7, 7], threeBytesSaved.state.file.pos, threeBytesSaved.state.file.append⟩, [7, 7, 7]⟩

theorem twoSyncs_plain :
    PlainSteps wideCaches (losesPower wideCaches 0 4) twoSyncs threeBytesSaved := by
  refine .cons (fun _ h => ?_) (.cons (fun _ h => ?_) (.cons (fun _ h => ?_)
    (.cons (fun _ h => ?_) (.cons (fun _ h => ?_) trivial))))
  · cases h
    exact fun _ _ hslips => absurd hslips.2.1 Bool.false_ne_true
  · cases h
    trivial
  · cases h
  · cases h
    trivial
  · cases h

/-- The second sync fails although its struct reaches the device. -/
theorem runSteps_survives_powerLoss :
    (runSteps wideCaches (losesPower wideCaches 0 4) twoSyncs threeBytesSaved).1 =
        some ([.position 2, .wrote 2, .done, .wrote 1], errIo) ∧
      (runSteps wideCaches (losesPower wideCaches 0 4) twoSyncs threeBytesSaved).2.entry =
        .ctz 1 5 ∧
      (runSteps wideCaches (losesPower wideCaches 0 4) twoSyncs).Ensures threeBytesSaved
        (fun r v' =>
        Survives wideCaches 0 twoSyncs savedBefore v' ∧ v'.done = r.1.length ∧
          r.1 = (savedBefore.run wideCaches.fileMaxSize (twoSyncs.take v'.done)).1 ∧
            (r.2 = errOk → v'.done = twoSyncs.length))
        fun v' => Survives wideCaches 0 twoSyncs savedBefore v' :=
  ⟨by decide +kernel, by decide +kernel, runSteps_survives wideCaches_fits (by decide)
    (losesPower_sound _ _ _) (threeBytes_idle (by decide +kernel)) rfl rfl rfl rfl rfl _
    twoSyncs_plain (wideCaches_indexes (by decide +kernel))⟩

end FileIo

end LittleFs
