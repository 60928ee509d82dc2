import LittleFs.Lib.ByteImage
import LittleFs.Lib.Segments
import LittleFs.Tag

/-! `lfs_bd_rawread` and `lfs_bd_rawprog`: a logical block is made of erase blocks, and the device
is addressed by an erase block and an offset in it. -/

namespace LittleFs

/-! ## Requests to the device -/

structure Geometry where
  readSize : Nat
  writeSize : Nat
  cacheSize : Nat
  eraseSize : Nat
  blockSize : Nat
  blockCount : Nat
  deriving DecidableEq, Repr

/-- What `lfs_init` asks of the sizes. -/
structure Geometry.Ok (g : Geometry) : Prop where
  readSize : 0 < g.readSize
  writeSize : 0 < g.writeSize
  cacheSize : 0 < g.cacheSize
  eraseSize : 0 < g.eraseSize
  readSize_dvd : g.readSize ∣ g.cacheSize
  writeSize_dvd : g.writeSize ∣ g.cacheSize
  cacheSize_dvd : g.cacheSize ∣ g.eraseSize
  eraseSize_dvd : g.eraseSize ∣ g.blockSize

/-- A range of an erase block. -/
structure Request where
  block : Nat
  off : Nat
  size : Nat
  deriving DecidableEq, Repr

/-- How the loop over erase blocks has ended, with the requests that it has made. -/
structure Transferred (σ : Type) where
  err : Int
  requests : List Request
  state : σ

/-- The range of the device where a range of a logical block starts. -/
def Geometry.physical (g : Geometry) (block off size : Nat) : Request :=
  ⟨block * (g.blockSize / g.eraseSize) + off / g.eraseSize, off % g.eraseSize, size⟩

/-- What is left of a range behind its first bytes. -/
def Request.next (g : Geometry) (delta : Nat) (r : Request) : Request :=
  if r.off + delta = g.eraseSize then ⟨r.block + 1, 0, r.size - delta⟩
  else ⟨r.block, r.off + delta, r.size - delta⟩

/-- The loop of `lfs_bd_rawread` and `lfs_bd_rawprog`, for one request that starts at the first byte
of the buffer each time; `none` when an assertion fails or the fuel does not last. -/
def chunkLoop (g : Geometry) (unit : Nat) (request : Request → σ → Int × σ) :
    (fuel : Nat) → Request → σ → Option (Transferred σ)
  | 0, _, _ => none
  | fuel + 1, r, s =>
    if r.size = 0 then some ⟨errOk, [], s⟩
    else
      let delta := min r.size (r.off + g.eraseSize)
      if r.off + r.size ≤ g.eraseSize ∧ r.size % unit = 0 then
        let chunk := { r with size := delta }
        let (err, s) := request chunk s
        if 0 < err then none
        else if err ≠ errOk then some ⟨err, [chunk], s⟩
        else (chunkLoop g unit request fuel (r.next g delta) s).map fun t =>
          { t with requests := chunk :: t.requests }
      else none

/-- The `read` of the configuration: the bytes of a block from an offset on, as many as given. A
read that fails may have put some bytes into the buffer. -/
abbrev RawRead := Nat → Nat → Nat → Except (Int × List UInt8) (List UInt8)

/-- A read of a chunk into the buffer. -/
def readChunk (read : RawRead) (r : Request) (buffer : ByteImage.Image) : Int × ByteImage.Image :=
  match read r.block r.off r.size with
  | .ok bytes => (errOk, ByteImage.write buffer 0 bytes)
  | .error (err, bytes) => (err, ByteImage.write buffer 0 bytes)

/-- `lfs_bd_rawread`. -/
def bdRawread (g : Geometry) (read : RawRead) (block off size : Nat) (buffer : ByteImage.Image) :
    Option (Transferred ByteImage.Image) :=
  if block < g.blockCount ∧ off + size ≤ g.blockSize ∧ size % g.readSize = 0 then
    chunkLoop g g.readSize (readChunk read) (size + 1) (g.physical block off size) buffer
  else none

/-- `lfs_bd_rawprog`. -/
def bdRawprog (g : Geometry) (write : Nat → Nat → List UInt8 → σ → Int × σ) (block off : Nat)
    (data : List UInt8) (s : σ) : Option (Transferred σ) :=
  if block < g.blockCount ∧ off + data.length ≤ g.blockSize ∧ data.length % g.writeSize = 0 then
    chunkLoop g g.writeSize (fun r => write r.block r.off (data.take r.size)) (data.length + 1)
      (g.physical block off data.length) s
  else none

/-! ## A device of bytes -/

/-- The bytes under an erase block and an offset. -/
abbrev EraseBlocks := Nat → ByteImage.Image

def EraseBlocks.read (d : EraseBlocks) : RawRead := fun block off size =>
  .ok (ByteImage.read (d block) off size)

def EraseBlocks.write (block off : Nat) (bytes : List UInt8) (d : EraseBlocks) :
    Int × EraseBlocks :=
  (errOk, Function.update d block (ByteImage.write (d block) off bytes))

/-- The place of a byte when the erase blocks stand one behind the other. -/
def Geometry.place (g : Geometry) (block off : Nat) : Nat := block * g.eraseSize + off

/-- The range of places of a request. -/
def Request.span (g : Geometry) (r : Request) : Nat × Nat :=
  (g.place r.block r.off, g.place r.block r.off + r.size)

/-- The requests stay within their erase blocks and cover the range once, in order. -/
def CoversOnce (g : Geometry) (block off size : Nat) (requests : List Request) : Prop :=
  (∀ r ∈ requests, r.off + r.size ≤ g.eraseSize) ∧
    Segments.Consecutive (block * g.blockSize + off) (block * g.blockSize + off + size)
      (requests.map (·.span g))

/-- A range is programmed by `p` and read back by `r`, over its erase blocks. -/
structure MapsFaithfully (g : Geometry) (block off : Nat) (data : List UInt8) (d : EraseBlocks)
    (buffer : ByteImage.Image) (p : Transferred EraseBlocks) (r : Transferred ByteImage.Image) :
    Prop where
  prog : bdRawprog g EraseBlocks.write block off data d = some p
  read : bdRawread g p.state.read block off data.length buffer = some r
  prog_ok : p.err = errOk
  read_ok : r.err = errOk
  returns : ByteImage.read r.state 0 data.length = data
  rest : ∀ i, data.length ≤ i → r.state i = buffer i
  prog_covers : CoversOnce g block off data.length p.requests
  read_covers : CoversOnce g block off data.length r.requests
  untouched : ∀ b i, p.state b i ≠ d b i → i < g.eraseSize ∧
    block * g.blockSize + off ≤ g.place b i ∧ g.place b i < block * g.blockSize + off + data.length

variable {g : Geometry} {request : Request → σ → Int × σ} {unit block off size : Nat}

/-- The erase block of a range within one. -/
theorem Geometry.physical_place (hg : g.Ok) (block off size : Nat) :
    g.place (g.physical block off size).block (g.physical block off size).off =
      block * g.blockSize + off := by
  obtain ⟨k, hk⟩ := hg.eraseSize_dvd
  rw [Geometry.place, Geometry.physical]
  dsimp only
  rw [hk, Nat.mul_div_cancel_left k hg.eraseSize, Nat.add_mul, Nat.mul_assoc,
    Nat.mul_comm k, Nat.add_assoc, Nat.mul_comm (off / _), Nat.div_add_mod]

theorem chunkLoop_zero (hfuel : 0 < fuel) (h : r.size = 0) :
    chunkLoop g unit request fuel r s = some ⟨errOk, [], s⟩ := by
  obtain ⟨fuel, rfl⟩ := Nat.exists_eq_add_of_lt hfuel
  rw [Nat.zero_add, chunkLoop, if_pos h]

/-- The assertion of the loop holds for a range within one erase block only. -/
theorem chunkLoop_none (hsize : 0 < r.size) (h : g.eraseSize < r.off + r.size) (fuel : Nat) :
    chunkLoop g unit request fuel r s = none := by
  cases fuel with
  | zero => rfl
  | succ fuel =>
    rw [chunkLoop, if_neg (by omega)]
    exact if_neg (by omega)

/-- One request for a range within one erase block. -/
theorem chunkLoop_one (hsize : 0 < r.size) (hin : r.off + r.size ≤ g.eraseSize)
    (hunit : r.size % unit = 0) (hfuel : 1 < fuel) (h : request r s = (errOk, s')) :
    chunkLoop g unit request fuel r s = some ⟨errOk, [r], s'⟩ := by
  obtain ⟨fuel, rfl⟩ := Nat.exists_eq_add_of_lt hfuel
  have hdelta : min r.size (r.off + g.eraseSize) = r.size := by omega
  have hnext : (r.next g r.size).size = 0 := by
    rw [Request.next]
    split <;> exact Nat.sub_self _
  rw [chunkLoop, if_neg (Nat.ne_of_gt hsize)]
  dsimp only
  rw [if_pos ⟨hin, hunit⟩, hdelta, h]
  dsimp only
  rw [if_neg (by decide), if_neg (by decide), chunkLoop_zero (by omega) hnext]
  rfl

/-! ## Ranges within one erase block -/

theorem bdRawread_one (read : RawRead) (hsize : 0 < size) (hblock : block < g.blockCount)
    (hin : off + size ≤ g.blockSize) (hunit : size % g.readSize = 0)
    (hone : off % g.eraseSize + size ≤ g.eraseSize)
    (h : read (g.physical block off size).block (g.physical block off size).off size = .ok bytes)
    (buffer : ByteImage.Image) :
    bdRawread g read block off size buffer =
      some ⟨errOk, [g.physical block off size], ByteImage.write buffer 0 bytes⟩ := by
  rw [bdRawread, if_pos ⟨hblock, hin, hunit⟩]
  refine chunkLoop_one hsize hone hunit (by omega) ?_
  rw [readChunk, show (g.physical block off size).size = size from rfl, h]

theorem bdRawprog_one (write : Nat → Nat → List UInt8 → σ → Int × σ) (hsize : 0 < data.length)
    (hblock : block < g.blockCount) (hin : off + data.length ≤ g.blockSize)
    (hunit : data.length % g.writeSize = 0) (hone : off % g.eraseSize + data.length ≤ g.eraseSize)
    (h : write (g.physical block off data.length).block (g.physical block off data.length).off data
      s
      = (errOk, s')) :
    bdRawprog g write block off data s =
      some ⟨errOk, [g.physical block off data.length], s'⟩ := by
  rw [bdRawprog, if_pos ⟨hblock, hin, hunit⟩]
  refine chunkLoop_one hsize hone hunit (by omega) ?_
  change write _ _ (data.take data.length) s = _
  rw [List.take_length, h]

theorem coversOnce_one (hg : g.Ok) (hone : off % g.eraseSize + size ≤ g.eraseSize) :
    CoversOnce g block off size [g.physical block off size] := by
  refine ⟨fun r hr => ?_, ?_⟩
  · obtain rfl := List.mem_singleton.mp hr
    exact hone
  · have hplace := g.physical_place hg block off size
    refine ⟨hplace, ?_, ?_⟩
    · rw [← hplace]
      exact Nat.le_add_right ..
    · rw [← hplace]
      rfl

theorem mapsFaithfully_nil (hblock : block < g.blockCount) (hin : off + 0 ≤ g.blockSize)
    (hread : 0 % g.readSize = 0) (hwrite : 0 % g.writeSize = 0) (d : EraseBlocks)
    (buffer : ByteImage.Image) :
    MapsFaithfully g block off [] d buffer ⟨errOk, [], d⟩ ⟨errOk, [], buffer⟩ where
  prog := by
    rw [bdRawprog, if_pos ⟨hblock, hin, hwrite⟩]
    exact chunkLoop_zero (Nat.succ_pos _) rfl
  read := by
    rw [bdRawread, List.length_nil, if_pos ⟨hblock, hin, hread⟩]
    exact chunkLoop_zero (Nat.succ_pos _) rfl
  prog_ok := rfl
  read_ok := rfl
  returns := rfl
  rest _ _ := rfl
  prog_covers := ⟨fun _ h => (List.not_mem_nil h).elim, rfl⟩
  read_covers := ⟨fun _ h => (List.not_mem_nil h).elim, rfl⟩
  untouched _ _ h := absurd rfl h

theorem mapsFaithfully_one (hg : g.Ok) (hsize : 0 < data.length) (hblock : block < g.blockCount)
    (hin : off + data.length ≤ g.blockSize) (hread : data.length % g.readSize = 0)
    (hwrite : data.length % g.writeSize = 0) (hone : off % g.eraseSize + data.length ≤ g.eraseSize)
    (d : EraseBlocks) (buffer : ByteImage.Image) :
    let r := g.physical block off data.length
    let d' := Function.update d r.block (ByteImage.write (d r.block) r.off data)
    MapsFaithfully g block off data d buffer ⟨errOk, [r], d'⟩
      ⟨errOk, [r], ByteImage.write buffer 0 data⟩ := by
  intro r d'
  have hself : d' r.block = ByteImage.write (d r.block) r.off data := Function.update_self ..
  have hback : ByteImage.read (d' r.block) r.off data.length = data := by
    rw [hself]
    exact ByteImage.read_write ..
  have hplace : r.block * g.eraseSize + r.off = block * g.blockSize + off :=
    g.physical_place hg block off data.length
  exact {
    prog := bdRawprog_one EraseBlocks.write hsize hblock hin hwrite hone rfl
    read := bdRawread_one (EraseBlocks.read d') hsize hblock hin hread hone
      (congrArg Except.ok hback) buffer
    prog_ok := rfl
    read_ok := rfl
    returns := ByteImage.read_write buffer 0 data
    rest := fun i hi => by
      change ByteImage.write buffer 0 data i = buffer i
      exact ByteImage.write_of_ge buffer data (by omega)
    prog_covers := coversOnce_one hg hone
    read_covers := coversOnce_one hg hone
    untouched := fun b i hne => by
      change d' b i ≠ d b i at hne
      obtain rfl : b = r.block := by
        by_contra hb
        exact hne (congrFun (Function.update_of_ne hb ..) i)
      rw [hself] at hne
      obtain ⟨hge, hlt⟩ := ByteImage.range_of_write_ne hne
      have hoff : r.off = off % g.eraseSize := rfl
      rw [Geometry.place]
      omega }

/-- **Erase blocks.** A range of a block is programmed and read back over the erase blocks exactly
when it lies within one of them. -/
theorem bdRawprog_rawread_iff (hg : g.Ok) (hblock : block < g.blockCount)
    (hin : off + data.length ≤ g.blockSize) (hread : data.length % g.readSize = 0)
    (hwrite : data.length % g.writeSize = 0) (d : EraseBlocks) (buffer : ByteImage.Image) :
    (∃ p r, MapsFaithfully g block off data d buffer p r) ↔
      off % g.eraseSize + data.length ≤ g.eraseSize := by
  have hlt := Nat.mod_lt off hg.eraseSize
  constructor
  · rintro ⟨p, r, H⟩
    by_contra hcross
    have hnone : bdRawprog g EraseBlocks.write block off data d = none := by
      rw [bdRawprog, if_pos ⟨hblock, hin, hwrite⟩]
      refine chunkLoop_none ?_ ?_ _
      · change 0 < data.length
        omega
      · change g.eraseSize < off % g.eraseSize + data.length
        omega
    cases H.prog.symm.trans hnone
  · intro hone
    rcases Nat.eq_zero_or_pos data.length with hzero | hsize
    · obtain rfl := List.eq_nil_of_length_eq_zero hzero
      exact ⟨_, _, mapsFaithfully_nil hblock hin hread hwrite d buffer⟩
    · exact ⟨_, _, mapsFaithfully_one hg hsize hblock hin hread hwrite hone d buffer⟩

theorem bdRawprog_rawread_small :
    let g : Geometry := ⟨2, 4, 8, 16, 32, 3⟩
    ∃ p r, MapsFaithfully g 1 16 [1, 2, 3, 4] (fun _ _ => 0xff) (fun _ => 0) p r :=
  (bdRawprog_rawread_iff ⟨by decide, by decide, by decide, by decide, by decide, by decide,
    by decide, by decide⟩ (by decide) (by decide) (by decide) (by decide) _ _).mpr (by decide)

/-- Two erase blocks to a block: a whole block fails an assertion. -/
theorem eraseBlocks_crossed : ¬ ∀ g : Geometry, g.Ok → ∀ block < g.blockCount, ∀ off data,
    off + data.length ≤ g.blockSize → data.length % g.readSize = 0 →
    data.length % g.writeSize = 0 → ∀ d buffer, ∃ p r,
      MapsFaithfully g block off data d buffer p r := by
  intro h
  obtain ⟨p, r, H⟩ := h ⟨2, 4, 8, 16, 32, 3⟩ ⟨by decide, by decide, by decide, by decide, by decide,
    by decide, by decide, by decide⟩ 1 (by decide) 0 (List.replicate 32 7) (by decide) (by decide)
    (by decide) (fun _ _ => 0xff) (fun _ => 0)
  have hprog := H.prog
  rw [bdRawprog, if_pos (by decide), chunkLoop_none (by decide) (by decide)] at hprog
  cases hprog

/-! ## Blocks of one erase block -/

/-- `lfs_bd_rawread` of a device without errors; where an assertion fails nothing is read. -/
def EraseBlocks.rawread (g : Geometry) (d : EraseBlocks) : RawRead := fun block off size =>
  match bdRawread g d.read block off size fun _ => 0 with
  | some t => if t.err = errOk then .ok (ByteImage.read t.state 0 size) else .error (t.err, [])
  | none => .error (errInval, [])

theorem EraseBlocks.rawread_eq (hg : g.Ok) (hone : g.eraseSize = g.blockSize) (d : EraseBlocks)
    (hblock : block < g.blockCount) (hin : off + size ≤ g.blockSize)
    (hunit : size % g.readSize = 0) :
    d.rawread g block off size = .ok (ByteImage.read (d block) off size) := by
  have hpos := hg.eraseSize
  rcases Nat.eq_zero_or_pos size with rfl | hsize
  · have hzero : bdRawread g d.read block off 0 (fun _ => 0) = some ⟨errOk, [], fun _ => 0⟩ := by
      rw [bdRawread, if_pos ⟨hblock, hin, hunit⟩]
      exact chunkLoop_zero (Nat.succ_pos _) rfl
    rw [EraseBlocks.rawread, hzero]
    rfl
  · have hphysical : g.physical block off size = ⟨block, off, size⟩ := by
      rw [Geometry.physical, ← hone, Nat.div_self hpos, Nat.mul_one,
        Nat.div_eq_of_lt (by omega), Nat.mod_eq_of_lt (by omega), Nat.add_zero]
    have hmod : off % g.eraseSize + size ≤ g.eraseSize := by
      rw [Nat.mod_eq_of_lt (by omega)]
      omega
    have hread := bdRawread_one d.read hsize hblock hin hunit hmod rfl fun _ => 0
    rw [hphysical] at hread
    rw [EraseBlocks.rawread, hread]
    dsimp only
    have hback := ByteImage.read_write (fun _ => 0) 0 (ByteImage.read (d block) off size)
    rw [ByteImage.length_read] at hback
    rw [if_pos rfl, hback]

end LittleFs
