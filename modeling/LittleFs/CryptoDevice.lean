import LittleFs.Lib.ByteMask
import LittleFs.RawDevice

/-! `CryptoBlockDevice`: a decorator that stores every byte under a mask made of the key, the block
and the position in the block. Layers of it over a device return the bytes that were written. -/

namespace LittleFs

open ByteMask (xorFrom MaskedOn inRange)

/-! ## Devices -/

/-- `IBlockDevice`, with what a call does to the state of the device. -/
structure BlockDevice (σ : Type) where
  read : (block off size : Nat) → σ → Except Int (List UInt8) × σ
  write : (block off : Nat) → List UInt8 → σ → Int × σ
  erase : (block : Nat) → σ → Int × σ

/-- What a medium does with a request, whatever the bytes are: `ρ` is all of its state but the
bytes. -/
structure Medium (ρ : Type) where
  read : Request → ρ → Int × ρ
  /-- The number of bytes that a failed write stores. -/
  write : Request → ρ → Int × Nat × ρ
  /-- The bytes that an erase leaves at a position; `none` leaves the byte alone. -/
  erase : (block : Nat) → ρ → Int × (Nat → Option UInt8) × ρ

/-- A device that stores the bytes as they are. -/
def Medium.device (m : Medium ρ) : BlockDevice (EraseBlocks × ρ) where
  read block off size s :=
    let (err, rest) := m.read ⟨block, off, size⟩ s.2
    (if err = errOk then .ok (ByteImage.read (s.1 block) off size) else .error err, (s.1, rest))
  write block off bytes s :=
    let (err, kept, rest) := m.write ⟨block, off, bytes.length⟩ s.2
    let bytes := if err = errOk then bytes else bytes.take kept
    (err, (Function.update s.1 block (ByteImage.write (s.1 block) off bytes), rest))
  erase block s :=
    let (err, left, rest) := m.erase block s.2
    (err, (Function.update s.1 block fun i => (left i).getD (s.1 block i), rest))

/-- `MemoryBlockDevice`. -/
def memoryBlockDevice (blockSize blockCount : Nat) : Medium Unit where
  read r rest := (if r.block ≥ blockCount ∨ r.off + r.size > blockSize then errIo else errOk, rest)
  write r rest :=
    (if r.block ≥ blockCount ∨ r.off + r.size > blockSize then errIo else errOk, 0, rest)
  erase block rest :=
    if block ≥ blockCount then (errIo, fun _ => none, rest)
    else (errOk, fun i => if i < blockSize then some 0xff else none, rest)

/-- `FileBlockDevice` of a file that is open: the `n`-th call of `fread` or `fwrite` transfers so
many bytes as `transferred n` says, of those that it is asked for, and none when it cannot seek. -/
def fileBlockDevice (blockSize blockCount : Nat) (transferred : Nat → Nat) : Medium Nat where
  read r n :=
    if r.block ≥ blockCount ∨ r.off + r.size > blockSize then (errIo, n)
    else (if r.size ≤ transferred n then errOk else errIo, n + 1)
  write r n :=
    if r.block ≥ blockCount ∨ r.off + r.size > blockSize then (errIo, 0, n)
    else (if r.size ≤ transferred n then errOk else errIo, transferred n, n + 1)
  erase _ n := (errOk, fun _ => none, n)

/-! ## The decorator -/

/-- The mask of `transform` at a position of a block. -/
def cryptoMask (key : BitVec 64) (block pos : Nat) : UInt8 :=
  let blockKey := key ^^^ (BitVec.ofNat 64 block * 0x9E3779B97F4A7C15#64)
  let keyByte := UInt8.ofBitVec ((blockKey >>> (pos % 8 * 8)).setWidth 8)
  keyByte ^^^ UInt8.ofNat (pos * 37)

/-- `CryptoBlockDevice::transform`. -/
def transform (key : BitVec 64) (block off : Nat) (data : List UInt8) : List UInt8 :=
  xorFrom (cryptoMask key block) off data

/-- `CryptoBlockDevice`. -/
def cryptoBlockDevice (key : BitVec 64) (underlying : BlockDevice σ) : BlockDevice σ where
  read block off size s :=
    let (res, s) := underlying.read block off size s
    (res.map (transform key block off), s)
  write block off bytes s := underlying.write block off (transform key block off bytes) s
  erase block s := underlying.erase block s

/-- Decorators over a device, the outermost one first. -/
def cryptoStack (keys : List (BitVec 64)) (d : BlockDevice σ) : BlockDevice σ :=
  keys.foldr cryptoBlockDevice d

/-! ## Sequences of requests -/

inductive DeviceOp where
  | read (block off size : Nat)
  | write (block off : Nat) (bytes : List UInt8)
  | erase (block : Nat)

/-- What a request returns. -/
inductive DeviceResult where
  | bytes (res : Except Int (List UInt8))
  | code (err : Int)
  deriving DecidableEq

def BlockDevice.step (d : BlockDevice σ) (op : DeviceOp) (s : σ) : DeviceResult × σ :=
  match op with
  | .read block off size => let (res, s) := d.read block off size s; (.bytes res, s)
  | .write block off bytes => let (err, s) := d.write block off bytes s; (.code err, s)
  | .erase block => let (err, s) := d.erase block s; (.code err, s)

def BlockDevice.run (d : BlockDevice σ) : List DeviceOp → σ → List DeviceResult
  | [], _ => []
  | op :: ops, s =>
    let (res, s) := d.step op s
    res :: BlockDevice.run d ops s

/-- The positions that were written since the last erase of their block. -/
abbrev WrittenSet := Nat → Nat → Bool

def WrittenSet.after (w : WrittenSet) : DeviceOp → DeviceResult → WrittenSet
  | .write block off bytes, .code err => fun b i =>
    w b i || (err == errOk && b == block && inRange off bytes.length i)
  | .erase block, _ => fun b i => b != block && w b i
  | _, _ => w

/-- The results of a request on the device and under the decorators: the same errors, and the same
bytes at the positions that were written. -/
def SameResult (w : WrittenSet) : DeviceOp → DeviceResult → DeviceResult → Prop
  | .read block off size, .bytes (.ok bytes), .bytes (.ok bytes') =>
    bytes.length = size ∧ bytes'.length = size ∧
      ∀ i < size, w block (off + i) = true → bytes'[i]? = bytes[i]?
  | .read .., .bytes (.error err), .bytes (.error err') => err = err'
  | .write .., .code err, .code err' => err = err'
  | .erase _, .code err, .code err' => err = err'
  | _, _, _ => False

/-- The results of a sequence of requests. -/
def SameResults (w : WrittenSet) : List DeviceOp → List DeviceResult → List DeviceResult → Prop
  | [], results, results' => results = [] ∧ results' = []
  | op :: ops, res :: results, res' :: results' =>
    SameResult w op res res' ∧ SameResults (w.after op res) ops results results'
  | _, _, _ => False

/-! ## The decorators as one mask -/

/-- The masks of all layers. -/
def stackMask (keys : List (BitVec 64)) (block pos : Nat) : UInt8 :=
  match keys with
  | [] => 0
  | key :: keys => cryptoMask key block pos ^^^ stackMask keys block pos

section
variable {keys : List (BitVec 64)} {d : BlockDevice σ} {m : Medium ρ} {w : WrittenSet}

theorem cryptoStack_write (keys : List (BitVec 64)) (d : BlockDevice σ) (block off : Nat)
    (bytes : List UInt8) (s : σ) :
    (cryptoStack keys d).write block off bytes s =
      d.write block off (xorFrom (stackMask keys block) off bytes) s := by
  induction keys generalizing bytes with
  | nil => exact congrArg (d.write block off · s) (ByteMask.xorFrom_zero off bytes).symm
  | cons key keys ih =>
    change (cryptoStack keys d).write block off (transform key block off bytes) s = _
    rw [ih, transform, ByteMask.xorFrom_xorFrom]
    rfl

theorem cryptoStack_read (keys : List (BitVec 64)) (d : BlockDevice σ) (block off size : Nat)
    (s : σ) :
    (cryptoStack keys d).read block off size s =
      ((d.read block off size s).1.map (xorFrom (stackMask keys block) off),
        (d.read block off size s).2) := by
  induction keys with
  | nil =>
    have hzero : xorFrom (stackMask [] block) off = id :=
      funext fun bytes => ByteMask.xorFrom_zero off bytes
    rw [hzero, Except.map_id]
    rfl
  | cons key keys ih =>
    change (((cryptoStack keys d).read block off size s).1.map (transform key block off),
      ((cryptoStack keys d).read block off size s).2) = _
    rw [ih]
    cases (d.read block off size s).1 with
    | error err => rfl
    | ok bytes =>
      refine congrArg (fun bytes => (Except.ok bytes, _)) ?_
      rw [transform, ByteMask.xorFrom_xorFrom]
      refine congrArg (xorFrom · off bytes) (funext fun pos => ?_)
      exact UInt8.xor_comm ..

theorem cryptoStack_erase (keys : List (BitVec 64)) (d : BlockDevice σ) (block : Nat) (s : σ) :
    (cryptoStack keys d).erase block s = d.erase block s := by
  induction keys with
  | nil => rfl
  | cons key keys ih => exact ih

/-- How a request is cut does not matter to the mask. -/
theorem transform_append (key : BitVec 64) (block off : Nat) (a b : List UInt8) :
    transform key block off (a ++ b) =
      transform key block off a ++ transform key block (off + a.length) b :=
  ByteMask.xorFrom_append ..

/-! ## The sequences agree -/

/-- The second device holds the bytes of the first one under the masks, where they were written. -/
structure MaskedStates (keys : List (BitVec 64)) (w : WrittenSet) (s s' : EraseBlocks × ρ) :
    Prop where
  rest : s'.2 = s.2
  masked : ∀ b, MaskedOn (w b) (stackMask keys b) (s.1 b) (s'.1 b)

/-- Bytes that reach one block under the mask. -/
theorem MaskedStates.update {s s' : EraseBlocks × ρ} (H : MaskedStates keys w s s')
    (block off : Nat)
    (bytes : List UInt8) (rest : ρ) :
    MaskedStates keys (fun b i => w b i || (b == block && inRange off bytes.length i))
      (Function.update s.1 block (ByteImage.write (s.1 block) off bytes), rest)
      (Function.update s'.1 block
        (ByteImage.write (s'.1 block) off (xorFrom (stackMask keys block) off bytes)), rest) := by
  refine ⟨rfl, fun b => ?_⟩
  by_cases hb : b = block
  · subst hb
    dsimp only
    rw [Function.update_self, Function.update_self]
    refine ((H.masked b).write off bytes).mono fun i hi => ?_
    rwa [beq_self_eq_true, Bool.true_and] at hi
  · dsimp only
    rw [Function.update_of_ne hb, Function.update_of_ne hb]
    refine (H.masked b).mono fun i hi => ?_
    rwa [beq_eq_false_iff_ne.mpr hb, Bool.false_and, Bool.or_false] at hi

theorem MaskedStates.mono {w' : WrittenSet} {s s' : EraseBlocks × ρ} (H : MaskedStates keys w s s')
    (h : ∀ b i, w' b i = true → w b i = true) : MaskedStates keys w' s s' :=
  ⟨H.rest, fun b => (H.masked b).mono (h b)⟩

/-- One request. -/
theorem MaskedStates.step {s s' : EraseBlocks × ρ} (H : MaskedStates keys w s s') (m : Medium ρ)
    (op : DeviceOp) :
    SameResult w op (m.device.step op s).1 ((cryptoStack keys m.device).step op s').1 ∧
      MaskedStates keys (w.after op (m.device.step op s).1) (m.device.step op s).2
        ((cryptoStack keys m.device).step op s').2 := by
  obtain ⟨c, rest⟩ := s
  obtain ⟨c', rest'⟩ := s'
  obtain rfl : rest' = rest := H.rest
  cases op with
  | read block off size =>
    rw [BlockDevice.step, BlockDevice.step, cryptoStack_read]
    dsimp only [Medium.device]
    by_cases herr : (m.read ⟨block, off, size⟩ rest').1 = errOk
    · rw [if_pos herr, if_pos herr]
      refine ⟨⟨ByteImage.length_read .., ?_, fun i _ hi => (H.masked block).read hi⟩, rfl,
        H.masked⟩
      rw [ByteMask.length_xorFrom, ByteImage.length_read]
    · rw [if_neg herr, if_neg herr]
      exact ⟨rfl, rfl, H.masked⟩
  | write block off bytes =>
    rw [BlockDevice.step, BlockDevice.step, cryptoStack_write]
    dsimp only [Medium.device]
    rw [ByteMask.length_xorFrom]
    refine ⟨rfl, ?_⟩
    by_cases herr : (m.write ⟨block, off, bytes.length⟩ rest').1 = errOk
    · rw [if_pos herr, if_pos herr]
      refine (H.update block off bytes _).mono fun b i hi => ?_
      rw [WrittenSet.after, herr] at hi
      exact hi
    · -- the bytes that a failed write stores are masked as well
      rw [if_neg herr, if_neg herr, ByteMask.take_xorFrom]
      refine (H.update block off _ _).mono fun b i hi => ?_
      have hold : w b i = true := by
        rw [WrittenSet.after, beq_eq_false_iff_ne.mpr herr] at hi
        simpa using hi
      rw [hold, Bool.true_or]
  | erase block =>
    rw [BlockDevice.step, BlockDevice.step, cryptoStack_erase]
    dsimp only [Medium.device]
    refine ⟨rfl, rfl, fun b i hi => ?_⟩
    obtain ⟨hne, hold⟩ : b ≠ block ∧ w b i = true := by
      rw [WrittenSet.after] at hi
      simpa using hi
    dsimp only
    rw [Function.update_of_ne hne, Function.update_of_ne hne]
    exact H.masked b i hold

/-- **Encryption is transparent.** A sequence of requests returns the same errors on the device and
under the decorators, and every byte that was written since the last erase of its block, whatever
the bytes were before. -/
theorem cryptoStack_transparent (keys : List (BitVec 64)) (m : Medium ρ) (ops : List DeviceOp)
    (c c' : EraseBlocks) (rest : ρ) :
    SameResults (fun _ _ => false) ops (m.device.run ops (c, rest))
      ((cryptoStack keys m.device).run ops (c', rest)) := by
  have hrun : ∀ (w : WrittenSet) (s s' : EraseBlocks × ρ), MaskedStates keys w s s' →
      SameResults w ops (m.device.run ops s) ((cryptoStack keys m.device).run ops s') := by
    induction ops with
    | nil => exact fun w s s' _ => ⟨rfl, rfl⟩
    | cons op ops ih =>
      intro w s s' H
      obtain ⟨hsame, hnext⟩ := H.step m op
      exact ⟨hsame, ih _ _ _ hnext⟩
  exact hrun _ _ _ ⟨rfl, fun b i hi => by cases hi⟩

end

/-- Two layers over a device in memory: two writes that overlap, read at once. -/
example : (cryptoStack [0xFEEDFACECAFEBEEF#64, 7#64] (memoryBlockDevice 64 2).device).run
    [.write 1 3 [1, 2, 3, 4], .write 1 5 [9, 8, 7], .read 1 3 4] (fun _ _ => 0xff, ()) =
    [.code 0, .code 0, .bytes (.ok [1, 2, 9, 8])] := by
  decide +kernel

end LittleFs
