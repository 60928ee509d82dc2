import LittleFs.Lib.ByteImage

/-! Bytes that are stored under a mask: the exclusive or with a byte that depends on the address
only. Two images that agree up to the mask where something was written go on to do so under writes
of a range, however the ranges overlap. -/

namespace ByteMask

open ByteImage (Image)

variable {mask mask' : Nat → UInt8} {m m' : Image} {written : Nat → Bool} {bytes : List UInt8}

/-- The bytes of the addresses from `off` on under the mask. -/
def xorFrom (mask : Nat → UInt8) (off : Nat) (bytes : List UInt8) : List UInt8 :=
  bytes.mapIdx fun i b => b ^^^ mask (off + i)

@[simp] theorem length_xorFrom (mask : Nat → UInt8) (off : Nat) (bytes : List UInt8) :
    (xorFrom mask off bytes).length = bytes.length := List.length_mapIdx

theorem getElem?_xorFrom (mask : Nat → UInt8) (off : Nat) (bytes : List UInt8) (i : Nat) :
    (xorFrom mask off bytes)[i]? = bytes[i]?.map (· ^^^ mask (off + i)) := List.getElem?_mapIdx

/-- Two masks one after the other are one mask. -/
theorem xorFrom_xorFrom (mask mask' : Nat → UInt8) (off : Nat) (bytes : List UInt8) :
    xorFrom mask' off (xorFrom mask off bytes) =
      xorFrom (fun i => mask i ^^^ mask' i) off bytes := by
  refine List.ext_getElem? fun i => ?_
  rw [getElem?_xorFrom, getElem?_xorFrom, getElem?_xorFrom, Option.map_map]
  congr 1
  funext b
  exact UInt8.xor_assoc ..

theorem xorFrom_zero (off : Nat) (bytes : List UInt8) : xorFrom (fun _ => 0) off bytes = bytes := by
  refine List.ext_getElem? fun i => ?_
  rw [getElem?_xorFrom]
  cases bytes[i]? with
  | none => rfl
  | some b => exact congrArg some UInt8.xor_zero

/-- A range can be cut anywhere. -/
theorem xorFrom_append (mask : Nat → UInt8) (off : Nat) (a b : List UInt8) :
    xorFrom mask off (a ++ b) = xorFrom mask off a ++ xorFrom mask (off + a.length) b := by
  rw [xorFrom, List.mapIdx_append, xorFrom, xorFrom]
  congr 1
  refine List.mapIdx_eq_mapIdx_iff.mpr fun i hi => ?_
  rw [Nat.add_assoc, Nat.add_comm i]

theorem take_xorFrom (mask : Nat → UInt8) (off n : Nat) (bytes : List UInt8) :
    (xorFrom mask off bytes).take n = xorFrom mask off (bytes.take n) := by
  refine List.ext_getElem? fun i => ?_
  rw [getElem?_xorFrom, List.getElem?_take, List.getElem?_take, getElem?_xorFrom]
  split
  · rfl
  · rfl

/-- Where something was written, the second image holds the bytes of the first one under the
mask. -/
def MaskedOn (written : Nat → Bool) (mask : Nat → UInt8) (m m' : Image) : Prop :=
  ∀ i, written i = true → m' i = m i ^^^ mask i

/-- The addresses of a range. -/
def inRange (off size i : Nat) : Bool := decide (off ≤ i ∧ i < off + size)

theorem MaskedOn.mono {written' : Nat → Bool} (H : MaskedOn written mask m m')
    (h : ∀ i, written' i = true → written i = true) : MaskedOn written' mask m m' :=
  fun i hi => H i (h i hi)

/-- **A write keeps the mask**, and extends it to its range. -/
theorem MaskedOn.write (H : MaskedOn written mask m m') (off : Nat) (bytes : List UInt8) :
    MaskedOn (fun i => written i || inRange off bytes.length i) mask
      (ByteImage.write m off bytes) (ByteImage.write m' off (xorFrom mask off bytes)) := by
  intro i (hi : (written i || inRange off bytes.length i) = true)
  by_cases hin : off ≤ i ∧ i < off + bytes.length
  · have hlt : i - off < bytes.length := by omega
    have hadd : off + (i - off) = i := by omega
    rw [ByteImage.write, ByteImage.write, if_pos hin.1, if_pos hin.1, getElem?_xorFrom, hadd,
      List.getElem?_eq_getElem hlt]
    rfl
  · have hwritten : written i = true := by
      rw [inRange, decide_eq_false hin, Bool.or_false] at hi
      exact hi
    have hout : ∀ (m : Image) (bytes' : List UInt8), bytes'.length = bytes.length →
        ByteImage.write m off bytes' i = m i := fun m bytes' hlen => by
      by_cases hle : off ≤ i
      · exact ByteImage.write_of_ge m bytes' (by omega)
      · exact ByteImage.write_of_lt m bytes' (by omega)
    rw [hout _ _ rfl, hout _ _ (length_xorFrom ..)]
    exact H i hwritten

/-- **A read undoes the mask** where something was written. -/
theorem MaskedOn.read (H : MaskedOn written mask m m') (hi : written (off + i) = true) :
    (xorFrom mask off (ByteImage.read m' off size))[i]? = (ByteImage.read m off size)[i]? := by
  rw [getElem?_xorFrom, ByteImage.getElem?_read, ByteImage.getElem?_read]
  split
  · rw [H _ hi, Option.map_some, UInt8.xor_assoc, UInt8.xor_self, UInt8.xor_zero]
  · rfl

end ByteMask
