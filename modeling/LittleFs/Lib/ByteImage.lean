import Mathlib.Data.List.Basic

/-! Bytes at addresses: reads of a range, writes of a list of bytes, and what a write leaves alone.
A read up to an address depends on the bytes below it only. -/

namespace ByteImage

/-- A byte at every address. -/
abbrev Image := Nat → UInt8

def read (m : Image) (off size : Nat) : List UInt8 := (List.range size).map fun i => m (off + i)

def write (m : Image) (off : Nat) (bytes : List UInt8) : Image :=
  fun i => if off ≤ i then (bytes[i - off]?).getD (m i) else m i

/-- The bytes from `lo` up to `hi` set where `bytes` has one. -/
def fill (m : Image) (lo hi : Nat) (bytes : Nat → Option UInt8) : Image :=
  fun i => if lo ≤ i ∧ i < hi then (bytes i).getD (m i) else m i

/-- The first image below the address, the second one from there on. -/
def cut (p : Nat) (m m' : Image) : Image := fun i => if i < p then m i else m' i

/-- The images hold the same bytes below the address. -/
def AgreeBelow (p : Nat) (m m' : Image) : Prop := ∀ i < p, m i = m' i

@[simp] theorem length_read (m : Image) (off size : Nat) : (read m off size).length = size := by
  rw [read, List.length_map, List.length_range]

theorem getElem?_read (m : Image) (off size i : Nat) :
    (read m off size)[i]? = if i < size then some (m (off + i)) else none := by
  rw [read, List.getElem?_map]
  split
  · rw [List.getElem?_range ‹_›]
    rfl
  · rw [List.getElem?_eq_none (by rw [List.length_range]; omega)]
    rfl

theorem AgreeBelow.symm (h : AgreeBelow p m m') : AgreeBelow p m' m := fun i hi => (h i hi).symm

theorem AgreeBelow.trans (h : AgreeBelow p m m') (h' : AgreeBelow p m' m'') : AgreeBelow p m m'' :=
  fun i hi => (h i hi).trans (h' i hi)

theorem AgreeBelow.mono (h : AgreeBelow p m m') (hle : q ≤ p) : AgreeBelow q m m' :=
  fun i hi => h i (Nat.lt_of_lt_of_le hi hle)

/-- **Frame.** A read below the address. -/
theorem AgreeBelow.read_eq (h : AgreeBelow p m m') (hle : off + size ≤ p) :
    read m off size = read m' off size := by
  refine List.map_congr_left fun i hi => h _ ?_
  have := List.mem_range.mp hi
  omega

theorem write_of_lt (m : Image) (bytes : List UInt8) (h : i < off) : write m off bytes i = m i :=
  if_neg (Nat.not_le_of_lt h)

theorem write_of_ge (m : Image) (bytes : List UInt8) (h : off + bytes.length ≤ i) :
    write m off bytes i = m i := by
  rw [write, if_pos (by omega), List.getElem?_eq_none (by omega), Option.getD_none]

/-- A write changes its own range only. -/
theorem range_of_write_ne {m : Image} (h : write m off bytes i ≠ m i) :
    off ≤ i ∧ i < off + bytes.length := by
  constructor
  · by_contra hlt
    exact h (write_of_lt m bytes (by omega))
  · by_contra hge
    exact h (write_of_ge m bytes (by omega))

theorem cut_of_lt (m m' : Image) (h : i < p) : cut p m m' i = m i := if_pos h

theorem cut_of_ge (m m' : Image) (h : p ≤ i) : cut p m m' i = m' i := if_neg (Nat.not_lt.mpr h)

theorem agreeBelow_cut (p : Nat) (m m' : Image) : AgreeBelow p m (cut p m m') :=
  fun _ h => (cut_of_lt m m' h).symm

theorem write_nil (m : Image) (off : Nat) : write m off [] = m := by
  funext i
  rw [write, List.getElem?_nil, Option.getD_none, ite_self]

/-- A write changes nothing below it. -/
theorem agreeBelow_write (m : Image) (off : Nat) (bytes : List UInt8) :
    AgreeBelow off (write m off bytes) m :=
  fun _ h => write_of_lt m bytes h

theorem fill_of_lt (m : Image) (hi : Nat) (bytes : Nat → Option UInt8) (h : i < lo) :
    fill m lo hi bytes i = m i := if_neg (by omega)

theorem fill_of_ge (m : Image) (lo : Nat) (bytes : Nat → Option UInt8) (h : hi ≤ i) :
    fill m lo hi bytes i = m i := if_neg (by omega)

/-- What was written is read back. -/
theorem read_write (m : Image) (off : Nat) (bytes : List UInt8) :
    read (write m off bytes) off bytes.length = bytes := by
  refine List.ext_getElem? fun i => ?_
  rw [getElem?_read]
  split
  · rw [write, if_pos (Nat.le_add_right off i), Nat.add_sub_cancel_left,
      List.getElem?_eq_getElem ‹_›, Option.getD_some]
  · rw [List.getElem?_eq_none (by omega)]

theorem read_append (m : Image) (off a b : Nat) :
    read m off (a + b) = read m off a ++ read m (off + a) b := by
  rw [read, List.range_add, List.map_append, List.map_map]
  refine congrArg (read m off a ++ ·) (List.map_congr_left fun i _ => ?_)
  rw [Function.comp_apply, Nat.add_assoc]

/-- The two parts of a write. -/
theorem read_write_append (m : Image) (off : Nat) (a b : List UInt8) :
    read (write m off (a ++ b)) off a.length = a ∧
      read (write m off (a ++ b)) (off + a.length) b.length = b := by
  have h := read_write m off (a ++ b)
  rw [List.length_append, read_append] at h
  exact List.append_inj h (length_read ..)

end ByteImage
