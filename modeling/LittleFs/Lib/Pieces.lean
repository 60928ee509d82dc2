import LittleFs.Lib.ByteImage
import LittleFs.Lib.Segments

/-! A string of bytes cut into pieces that are written one behind the other: however it is cut, the
range then holds the string. -/

namespace Pieces

open ByteImage (Image)
open Segments (Consecutive)

/-- Bytes, and where they start. -/
abbrev Piece := Nat × List UInt8

def span (p : Piece) : Nat × Nat := (p.1, p.1 + p.2.length)

def joined (ps : List Piece) : List UInt8 := ps.flatMap Prod.snd

def writeAll (m : Image) (ps : List Piece) : Image :=
  ps.foldl (fun m p => ByteImage.write m p.1 p.2) m

theorem joined_append (ps qs : List Piece) : joined (ps ++ qs) = joined ps ++ joined qs :=
  List.flatMap_append ..

theorem joined_singleton (p : Piece) : joined [p] = p.2 := List.flatMap_singleton ..

variable {ps : List Piece} {a b : Nat}

theorem writeAll_of_lt (h : Consecutive a b (ps.map span)) (m : Image) (hi : i < a) :
    writeAll m ps i = m i := by
  induction ps generalizing a m with
  | nil => rfl
  | cons p ps ih =>
    obtain ⟨rfl, hle, hrest⟩ := h
    exact (ih hrest (ByteImage.write m p.1 p.2) (Nat.lt_of_lt_of_le hi hle)).trans
      (ByteImage.write_of_lt m p.2 hi)

theorem writeAll_of_ge (h : Consecutive a b (ps.map span)) (m : Image) (hi : b ≤ i) :
    writeAll m ps i = m i := by
  induction ps generalizing a m with
  | nil => rfl
  | cons p ps ih =>
    obtain ⟨rfl, -, hrest⟩ := h
    exact (ih hrest (ByteImage.write m p.1 p.2)).trans
      (ByteImage.write_of_ge m p.2 (hrest.le.trans hi))

/-- **Pieces.** The range holds the string that the pieces make up. -/
theorem read_writeAll (h : Consecutive a b (ps.map span)) (m : Image) :
    ByteImage.read (writeAll m ps) a (joined ps).length = joined ps := by
  induction ps generalizing a m with
  | nil => rfl
  | cons p ps ih =>
    obtain ⟨rfl, -, hrest⟩ := h
    have hfirst : ByteImage.read (writeAll m (p :: ps)) (span p).1 p.2.length = p.2 := by
      -- the pieces behind the first one do not reach it
      have hkeep : ByteImage.AgreeBelow (span p).2 (writeAll m (p :: ps))
          (ByteImage.write m p.1 p.2) := fun i hi => writeAll_of_lt hrest _ hi
      exact (hkeep.read_eq (Nat.le_refl _)).trans (ByteImage.read_write m p.1 p.2)
    have hjoined : joined (p :: ps) = p.2 ++ joined ps := List.flatMap_cons ..
    rw [hjoined, List.length_append, ByteImage.read_append, hfirst]
    exact congrArg (p.2 ++ ·) (ih hrest (ByteImage.write m p.1 p.2))

end Pieces
