import LittleFs.CommitFetch
import LittleFs.Lib.Crc

/-! `lfs_crc`: the table of sixteen words, two nibbles a byte, is the reflected CRC-32 that takes in
one bit at a time. The writer of a commit, the scan that reads it back and the verification of
`lfs_dir_commit_crc` cut the bytes in different places; the checksum does not depend on the cut. -/

namespace LittleFs

open Crc (bitsOf feed shift)

/-- The reflected polynomial of CRC-32. -/
def crcPolynomial : BitVec 32 := 0xedb88320#32

/-- The bits of a byte in the order in which they enter, the least significant one first. -/
def byteBits (b : UInt8) : List Bool := bitsOf 8 b.toNat

/-- The bits of a string of bytes. -/
def stringBits (bytes : List UInt8) : List Bool := bytes.flatMap byteBits

theorem stringBits_cons (b : UInt8) (bytes : List UInt8) :
    stringBits (b :: bytes) = byteBits b ++ stringBits bytes := List.flatMap_cons ..

/-- The bits of a little-endian number are its bits. -/
theorem stringBits_toLe (size n : Nat) : stringBits (toLe size n) = bitsOf (8 * size) n := by
  induction size generalizing n with
  | zero => rfl
  | succ size ih =>
    have hbyte : byteBits (UInt8.ofNat n) = bitsOf 8 n := by
      have hmod : (UInt8.ofNat n).toNat = n % 2 ^ 8 := UInt8.toNat_ofNat'
      rw [byteBits, hmod, Crc.bitsOf_mod]
    have hwidth : 8 * (size + 1) = 8 + 8 * size := by omega
    have hdiv : n / 2 ^ 8 = n / 256 := rfl
    rw [toLe, stringBits_cons, ih, hbyte, hwidth, Crc.bitsOf_add, hdiv]

/-! ## The table -/

/-- An entry of the table is four steps of its index. -/
theorem crcTable_eq {v : Nat} (hv : v < 16) :
    crcTable.getD v 0#32 = (shift crcPolynomial)^[4] (BitVec.ofNat 32 v) := by
  have H : ∀ v < 16, crcTable.getD v 0#32 = (shift crcPolynomial)^[4] (BitVec.ofNat 32 v) := by
    decide
  exact H v hv

/-- A nibble from the table is its four bits. -/
theorem crcNibble_eq (crc : BitVec 32) (data : Nat) :
    crcNibble crc data = feed crcPolynomial crc (bitsOf 4 data) := by
  have hlt : data % 2 ^ 4 < 2 ^ 4 := Nat.mod_lt _ (by decide)
  have hword : (BitVec.ofNat 32 (data % 2 ^ 4)).toNat = data % 2 ^ 4 := by
    rw [BitVec.toNat_ofNat, Nat.mod_eq_of_lt (lt_trans hlt (by decide))]
  -- the data nibble leaves with the shift, it only selects the entry
  have hhigh : (crc ^^^ BitVec.ofNat 32 (data % 2 ^ 4)) >>> 4 = crc >>> 4 := by
    have hzero : BitVec.ofNat 32 (data % 2 ^ 4) >>> 4 = 0#32 := by
      apply BitVec.eq_of_toNat_eq
      rw [BitVec.toNat_ushiftRight, hword, Nat.shiftRight_eq_div_pow, Nat.div_eq_of_lt hlt]
      rfl
    rw [BitVec.ushiftRight_xor_distrib, hzero, BitVec.xor_zero]
  have hindex : (crc ^^^ BitVec.ofNat 32 (data % 2 ^ 4)).toNat % 2 ^ 4 =
      (crc.toNat ^^^ data) % 16 := by
    rw [BitVec.toNat_xor, hword, Nat.xor_mod_two_pow, Nat.mod_mod, ← Nat.xor_mod_two_pow]
  have hentry : (crc.toNat ^^^ data) % 16 < 16 := Nat.mod_lt _ (by decide)
  calc crcNibble crc data
      = crc >>> 4 ^^^ (shift crcPolynomial)^[4]
          (BitVec.ofNat 32 ((crc.toNat ^^^ data) % 16)) := by rw [crcNibble, crcTable_eq hentry]
    _ = (shift crcPolynomial)^[4] (crc ^^^ BitVec.ofNat 32 (data % 2 ^ 4)) := by
      rw [Crc.shift_iterate_eq crcPolynomial 4 (crc ^^^ _), hhigh, Crc.low, hindex]
    _ = feed crcPolynomial crc (bitsOf 4 data) := by
      rw [← Crc.feed_bitsOf crcPolynomial hlt (by decide), Crc.bitsOf_mod]

/-- `lfs_crc` is the check of the bits of the string. -/
theorem lfsCrc_eq_feed (crc : BitVec 32) (data : List UInt8) :
    lfsCrc crc data = feed crcPolynomial crc (stringBits data) := by
  induction data generalizing crc with
  | nil => rfl
  | cons b data ih =>
    have hbyte : byteBits b = bitsOf 4 b.toNat ++ bitsOf 4 (b.toNat >>> 4) := by
      rw [byteBits, Nat.shiftRight_eq_div_pow, ← Crc.bitsOf_add]
    calc lfsCrc crc (b :: data)
        = lfsCrc (crcNibble (crcNibble crc b.toNat) (b.toNat >>> 4)) data := rfl
      _ = feed crcPolynomial crc (stringBits (b :: data)) := by
        rw [ih, crcNibble_eq, crcNibble_eq, ← Crc.feed_append, ← Crc.feed_append, stringBits_cons,
          hbyte, List.append_assoc]

/-! ## Composition and residue -/

/-- However the string is cut, as `lfs_dir_commitprog` does by calls, the scan by tags and
`lfs_dir_commit_crc` by bytes. -/
theorem lfsCrc_flatten (crc : BitVec 32) (parts : List (List UInt8)) :
    lfsCrc crc parts.flatten = parts.foldl lfsCrc crc := by
  induction parts generalizing crc with
  | nil => rfl
  | cons data parts ih => rw [List.flatten_cons, lfsCrc_append, ih, List.foldl_cons]

/-- A checksum followed by itself is 0. -/
theorem lfsCrc_residue (crc : BitVec 32) : lfsCrc crc (toLe32 crc) = 0#32 := by
  rw [lfsCrc_eq_feed, toLe32, stringBits_toLe]
  exact Crc.feed_self crcPolynomial crc

/-- `lfs_crc` is the bit-by-bit check with the reflected polynomial, it composes over a cut of the
string, and a string followed by its checksum is accepted. -/
theorem lfsCrc_isCrc (crc : BitVec 32) (data more : List UInt8) :
    lfsCrc crc data = feed 0xedb88320#32 crc (stringBits data) ∧
    lfsCrc crc (data ++ more) = lfsCrc (lfsCrc crc data) more ∧
    lfsCrc crc (toLe32 crc) = 0#32 ∧
    lfsCrc crc (data ++ toLe32 (lfsCrc crc data)) = 0#32 := by
  refine ⟨lfsCrc_eq_feed crc data, lfsCrc_append crc data more, lfsCrc_residue crc, ?_⟩
  rw [lfsCrc_append, lfsCrc_residue]

end LittleFs
