import LittleFs.Lib.BitField

/-! The 32-bit entry tags of `lfs.h` and the helpers of `lfs_utility.h` that slice them.

A tag holds a valid bit (bit 31), an 11-bit type, a 10-bit id and a 10-bit size. The type helpers
of this repository keep bit 31, so they tell a tag read from disk by `lfs_dir_traverse` (bit 31
set) from the same tag in memory. -/

namespace LittleFs

/-! ## Constants -/

/-- `enum lfs_error`. -/
def errOk : Int := 0
def errIo : Int := -5
def errCorrupt : Int := -84
def errNoent : Int := -2
def errExist : Int := -17
def errNotdir : Int := -20
def errIsdir : Int := -21
def errNotempty : Int := -39
def errFbig : Int := -27
def errInval : Int := -22
def errNospc : Int := -28
def errNametoolong : Int := -36
def errNomem : Int := -12
def errBadf : Int := -9
def errNoattr : Int := -61

theorem errIo_neg : errIo < 0 := by decide

/-- `LFS_FILE_MAX`. -/
def fileMax : Nat := 0x7fffffffffffffff

/-- `enum lfs_type`. -/
def typeReg : Nat := 0x001
def typeDir : Nat := 0x002
def fromNoop : Nat := 0x000
def typeName : Nat := 0x000
def typeFrom : Nat := 0x100
def fromMove : Nat := 0x101
def fromUserattrs : Nat := 0x102
def typeStruct : Nat := 0x200
def typeUserattr : Nat := 0x300
def typeSplice : Nat := 0x400
def typeCrc : Nat := 0x500
def typeTail : Nat := 0x600
def typeGlobals : Nat := 0x700
def typeSuperblock : Nat := 0x0ff
def typeDirstruct : Nat := 0x200
def typeCtzstruct : Nat := 0x202
def typeInlinestruct : Nat := 0x201
def typeCreate : Nat := 0x401
def typeDelete : Nat := 0x4ff
def typeSofttail : Nat := 0x600
def typeHardtail : Nat := 0x601
def typeMovestate : Nat := 0x7ff
def typeHasOrphans : Nat := 0x800

/-! ## Tags -/

abbrev Tag := BitVec 32

/-- `LFS_MKTAG`. -/
def mkTag (type id size : Nat) : Tag :=
  (BitVec.ofNat 32 type <<< 20) ||| (BitVec.ofNat 32 id <<< 10) ||| BitVec.ofNat 32 size

/-- `LFS_MKTAG(0, d, 0)` for a signed `d`: the amount the code adds to a tag to move its id. -/
def idShift (d : Int) : Tag := BitVec.ofInt 32 d <<< 10

def tagType1 (tag : Tag) : Nat := ((tag >>> 20) &&& 0xf00#32).toNat
def tagType3 (tag : Tag) : Nat := ((tag >>> 20) &&& 0xfff#32).toNat
def tagId (tag : Tag) : Nat := ((tag >>> 10) &&& 0x3ff#32).toNat
def tagSize (tag : Tag) : Nat := (tag &&& 0x3ff#32).toNat
def tagIsValid (tag : Tag) : Bool := (tag &&& 0x80000000#32) == 0#32
def tagIsDelete (tag : Tag) : Bool := (tag <<< 22).sshiftRight 22 == -1#32
def tagChunk (tag : Tag) : BitVec 8 := ((tag &&& 0x0ff00000#32) >>> 20).setWidth 8
def tagSplice (tag : Tag) : Int := (tagChunk tag).toInt
def tagDsize (tag : Tag) : Nat := 4 + tagSize (tag + if tagIsDelete tag then 1#32 else 0#32)

/-! ## The fields of a tag -/

/-- The 11-bit type without bit 31. -/
def tagTy (tag : Tag) : Nat := tag.toNat / 2 ^ 20 % 2 ^ 11

theorem tagType1_eq (tag : Tag) : tagType1 tag = tag.toNat / 2 ^ 28 * 2 ^ 8 := by
  have hmask := BitField.and_mask (tag.toNat / 2 ^ 20) 8 4
  have hlt := tag.isLt
  simp only [tagType1, BitVec.toNat_and, BitVec.toNat_ushiftRight, Nat.shiftRight_eq_div_pow]
  rw [show (0xf00#32).toNat = (2 ^ 4 - 1) * 2 ^ 8 from rfl, hmask]
  omega

theorem tagType3_eq (tag : Tag) : tagType3 tag = tag.toNat / 2 ^ 20 := by
  have hlt := tag.isLt
  simp only [tagType3, BitVec.toNat_and, BitVec.toNat_ushiftRight, Nat.shiftRight_eq_div_pow]
  rw [show (0xfff#32).toNat = 2 ^ 12 - 1 from rfl, Nat.and_two_pow_sub_one_eq_mod]
  omega

theorem tagId_eq (tag : Tag) : tagId tag = tag.toNat / 2 ^ 10 % 2 ^ 10 := by
  simp only [tagId, BitVec.toNat_and, BitVec.toNat_ushiftRight, Nat.shiftRight_eq_div_pow]
  exact Nat.and_two_pow_sub_one_eq_mod _ 10

theorem tagSize_eq (tag : Tag) : tagSize tag = tag.toNat % 2 ^ 10 := by
  simp only [tagSize, BitVec.toNat_and]
  exact Nat.and_two_pow_sub_one_eq_mod _ 10

theorem tagIsValid_iff (tag : Tag) : tagIsValid tag = true ↔ tag.toNat < 2 ^ 31 := by
  have hmask := BitField.and_mask tag.toNat 31 1
  have hlt := tag.isLt
  simp only [tagIsValid, beq_iff_eq, ← BitVec.toNat_inj, BitVec.toNat_and]
  change _ &&& (2 ^ 1 - 1) * 2 ^ 31 = 0 ↔ _
  omega

theorem tagIsDelete_iff (tag : Tag) : tagIsDelete tag = true ↔ tagSize tag = 0x3ff := by
  have hlt := tag.isLt
  have hval : (tag <<< 22).toNat = tag.toNat % 2 ^ 10 * 2 ^ 22 := by
    rw [BitVec.toNat_shiftLeft, Nat.shiftLeft_eq]
    omega
  rw [tagSize_eq, tagIsDelete, beq_iff_eq, ← BitVec.toInt_inj, BitVec.toInt_sshiftRight,
    Int.shiftRight_eq_div_pow, BitVec.toInt_eq_toNat_cond, hval]
  change _ = -1 ↔ _
  split <;> omega

theorem tagChunk_toNat (tag : Tag) : (tagChunk tag).toNat = tag.toNat / 2 ^ 20 % 2 ^ 8 := by
  have hmask := BitField.and_mask tag.toNat 20 8
  simp only [tagChunk, BitVec.toNat_setWidth, BitVec.toNat_ushiftRight, BitVec.toNat_and,
    Nat.shiftRight_eq_div_pow]
  change (_ &&& (2 ^ 8 - 1) * 2 ^ 20) / 2 ^ 20 % 2 ^ 8 = _
  omega

theorem tagId_lt (tag : Tag) : tagId tag < 2 ^ 10 := by
  rw [tagId_eq]
  omega

theorem tagSize_lt (tag : Tag) : tagSize tag < 2 ^ 10 := by
  rw [tagSize_eq]
  omega

theorem tagTy_lt (tag : Tag) : tagTy tag < 2 ^ 11 := by
  rw [tagTy]
  omega

/-- Of the type helpers only `tagType1` and `tagType3` see bit 31. -/
theorem tagType3_of_valid {tag : Tag} (h : tagIsValid tag = true) : tagType3 tag = tagTy tag := by
  rw [tagIsValid_iff] at h
  rw [tagType3_eq, tagTy]
  omega

theorem tagType1_of_valid {tag : Tag} (h : tagIsValid tag = true) :
    tagType1 tag = tagTy tag / 2 ^ 8 * 2 ^ 8 := by
  rw [tagIsValid_iff] at h
  rw [tagType1_eq, tagTy]
  omega

theorem tagType1_of_invalid {tag : Tag} (h : tagIsValid tag = false) : 0x800 ≤ tagType1 tag := by
  have hn : ¬ tag.toNat < 2 ^ 31 := by rw [← tagIsValid_iff, h]; simp
  rw [tagType1_eq]
  omega

theorem tagType3_of_invalid {tag : Tag} (h : tagIsValid tag = false) : 0x800 ≤ tagType3 tag := by
  have hn : ¬ tag.toNat < 2 ^ 31 := by rw [← tagIsValid_iff, h]; simp
  rw [tagType3_eq]
  omega

theorem mkTag_toNat {type id size : Nat} (ht : type < 2 ^ 12) (hi : id < 2 ^ 10)
    (hs : size < 2 ^ 10) : (mkTag type id size).toNat = type * 2 ^ 20 + id * 2 ^ 10 + size := by
  have htype : (BitVec.ofNat 32 type <<< 20).toNat = type * 2 ^ 20 := by
    rw [BitVec.toNat_shiftLeft, BitVec.toNat_ofNat, Nat.shiftLeft_eq]
    omega
  have hid : (BitVec.ofNat 32 id <<< 10).toNat = id * 2 ^ 10 := by
    rw [BitVec.toNat_shiftLeft, BitVec.toNat_ofNat, Nat.shiftLeft_eq]
    omega
  have hsize : (BitVec.ofNat 32 size).toNat = size := by
    rw [BitVec.toNat_ofNat]
    omega
  have hrest : id * 2 ^ 10 + size < 2 ^ 20 := by omega
  rw [mkTag, BitVec.toNat_or, BitVec.toNat_or, htype, hid, hsize, Nat.or_assoc,
    BitField.or_of_lt hs, BitField.or_of_lt hrest, Nat.add_assoc]

/-- The fields of a tag that is put together from its fields. -/
theorem mkTag_fields {type id size : Nat} (ht : type < 2 ^ 11) (hi : id < 2 ^ 10)
    (hs : size < 2 ^ 10) :
    tagTy (mkTag type id size) = type ∧ tagId (mkTag type id size) = id ∧
      tagSize (mkTag type id size) = size := by
  have ht12 : type < 2 ^ 12 := by omega
  have htoNat := mkTag_toNat ht12 hi hs
  rw [tagTy, tagId_eq, tagSize_eq]
  omega

theorem mkTag_of_fields {tag : Tag} (h : tagIsValid tag = true) :
    mkTag (tagTy tag) (tagId tag) (tagSize tag) = tag := by
  have hty := tagTy_lt tag
  rw [← BitVec.toNat_inj, mkTag_toNat (by omega) (tagId_lt tag) (tagSize_lt tag)]
  rw [tagIsValid_iff] at h
  rw [tagTy, tagId_eq, tagSize_eq]
  omega

theorem idShift_toNat (d : Int) : ((idShift d).toNat : Int) = d * 2 ^ 10 % 2 ^ 32 := by
  rw [idShift, BitVec.toNat_shiftLeft, Nat.shiftLeft_eq, BitVec.toNat_ofInt]
  omega

end LittleFs
