import LittleFs.Traverse

/-! What one call of `lfs_dir_traverse_filter` does, in terms of the fields of the two tags. -/

namespace LittleFs

variable {tag filtertag : Tag}

/-! ## Tags read from disk -/

theorem read_tag_toNat (tag : Tag) :
    (tag ||| 0x80000000#32).toNat = 2 ^ 31 + tag.toNat % 2 ^ 31 := by
  have hlt := tag.isLt
  have hlow : tag.toNat % 2 ^ 31 < 2 ^ 31 := Nat.mod_lt _ (Nat.two_pow_pos 31)
  have hor : ∀ b < 2, b * 2 ^ 31 ||| 1 * 2 ^ 31 = 1 * 2 ^ 31 := by decide
  calc
    (tag ||| 0x80000000#32).toNat = tag.toNat ||| 1 * 2 ^ 31 := by rw [BitVec.toNat_or]; rfl
    _ = (tag.toNat / 2 ^ 31 * 2 ^ 31 ||| tag.toNat % 2 ^ 31) ||| 1 * 2 ^ 31 := by
      rw [BitField.or_of_lt hlow, Nat.div_add_mod']
    _ = 1 * 2 ^ 31 ||| tag.toNat % 2 ^ 31 := by
      rw [Nat.or_assoc, Nat.or_comm (_ % _), ← Nat.or_assoc, hor _ (by omega)]
    _ = 2 ^ 31 + tag.toNat % 2 ^ 31 := by rw [BitField.or_of_lt hlow, Nat.one_mul]

@[simp] theorem tagTy_read (tag : Tag) : tagTy (tag ||| 0x80000000#32) = tagTy tag := by
  rw [tagTy, tagTy, read_tag_toNat]
  omega

@[simp] theorem tagId_read (tag : Tag) : tagId (tag ||| 0x80000000#32) = tagId tag := by
  rw [tagId_eq, tagId_eq, read_tag_toNat]
  omega

@[simp] theorem tagSize_read (tag : Tag) : tagSize (tag ||| 0x80000000#32) = tagSize tag := by
  rw [tagSize_eq, tagSize_eq, read_tag_toNat]
  omega

@[simp] theorem tagIsValid_read (tag : Tag) : tagIsValid (tag ||| 0x80000000#32) = false := by
  rw [← Bool.not_eq_true, tagIsValid_iff, read_tag_toNat]
  omega

/-! ## Moving the id of a tag -/

theorem add_idShift_toNat {d : Int} (hlo : 0 ≤ tagId tag + d) (hhi : tagId tag + d < 2 ^ 10) :
    ((tag + idShift d).toNat : Int) = tag.toNat + d * 2 ^ 10 := by
  have hshift := idShift_toNat d
  have hlt := tag.isLt
  rw [tagId_eq] at hlo hhi
  rw [BitVec.toNat_add]
  omega

/-- The fields of a tag whose id was moved within range. -/
structure SameButId (tag tag' : Tag) : Prop where
  ty : tagTy tag' = tagTy tag
  size : tagSize tag' = tagSize tag
  valid : tagIsValid tag' = tagIsValid tag

theorem SameButId.refl (tag : Tag) : SameButId tag tag := ⟨rfl, rfl, rfl⟩

theorem tagId_add_idShift (tag : Tag) {d : Int} (hlo : 0 ≤ tagId tag + d)
    (hhi : tagId tag + d < 2 ^ 10) :
    (tagId (tag + idShift d) : Int) = tagId tag + d := by
  have hadd := add_idShift_toNat hlo hhi
  rw [tagId_eq] at *
  rw [tagId_eq]
  omega

theorem sameButId_add_idShift (tag : Tag) {d : Int} (hlo : 0 ≤ tagId tag + d)
    (hhi : tagId tag + d < 2 ^ 10) :
    SameButId tag (tag + idShift d) := by
  have hadd := add_idShift_toNat hlo hhi
  rw [tagId_eq] at hlo hhi
  refine ⟨?_, ?_, ?_⟩
  · rw [tagTy, tagTy]
    omega
  · rw [tagSize_eq, tagSize_eq]
    omega
  · rw [Bool.eq_iff_iff, tagIsValid_iff, tagIsValid_iff]
    omega

theorem SameButId.tagType3 (H : SameButId tag tag') : tagType3 tag' = tagType3 tag := by
  cases hv : tagIsValid tag with
  | true => rw [tagType3_of_valid hv, tagType3_of_valid (H.valid.trans hv), H.ty]
  | false =>
    have hty := H.ty
    have hn := H.valid.trans hv
    rw [← Bool.not_eq_true, tagIsValid_iff] at hv hn
    rw [tagTy, tagTy] at hty
    have hlt := tag.isLt
    have hlt' := tag'.isLt
    rw [tagType3_eq, tagType3_eq]
    omega

/-! ## The cases of the filter -/

/-- The filter drops the tag: it is written again, its value is a removal, or its entry goes. -/
def Supersedes (tag filtertag : Tag) : Prop :=
  tagId tag = tagId filtertag ∧ typeKey (tagTy tag) = typeKey (tagTy filtertag) ∨
  tagSize filtertag = 0x3ff ∨ tagTy tag = typeDelete ∧ tagId tag = tagId filtertag

instance : Decidable (Supersedes tag filtertag) := inferInstanceAs (Decidable (_ ∨ _))

theorem typeKey_eq_iff (y z : Nat) :
    typeKey y = typeKey z ↔ if y / 0x100 % 2 = 1 then y = z else y / 0x100 = z / 0x100 := by
  unfold typeKey
  split <;> split <;> omega

theorem and_typeFrom_ne_zero (tag : Tag) :
    tag &&& mkTag typeFrom 0 0 ≠ 0#32 ↔ tagTy tag / 0x100 % 2 = 1 := by
  have hmask := BitField.and_mask tag.toNat 28 1
  rw [ne_eq, ← BitVec.toNat_inj, BitVec.toNat_and,
    show (mkTag typeFrom 0 0).toNat = (2 ^ 1 - 1) * 2 ^ 28 from rfl, hmask, tagTy]
  change ¬ _ = 0 ↔ _
  omega

/-- A mask of types and of whole ids. -/
theorem and_mask_toNat {mask : Nat} (h : mask < 2 ^ 11) (tag : Tag) :
    (mkTag mask 0x3ff 0 &&& tag).toNat = (mask &&& tagTy tag) * 2 ^ 20 + tagId tag * 2 ^ 10 := by
  have hlow := BitField.and_mask tag.toNat 10 10
  have hid : tagId tag * 2 ^ 10 < 2 ^ 20 := by
    have := tagId_lt tag
    omega
  have hmask : (mkTag mask 0x3ff 0).toNat = mask * 2 ^ 20 ||| (2 ^ 10 - 1) * 2 ^ 10 := by
    rw [mkTag_toNat (by omega) (by decide) (by decide), BitField.or_of_lt (by decide)]
    omega
  have hty : mask &&& (tag.toNat / 2 ^ 20) = mask &&& tagTy tag := by
    rw [tagTy, ← Nat.and_two_pow_sub_one_eq_mod, ← Nat.and_assoc, Nat.and_right_comm,
      Nat.and_two_pow_sub_one_eq_mod, Nat.mod_eq_of_lt h]
  rw [BitVec.toNat_and, hmask, Nat.and_or_distrib_right, BitField.mul_and, hty,
    Nat.and_comm _ tag.toNat, hlow, ← tagId_eq, BitField.or_of_lt hid]

theorem and_mask_eq_iff {mask : Nat} (h : mask < 2 ^ 11) (tag tag' : Tag) :
    mkTag mask 0x3ff 0 &&& tag = mkTag mask 0x3ff 0 &&& tag' ↔
      mask &&& tagTy tag = mask &&& tagTy tag' ∧ tagId tag = tagId tag' := by
  have hid := tagId_lt tag
  have hid' := tagId_lt tag'
  rw [← BitVec.toNat_inj, and_mask_toNat h, and_mask_toNat h]
  omega

theorem and_movestate_toNat (tag : Tag) :
    (mkTag typeMovestate 0x3ff 0 &&& tag).toNat = tagTy tag * 2 ^ 20 + tagId tag * 2 ^ 10 := by
  rw [and_mask_toNat (by decide), Nat.and_comm, show typeMovestate = 2 ^ 11 - 1 from rfl,
    Nat.and_two_pow_sub_one_eq_mod, Nat.mod_eq_of_lt (tagTy_lt tag)]

theorem and_globals_toNat (tag : Tag) :
    (mkTag typeGlobals 0x3ff 0 &&& tag).toNat =
      tagTy tag / 0x100 * 2 ^ 28 + tagId tag * 2 ^ 10 := by
  have hty := tagTy_lt tag
  have hmask := BitField.and_mask (tagTy tag) 8 3
  rw [and_mask_toNat (by decide), Nat.and_comm,
    show typeGlobals = (2 ^ 3 - 1) * 2 ^ 8 from rfl, hmask]
  omega

/-- A tag of the given type without data, with the id of another tag. -/
theorem or_id_toNat {type : Nat} (h : type < 2 ^ 12) (tag : Tag) :
    (mkTag type 0 0 ||| (mkTag 0 0x3ff 0 &&& tag)).toNat = type * 2 ^ 20 + tagId tag * 2 ^ 10 := by
  have hlow := BitField.and_mask tag.toNat 10 10
  have hid : tagId tag * 2 ^ 10 < 2 ^ 20 := by
    have := tagId_lt tag
    omega
  rw [BitVec.toNat_or, BitVec.toNat_and, Nat.and_comm,
    show (mkTag 0 0x3ff 0).toNat = (2 ^ 10 - 1) * 2 ^ 10 from rfl, hlow, ← tagId_eq,
    mkTag_toNat h (by decide) (by decide), Nat.zero_mul, Nat.add_zero,
    BitField.or_of_lt hid]

theorem eq_or_id_iff {type : Nat} (h : type < 2 ^ 11) (tag tag' : Tag) :
    tag = mkTag type 0 0 ||| (mkTag 0 0x3ff 0 &&& tag') ↔
      tagIsValid tag = true ∧ tagTy tag = type ∧ tagId tag = tagId tag' ∧ tagSize tag = 0 := by
  have hid := tagId_lt tag'
  have hlt := tag.isLt
  rw [← BitVec.toNat_inj, or_id_toNat (by omega), tagIsValid_iff, tagTy, tagId_eq tag, tagSize_eq]
  omega

theorem same_masked_iff (tag filtertag : Tag) :
    filterMask tag &&& tag = filterMask tag &&& filtertag ↔
      tagId tag = tagId filtertag ∧ typeKey (tagTy tag) = typeKey (tagTy filtertag) := by
  have hid := tagId_lt tag
  have hid' := tagId_lt filtertag
  simp only [filterMask, and_typeFrom_ne_zero, typeKey_eq_iff]
  split
  · rw [← BitVec.toNat_inj, and_movestate_toNat, and_movestate_toNat]
    omega
  · rw [← BitVec.toNat_inj, and_globals_toNat, and_globals_toNat]
    omega

theorem is_delete_iff (tag filtertag : Tag) :
    mkTag typeMovestate 0x3ff 0 &&& tag =
      mkTag typeDelete 0 0 ||| (mkTag 0 0x3ff 0 &&& filtertag) ↔
    tagTy tag = typeDelete ∧ tagId tag = tagId filtertag := by
  have hid := tagId_lt tag
  have hid' := tagId_lt filtertag
  rw [← BitVec.toNat_inj, and_movestate_toNat, or_id_toNat (by decide)]
  simp only [typeDelete]
  omega

/-- The filter in terms of the fields. -/
theorem dirTraverseFilter_eq (tag filtertag : Tag) :
    dirTraverseFilter tag filtertag =
      if Supersedes tag filtertag then (0#32, true)
      else if tagType1 tag = typeSplice ∧ tagId tag ≤ tagId filtertag then
        (filtertag + idShift (tagSplice tag), false)
      else (filtertag, false) := by
  unfold dirTraverseFilter
  simp only [same_masked_iff, tagIsDelete_iff, is_delete_iff]
  rfl

theorem dirTraverseFilter_of_supersedes (h : Supersedes tag filtertag) :
    dirTraverseFilter tag filtertag = (0#32, true) := by
  rw [dirTraverseFilter_eq, if_pos h]

/-- Disk tags never move an id: their type 1 keeps bit 31. -/
theorem dirTraverseFilter_of_disk (hdisk : tagIsValid tag = false)
    (h : ¬ Supersedes tag filtertag) : dirTraverseFilter tag filtertag = (filtertag, false) := by
  have htype := tagType1_of_invalid hdisk
  have hne : ¬ (tagType1 tag = typeSplice ∧ tagId tag ≤ tagId filtertag) := by
    simp only [typeSplice]
    omega
  rw [dirTraverseFilter_eq, if_neg h, if_neg hne]

/-- The tags of a disk that are read back pass the filter as they are, or not at all. -/
theorem filterScan_disk (items : List Attr) (hdisk : ∀ a ∈ items, tagIsValid a.tag = false)
    (tag : Tag) : filterScan items tag = tag ∨ filterScan items tag = 0#32 := by
  induction items with
  | nil => exact .inl rfl
  | cons a items ih =>
    obtain ⟨ha, hitems⟩ := List.forall_mem_cons.mp hdisk
    have htype := tagType3_of_invalid ha
    rw [filterScan, if_neg (by rw [fromNoop]; omega), if_neg (by rw [fromMove]; omega),
      if_neg (by rw [fromUserattrs]; omega)]
    by_cases hs : Supersedes a.tag tag
    · rw [dirTraverseFilter_of_supersedes hs]
      exact .inr rfl
    · rw [dirTraverseFilter_of_disk ha hs]
      exact ih hitems

theorem dirTraverseFilter_of_mem (hmem : tagIsValid tag = true) (h : ¬ Supersedes tag filtertag) :
    dirTraverseFilter tag filtertag =
      if tagTy tag / 2 ^ 8 = 4 ∧ tagId tag ≤ tagId filtertag then
        (filtertag + idShift (tagSplice tag), false)
      else (filtertag, false) := by
  have htype : tagType1 tag = typeSplice ↔ tagTy tag / 2 ^ 8 = 4 := by
    rw [tagType1_of_valid hmem, typeSplice]
    omega
  rw [dirTraverseFilter_eq, if_neg h]
  simp only [htype]

theorem tagSplice_create (h : tagTy tag = typeCreate) : tagSplice tag = 1 := by
  have hchunk := tagChunk_toNat tag
  have hty : tag.toNat / 2 ^ 20 % 2 ^ 8 = 1 := by
    simp only [tagTy, typeCreate] at h
    omega
  rw [tagSplice, BitVec.toInt_eq_toNat_cond, hchunk, hty]
  rfl

theorem tagSplice_delete (h : tagTy tag = typeDelete) : tagSplice tag = -1 := by
  have hchunk := tagChunk_toNat tag
  have hty : tag.toNat / 2 ^ 20 % 2 ^ 8 = 255 := by
    simp only [tagTy, typeDelete] at h
    omega
  rw [tagSplice, BitVec.toInt_eq_toNat_cond, hchunk, hty]
  rfl

end LittleFs
