import LittleFs.CtzList

/-! The extension of a CTZ list by `lfs_ctz_extend`: a copy of an incomplete last block, or a new
block whose pointers are gathered from the pointers of the blocks before it. -/

namespace LittleFs

open BitCount SkipList

namespace CtzDisk

variable {d : CtzDisk} {block block' : Nat} {image image' : ByteImage.Image}

@[simp] theorem set_content_same : (d.set block image).content block = image :=
  Function.update_self ..

theorem set_content_other (h : block' ≠ block) :
    (d.set block image).content block' = d.content block' :=
  Function.update_of_ne h ..

@[simp] theorem set_set : (d.set block image).set block image' = d.set block image' := by
  simp only [set, Function.update_idem]

/-- A block that `lfs_alloc` may return and that takes its contents without an error. -/
structure Usable (d : CtzDisk) (block : Nat) : Prop where
  count_le : d.blockCount ≤ 2 ^ 64
  lt : block < d.blockCount
  read : d.readResult block = errOk
  erase : d.eraseResult block = errOk
  write : d.writeResult block = errOk

theorem Usable.bdErase (H : d.Usable block) : d.bdErase block = (errOk, d.set block d.erased) :=
  if_neg (not_not.mpr H.erase)

theorem Usable.bdWrite_set (H : d.Usable block) (offset : Nat) (bytes : List UInt8) :
    (d.set block image).bdWrite block offset bytes =
      (errOk, d.set block (ByteImage.write image offset bytes)) := by
  have hwrite : (d.set block image).writeResult block = errOk := H.write
  rw [bdWrite, if_neg (not_not.mpr hwrite), set_set, set_content_same]

end CtzDisk

namespace CtzList

open CtzDisk

variable {d : CtzDisk} {addr : Nat → Nat} {n nblock : Nat}

/-- A block that is not in the list may be written. -/
theorem set (H : CtzList d n addr) (hfresh : ∀ i ≤ n, addr i ≠ nblock) (image : ByteImage.Image) :
    CtzList (d.set nblock image) n addr where
  count_le := H.count_le
  lt := H.lt
  readable := H.readable
  room := H.room
  pointer i hi hne j hj := by
    rw [set_content_other (hfresh i hi)]
    exact H.pointer i hi hne j hj

/-- The new block takes the place of `addr m`, with the pointers that a block there needs. -/
theorem update (H : CtzList d n addr) (hfresh : ∀ i ≤ n, addr i ≠ nblock)
    (hblock : d.Usable nblock) (hm : m ≤ n + 1) (hroom : Room 8 d.blockSize m)
    {image : ByteImage.Image} (hpointer : m ≠ 0 → ∀ j ≤ zeros m,
      ByteImage.read image (8 * j) 8 = toLe 8 (addr (m - 2 ^ j))) :
    CtzList (d.set nblock image) m (Function.update addr m nblock) where
  count_le := H.count_le
  lt i hi := by
    rcases Nat.eq_or_lt_of_le hi with rfl | hi
    · rw [Function.update_self]
      exact hblock.lt
    · rw [Function.update_of_ne (Nat.ne_of_lt hi)]
      exact H.lt i (by omega)
  readable i hi := by
    rcases Nat.eq_or_lt_of_le hi with rfl | hi
    · rw [Function.update_self]
      exact hblock.read
    · rw [Function.update_of_ne (Nat.ne_of_lt hi)]
      exact H.readable i (by omega)
  room := hroom
  pointer i hi hne j hj := by
    have hpos := Nat.two_pow_pos j
    rw [Function.update_of_ne (show i - 2 ^ j ≠ m by omega)]
    rcases Nat.eq_or_lt_of_le hi with rfl | hi
    · rw [Function.update_self, set_content_same]
      exact hpointer hne j hj
    · rw [Function.update_of_ne (Nat.ne_of_lt hi), set_content_other (hfresh i (by omega))]
      exact H.pointer i (by omega) hne j hj

/-! ## The two loops -/

/-- The copy of the last block. -/
theorem ctzCopy_eq (H : CtzList d n addr) (hfresh : ∀ i ≤ n, addr i ≠ nblock)
    (hblock : d.Usable nblock) (noff : Nat) (hle : idx + k ≤ d.blockSize)
    (image : ByteImage.Image) :
    ∃ image', ctzCopy (addr n) nblock noff k idx (d.set nblock image) =
        (.done nblock noff, d.set nblock image') ∧
      (∀ i < idx, image' i = image i) ∧
      ∀ i < idx + k, idx ≤ i → image' i = d.content (addr n) i := by
  induction k generalizing idx image with
  | zero => exact ⟨image, rfl, fun _ _ => rfl, fun i hi hle => by omega⟩
  | succ k ih =>
    have hend : idx + 1 ≤ (d.set nblock image).blockSize := by
      simp only [CtzDisk.set]
      omega
    have hread := (H.set hfresh image).bdRead_block (Nat.le_refl n) hend
    rw [set_content_other (hfresh n (Nat.le_refl n))] at hread
    have hbyte : ByteImage.read (d.content (addr n)) idx 1 = [d.content (addr n) idx] := rfl
    obtain ⟨image', hcopy, hbefore, hcopied⟩ := ih (show idx + 1 + k ≤ d.blockSize by omega)
      (ByteImage.write image idx [d.content (addr n) idx])
    refine ⟨image', ?_, fun i hi => ?_, fun i hi hle => ?_⟩
    · rw [ctzCopy, hread, hbyte]
      dsimp only
      rw [hblock.bdWrite_set]
      exact hcopy
    · rw [hbefore i (by omega), ByteImage.write_of_lt _ _ hi]
    · rcases Nat.eq_or_lt_of_le hle with rfl | hlt
      · rw [hbefore idx (Nat.lt_succ_self _), ByteImage.write, if_pos (Nat.le_refl _),
          Nat.sub_self]
        rfl
      · exact hcopied i (by omega) hlt

/-- The pointers of a new block behind the list. -/
theorem ctzPointers_eq (H : CtzList d n addr) (hfresh : ∀ i ≤ n, addr i ≠ nblock)
    (hblock : d.Usable nblock) (hk : idx + k = zeros (n + 1) + 1)
    (image : ByteImage.Image) (hbefore : ∀ j < idx,
      ByteImage.read image (8 * j) 8 = toLe 8 (addr (n + 1 - 2 ^ j)))
    (hnhead : idx ≤ zeros (n + 1) → nhead = addr (n + 1 - 2 ^ idx)) :
    ∃ image', ctzPointers nblock (zeros (n + 1) + 1) k idx nhead (d.set nblock image) =
        (.done nblock (8 * (zeros (n + 1) + 1)), d.set nblock image') ∧
      ∀ j ≤ zeros (n + 1), ByteImage.read image' (8 * j) 8 = toLe 8 (addr (n + 1 - 2 ^ j)) := by
  induction k generalizing idx nhead image with
  | zero => exact ⟨image, rfl, fun j hj => hbefore j (by omega)⟩
  | succ k ih =>
    have hne : n + 1 ≠ 0 := n.succ_ne_zero
    obtain rfl := hnhead (by omega)
    generalize hbytes : toLe 8 (addr (n + 1 - 2 ^ idx)) = bytes
    have hlen : bytes.length = 8 := hbytes ▸ length_toLe ..
    have hafter : ∀ j < idx + 1, ByteImage.read (ByteImage.write image (8 * idx) bytes) (8 * j) 8 =
        toLe 8 (addr (n + 1 - 2 ^ j)) := by
      intro j hj
      rcases Nat.eq_or_lt_of_le (Nat.le_of_lt_succ hj) with rfl | hj
      · have hread := ByteImage.read_write image (8 * j) bytes
        rw [hlen] at hread
        rw [hread, hbytes]
      · rw [← hbefore j hj]
        exact (ByteImage.agreeBelow_write image (8 * idx) bytes).read_eq
          (show 8 * j + 8 ≤ 8 * idx by omega)
    rw [ctzPointers, hbytes, hblock.bdWrite_set]
    dsimp only
    rw [if_neg (not_not.mpr rfl)]
    by_cases hlast : idx = zeros (n + 1)
    · rw [if_neg (by omega)]
      exact ih (by omega) _ hafter fun h => by omega
    · -- the block that the last pointer leads to has the pointer that leads to the next one
      obtain ⟨hzeros, hlt⟩ := le_zeros_sub n.succ_ne_zero (show idx < zeros (n + 1) by omega)
      have hpow : 2 ^ (idx + 1) = 2 ^ idx + 2 ^ idx := by rw [Nat.pow_succ, Nat.mul_two]
      have hpos := Nat.two_pow_pos idx
      have H' := H.set hfresh (ByteImage.write image (8 * idx) bytes)
      rw [if_pos (by omega), H'.bdRead_pointer (by omega) (by omega) hzeros]
      dsimp only
      rw [H.fromLe_addr (by omega)]
      refine ih (by omega) _ hafter fun _ => ?_
      rw [hpow, Nat.sub_sub]

end CtzList

/-! ## The extension -/

/-- Byte `pos` of the list. -/
def CtzDisk.byteAt (d : CtzDisk) (addr : Nat → Nat) (pos : Nat) : UInt8 :=
  d.content (addr (ctzIndex d.blockSize pos).1) (ctzIndex d.blockSize pos).2

/-- `lfs_ctz_extend` returns a block and the place of byte `size` in it: the block is the head of a
list of one byte more, with the bytes of the old one, and nothing else is modified. -/
def CtzExtends (d : CtzDisk) (size : Nat) (addr : Nat → Nat) (nblock : Nat)
    (r : Option (Except Int (Nat × Nat) × CtzDisk)) : Prop :=
  ∃ offset d' addr', r = some (.ok (nblock, offset), d') ∧
    CtzList d' (ctzIndex d.blockSize size).1 addr' ∧
    addr' (ctzIndex d.blockSize size).1 = nblock ∧
    offset = (ctzIndex d.blockSize size).2 ∧
    Holds 8 d.blockSize (ctzIndex d.blockSize size).1 size offset ∧
    (∀ pos < size, d'.byteAt addr' pos = d.byteAt addr pos) ∧
    ∀ block ≠ nblock, d'.content block = d.content block

/-- When the last block is full, the next one has room for a byte behind its pointers. -/
def NextRoom (blockSize size : Nat) : Prop :=
  (ctzIndex blockSize (size - 1)).2 + 1 = blockSize →
    8 * pointers ((ctzIndex blockSize (size - 1)).1 + 1) < blockSize

section

variable {d : CtzDisk} {addr : Nat → Nat} {size n off nblock : Nat}

open CtzDisk

/-- The two ways of the function. -/
theorem ctzExtendTo_copy (H : CtzList d n addr) (hfresh : ∀ i ≤ n, addr i ≠ nblock)
    (hblock : d.Usable nblock) (hsize : size ≠ 0)
    (hindex : ctzIndex d.blockSize (size - 1) = (n, off)) (hlt : off + 1 < d.blockSize) :
    ∃ image, ctzExtendTo (addr n) size nblock d = (.done nblock (off + 1), d.set nblock image) ∧
      ∀ i < off + 1, image i = d.content (addr n) i := by
  obtain ⟨image, hcopy, _, hcopied⟩ := H.ctzCopy_eq hfresh hblock (off + 1)
    (show 0 + (off + 1) ≤ d.blockSize by omega) d.erased
  refine ⟨image, ?_, fun i hi => hcopied i (by omega) (Nat.zero_le i)⟩
  have hindex' : ctzIndex (d.set nblock d.erased).blockSize (size - 1) = (n, off) := hindex
  have hne : off + 1 ≠ (d.set nblock d.erased).blockSize := Nat.ne_of_lt hlt
  rw [ctzExtendTo, hblock.bdErase]
  dsimp only
  rw [if_neg (not_not.mpr rfl), if_neg hsize, hindex', if_pos hne, hcopy]

theorem ctzExtendTo_append (H : CtzList d n addr) (hfresh : ∀ i ≤ n, addr i ≠ nblock)
    (hblock : d.Usable nblock) (hsize : size ≠ 0) (hn : n + 1 < 2 ^ 64)
    (hindex : ctzIndex d.blockSize (size - 1) = (n, off)) (hfull : off + 1 = d.blockSize) :
    ∃ image, ctzExtendTo (addr n) size nblock d =
        (.done nblock (8 * pointers (n + 1)), d.set nblock image) ∧
      ∀ j ≤ zeros (n + 1), ByteImage.read image (8 * j) 8 = toLe 8 (addr (n + 1 - 2 ^ j)) := by
  obtain ⟨image, hloop, hpointers⟩ := H.ctzPointers_eq hfresh hblock
    (Nat.zero_add (zeros (n + 1) + 1)) d.erased (fun j hj => absurd hj (Nat.not_lt_zero j))
    (fun _ => rfl)
  refine ⟨image, ?_, hpointers⟩
  have hindex' : ctzIndex (d.set nblock d.erased).blockSize (size - 1) = (n, off) := hindex
  have heq : off + 1 = (d.set nblock d.erased).blockSize := hfull
  have hskips : ctz64 (n + 1) = zeros (n + 1) := ctz64_eq n.succ_ne_zero hn
  rw [ctzExtendTo, hblock.bdErase]
  dsimp only
  rw [if_neg (not_not.mpr rfl), if_neg hsize, hindex', if_neg (not_not.mpr heq),
    Nat.mod_eq_of_lt hn, hskips, pointers_succ]
  exact hloop

/-- The old bytes in a list whose block `m` is the new one. -/
theorem byteAt_update (hfresh : ∀ i ≤ n, addr i ≠ nblock) {image : ByteImage.Image}
    (hn : (ctzIndex d.blockSize pos).1 ≤ n)
    (himage : (ctzIndex d.blockSize pos).1 = m →
      image (ctzIndex d.blockSize pos).2 = d.content (addr m) (ctzIndex d.blockSize pos).2) :
    (d.set nblock image).byteAt (Function.update addr m nblock) pos = d.byteAt addr pos := by
  change (d.set nblock image).content (Function.update addr m nblock (ctzIndex d.blockSize pos).1)
    (ctzIndex d.blockSize pos).2 = _
  rw [byteAt]
  by_cases hm : (ctzIndex d.blockSize pos).1 = m
  · rw [hm, Function.update_self, set_content_same]
    exact himage hm
  · rw [Function.update_of_ne hm, set_content_other (hfresh _ hn)]

theorem ctzExtend_of_done (h : ctzExtendTo head size nblock d = (.done block offset, d'))
    (allocs : List (Except Int Nat)) :
    ctzExtend head size (.ok nblock :: allocs) d = some (.ok (block, offset), d') := by
  rw [ctzExtend, h]

theorem ctzIndex_zero (blockSize : Nat) : ctzIndex blockSize 0 = (0, 0) := by
  rw [ctzIndex]
  exact if_pos (Nat.zero_div _)

/-- The first block of a file. -/
theorem ctzExtends_zero (hB : 16 < d.blockSize) (hblock : d.Usable nblock)
    (allocs : List (Except Int Nat)) :
    CtzExtends d 0 addr nblock (ctzExtend (addr n) 0 (.ok nblock :: allocs) d) := by
  have hextend : ctzExtendTo (addr n) 0 nblock d = (.done nblock 0, d.set nblock d.erased) := by
    rw [ctzExtendTo, hblock.bdErase]
    rfl
  have hholds : Holds 8 d.blockSize 0 0 0 := by
    refine ⟨Nat.le_refl 0, ?_, rfl⟩
    simp only [start, pointers, ↓reduceIte]
    omega
  refine ⟨0, _, fun _ => nblock, ctzExtend_of_done hextend allocs, ?_⟩
  rw [ctzIndex_zero]
  refine ⟨⟨hblock.count_le, fun _ _ => hblock.lt, fun _ _ => hblock.read, ?_, ?_⟩, rfl, rfl, hholds,
    fun pos hpos => absurd hpos (Nat.not_lt_zero pos), fun block hne => set_content_other hne⟩
  · intro i hi
    obtain rfl : i = 0 := Nat.le_zero.mp hi
    exact Nat.zero_le _
  · exact fun i hi hne => absurd (Nat.le_zero.mp hi) hne

/-- A list that the next byte still fits. -/
theorem ctzExtends_copy (H : CtzList d n addr) (hfresh : ∀ i ≤ n, addr i ≠ nblock)
    (hblock : d.Usable nblock) (hsize : size ≠ 0)
    (hindex : ctzIndex d.blockSize (size - 1) = (n, off)) (hlt : off + 1 < d.blockSize)
    (hexact : ∀ pos ≤ size, CtzExact d.blockSize pos) (allocs : List (Except Int Nat)) :
    CtzExtends d size addr nblock (ctzExtend (addr n) size (.ok nblock :: allocs) d) := by
  obtain ⟨image, hextend, himage⟩ :=
    ctzExtendTo_copy H hfresh hblock hsize hindex hlt
  have hlast : Holds 8 d.blockSize n (size - 1) off := by
    have hlast := hexact (size - 1) (Nat.sub_le ..)
    rwa [CtzExact, hindex] at hlast
  have hnext : Holds 8 d.blockSize n size (off + 1) := by
    have hnext := hlast.succ hlt
    rwa [Nat.sub_add_cancel (Nat.pos_of_ne_zero hsize)] at hnext
  obtain ⟨hn, hoff⟩ := (hexact size (Nat.le_refl _)).unique hnext
  have hpointers := hlast.pointers_le
  refine ⟨off + 1, _, Function.update addr n nblock, ctzExtend_of_done hextend allocs, ?_⟩
  rw [hn, hoff]
  refine ⟨H.update hfresh hblock (Nat.le_succ n) H.room fun hne j hj => ?_, Function.update_self ..,
    rfl, hnext, fun pos hpos => ?_, fun block hne => set_content_other hne⟩
  · -- the copy takes over the pointers
    rw [← H.pointer n (Nat.le_refl n) hne j hj]
    rw [pointers, if_neg hne] at hpointers
    have hagree : ByteImage.AgreeBelow (off + 1) image (d.content (addr n)) := himage
    exact hagree.read_eq (by omega)
  · have hbyte := hexact pos (Nat.le_of_lt hpos)
    have hend := hlast.lt
    refine byteAt_update hfresh (hbyte.index_le (by omega)) fun hpos' => himage _ ?_
    -- a byte of the last block lies before byte `size`
    have hle := hbyte.off_eq
    have hle' := hlast.off_eq
    rw [hpos'] at hle
    omega

/-- A list whose last block is full. -/
theorem ctzExtends_append (H : CtzList d n addr) (hfresh : ∀ i ≤ n, addr i ≠ nblock)
    (hblock : d.Usable nblock) (hsize : size ≠ 0) (hn : n + 1 < 2 ^ 64)
    (hindex : ctzIndex d.blockSize (size - 1) = (n, off)) (hfull : off + 1 = d.blockSize)
    (hroom : Room 8 d.blockSize (n + 1)) (hnext : 8 * pointers (n + 1) < d.blockSize)
    (hexact : ∀ pos ≤ size, CtzExact d.blockSize pos) (allocs : List (Except Int Nat)) :
    CtzExtends d size addr nblock (ctzExtend (addr n) size (.ok nblock :: allocs) d) := by
  obtain ⟨image, hextend, himage⟩ :=
    ctzExtendTo_append H hfresh hblock hsize hn hindex hfull
  have hlast : Holds 8 d.blockSize n (size - 1) off := by
    have hlast := hexact (size - 1) (Nat.sub_le ..)
    rwa [CtzExact, hindex] at hlast
  have hstart := hlast.succ_start hfull
  rw [Nat.sub_add_cancel (Nat.pos_of_ne_zero hsize)] at hstart
  have hholds : Holds 8 d.blockSize (n + 1) size (8 * pointers (n + 1)) := by
    refine ⟨Nat.le_of_eq hstart.symm, ?_, by omega⟩
    rw [start, ← hstart]
    omega
  obtain ⟨hindex', hoff⟩ := (hexact size (Nat.le_refl _)).unique hholds
  refine ⟨8 * pointers (n + 1), _, Function.update addr (n + 1) nblock,
    ctzExtend_of_done hextend allocs, ?_⟩
  rw [hindex', hoff]
  refine ⟨H.update hfresh hblock (Nat.le_refl _) hroom fun _ => himage, Function.update_self ..,
    rfl, hholds, fun pos hpos => ?_, fun block hne => set_content_other hne⟩
  have hbyte := hexact pos (Nat.le_of_lt hpos)
  have hle : (ctzIndex d.blockSize pos).1 ≤ n := hbyte.index_le (by omega)
  exact byteAt_update hfresh hle fun hpos' => by omega

end

/-- **The extension of a list.** As long as `lfs_ctz_index` is exact for the bytes of the list,
`lfs_ctz_extend` extends it by one byte if and only if it is exact for that byte too and the byte
fits behind the pointers of a new block. -/
theorem ctzExtend_iff {d : CtzDisk} {addr : Nat → Nat} {size nblock : Nat}
    (allocs : List (Except Int Nat)) (hB : 16 < d.blockSize) (hsize : size < 2 ^ 64)
    (hblock : d.Usable nblock)
    (H : size ≠ 0 → CtzList d (ctzIndex d.blockSize (size - 1)).1 addr)
    (hfresh : size ≠ 0 → ∀ i ≤ (ctzIndex d.blockSize (size - 1)).1, addr i ≠ nblock)
    (hroom : Room 8 d.blockSize ((ctzIndex d.blockSize (size - 1)).1 + 1))
    (hexact : ∀ pos < size, CtzExact d.blockSize pos) :
    CtzExtends d size addr nblock (CtzDisk.ctzExtend
        (addr (ctzIndex d.blockSize (size - 1)).1) size (.ok nblock :: allocs) d) ↔
      CtzExact d.blockSize size ∧ (size ≠ 0 → NextRoom d.blockSize size) := by
  obtain ⟨n, off, hindex⟩ : ∃ n off, ctzIndex d.blockSize (size - 1) = (n, off) :=
    ⟨_, _, Prod.mk.eta.symm⟩
  rw [NextRoom]
  rw [hindex] at H hfresh hroom ⊢
  dsimp only at H hfresh hroom ⊢
  rcases Nat.eq_zero_or_pos size with rfl | hpos
  · have hzero : CtzExtends d 0 addr nblock
        (CtzDisk.ctzExtend (addr n) 0 (.ok nblock :: allocs) d) :=
      ctzExtends_zero hB hblock allocs
    refine ⟨fun _ => ⟨?_, fun h => absurd rfl h⟩, fun _ => hzero⟩
    obtain ⟨_, _, _, _, _, _, hoff, hholds, _⟩ := hzero
    rw [CtzExact, ← hoff]
    exact hholds
  · have hne : size ≠ 0 := Nat.ne_of_gt hpos
    have hlast : Holds 8 d.blockSize n (size - 1) off := by
      have hlast := hexact (size - 1) (by omega)
      rwa [CtzExact, hindex] at hlast
    have hlist := H hne
    have hoff : off < d.blockSize := hlast.off_lt (hlist.room n (Nat.le_refl n))
    have hn : n + 1 < 2 ^ 64 := by
      have := hlast.index_le_pos hB hlist.room
      omega
    constructor
    · rintro ⟨offset, d', addr', hextend, hlist', _, hoffset, hholds, _⟩
      refine ⟨by rw [CtzExact, ← hoffset]; exact hholds, fun _ hfull => ?_⟩
      obtain ⟨image, happend, _⟩ :=
        ctzExtendTo_append hlist (hfresh hne) hblock hne hn hindex hfull
      rw [ctzExtend_of_done happend] at hextend
      cases hextend
      exact hholds.off_lt (hlist'.room _ (Nat.le_refl _))
    · rintro ⟨hexact', hnext⟩
      have hall : ∀ pos ≤ size, CtzExact d.blockSize pos := fun pos hle =>
        (Nat.eq_or_lt_of_le hle).elim (fun heq => heq ▸ hexact') (hexact pos)
      by_cases hfull : off + 1 = d.blockSize
      · exact ctzExtends_append hlist (hfresh hne) hblock hne hn hindex hfull hroom
          (hnext hne hfull) hall allocs
      · exact ctzExtends_copy hlist (hfresh hne) hblock hne hindex (by omega) hall allocs

theorem skipDisk_usable (h : nblock < blockCount) (hcount : blockCount ≤ 2 ^ 64) :
    (CtzList.skipDisk blockSize blockCount).Usable nblock :=
  ⟨hcount, h, rfl, rfl, rfl⟩

/-- Byte 120 of a file in blocks of 64 bytes is the first one of its third block. -/
theorem ctzExtend_skipDisk :
    CtzExtends (CtzList.skipDisk 64 8) 120 id 5
      (CtzDisk.ctzExtend 1 120 [.ok 5] (CtzList.skipDisk 64 8)) := by
  have hindex : ctzIndex (CtzList.skipDisk 64 8).blockSize (120 - 1) = (1, 63) := by decide +kernel
  have hroom : Room 8 64 2 := Room.of_lt (show 2 < 2 ^ 2 by decide) (by decide)
  have hwide : ∀ i ≤ 2, 8 * (ones i + 2) + 16 ≤ 64 := by decide +kernel
  have hend : 120 < start 8 64 (2 + 1) := by decide +kernel
  have hexact : ∀ pos ≤ 120, CtzExact 64 pos := fun pos hpos =>
    ctzExact_of_lt (by decide) hroom hwide (by decide) (hpos.trans_lt hend) (by omega)
  have hnext : NextRoom 64 120 := by
    unfold NextRoom
    decide +kernel
  have hblock : (CtzList.skipDisk 64 8).Usable 5 := skipDisk_usable (by decide) (by decide)
  have hfresh : ∀ i ≤ (ctzIndex (CtzList.skipDisk 64 8).blockSize (120 - 1)).1, id i ≠ 5 := by
    rw [hindex]
    decide
  have h := (ctzExtend_iff [] (show 16 < 64 by decide) (show 120 < 2 ^ 64 by decide) hblock
    (fun _ => skipDisk_small 120 (by decide +kernel)) (fun _ => hfresh)
    (by rw [hindex]; exact hroom) fun pos hpos => hexact pos (Nat.le_of_lt hpos)).mpr
    ⟨hexact 120 (Nat.le_refl _), fun _ => hnext⟩
  rwa [hindex] at h

/-- The last byte of block `2 ^ 31 - 1`, in blocks of 4096 bytes, and the byte behind it: the index
`2 ^ 31` comes back from `lfs_ctz_index` as a negative `int`. -/
theorem ctzExtend_truncated :
    ¬ ∀ (d : CtzDisk) (addr : Nat → Nat) (size nblock : Nat), 16 < d.blockSize → size < 2 ^ 64 →
      d.Usable nblock → (size ≠ 0 → CtzList d (ctzIndex d.blockSize (size - 1)).1 addr) →
      (size ≠ 0 → ∀ i ≤ (ctzIndex d.blockSize (size - 1)).1, addr i ≠ nblock) →
      Room 8 d.blockSize ((ctzIndex d.blockSize (size - 1)).1 + 1) →
      CtzExtends d size addr nblock (CtzDisk.ctzExtend
        (addr (ctzIndex d.blockSize (size - 1)).1) size [.ok nblock] d) := by
  intro h
  have hlast : ctzIndex (CtzList.skipDisk 4096 (2 ^ 40)).blockSize (8761733284104 - 1) =
      (2147483647, 4095) := by decide +kernel
  have hindex : (ctzIndex (CtzList.skipDisk 4096 (2 ^ 40)).blockSize 8761733284104).1 =
      2 ^ 64 - 2 ^ 31 := by decide +kernel
  have hroom : Room 8 4096 (2147483647 + 1) :=
    Room.of_lt (show 2147483647 + 1 < 2 ^ 32 by decide) (by decide)
  have hlist : CtzList (CtzList.skipDisk 4096 (2 ^ 40)) 2147483647 id :=
    CtzList.skipDisk_list (by decide) (by decide) (hroom.mono (by decide))
  obtain ⟨_, _, _, _, _, _, _, hholds, _⟩ := h (CtzList.skipDisk 4096 (2 ^ 40)) id 8761733284104
    (2 ^ 32) (show 16 < 4096 by decide) (by decide) (skipDisk_usable (by decide) (by decide))
    (fun _ => by rw [hlast]; exact hlist)
    (fun _ i hi => by rw [hlast] at hi; exact fun heq => by simp only [id] at heq; omega)
    (by rw [hlast]; exact hroom)
  rw [hindex] at hholds
  -- byte `size` is the first one of block `2 ^ 31`
  have hstart : start 8 4096 (2147483647 + 1) = 8761733284104 := by
    rw [start_succ (hroom.mono (by decide)) (by decide),
      show ones 2147483647 = 31 by decide +kernel]
  have hnext : start 8 4096 (2147483647 + 1) < start 8 4096 (2147483647 + 1 + 1) := by
    have hpointers : pointers (2147483647 + 1) = 32 := by decide +kernel
    rw [start_add_one 8 4096 (2147483647 + 1), hpointers]
    exact Nat.lt_add_of_pos_right (by decide)
  have hmono : start 8 4096 (2147483647 + 1 + 1) ≤ start 8 4096 (2 ^ 64 - 2 ^ 31) :=
    start_mono (by decide)
  have hle : start 8 4096 (2 ^ 64 - 2 ^ 31) ≤ 8761733284104 := hholds.le
  omega

end LittleFs
