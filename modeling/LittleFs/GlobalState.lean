import LittleFs.Lib.Run
import LittleFs.Tag

/-! The global state `lfs_gstate_t`: one tag that packs the orphan count (size field), the id of
a pending move (id field, under the type `LFS_TYPE_DELETE`) and a derived flag for orphans in
bit 31, together with the pair the move is pending in.

`lfs_gstate_hasmove` reads the type with `lfs_tag_type1`, which keeps bit 31, so the orphan flag
reads as a move in the pair `{0, 0}`. -/

namespace LittleFs

/-! ## Blocks and pairs -/

/-- `lfs_block_t[2]`. -/
abbrev BlockPair := Nat × Nat

/-- `LFS_BLOCK_NULL`. -/
def blockNull : Nat := 2 ^ 64 - 1

/-- `LFS_BLOCK_INLINE`. -/
def blockInline : Nat := 2 ^ 64 - 2

def pairIsnull (pair : BlockPair) : Bool := pair.1 == blockNull || pair.2 == blockNull

/-- `lfs_pair_cmp`: `false` (zero) when the pairs share a block. -/
def pairCmp (paira pairb : BlockPair) : Bool :=
  !(paira.1 == pairb.1 || paira.2 == pairb.2 || paira.1 == pairb.2 || paira.2 == pairb.1)

def pairSync (paira pairb : BlockPair) : Bool :=
  (paira.1 == pairb.1 && paira.2 == pairb.2) || (paira.1 == pairb.2 && paira.2 == pairb.1)

/-- The two pairs have a block in common. -/
def SharesBlock (paira pairb : BlockPair) : Prop :=
  paira.1 = pairb.1 ∨ paira.2 = pairb.2 ∨ paira.1 = pairb.2 ∨ paira.2 = pairb.1

theorem pairCmp_eq_false : pairCmp paira pairb = false ↔ SharesBlock paira pairb := by
  simp only [pairCmp, SharesBlock, Bool.not_eq_false', Bool.or_eq_true, beq_iff_eq, or_assoc]

theorem pairSync_cases (h : pairSync paira pairb = true) : paira = pairb ∨ paira = pairb.swap := by
  obtain ⟨a, b⟩ := paira
  obtain ⟨c, d⟩ := pairb
  simpa only [pairSync, Bool.or_eq_true, Bool.and_eq_true, beq_iff_eq, Prod.swap_prod_mk,
    Prod.mk.injEq] using h

theorem pairSync_refl (pair : BlockPair) : pairSync pair pair = true := by
  simp only [pairSync, beq_self_eq_true, Bool.and_self, Bool.true_or]

theorem sharesBlock_of_pairSync (h : pairSync paira pairb = true) : SharesBlock paira pairb := by
  rcases pairSync_cases h with rfl | rfl
  · exact .inl rfl
  · exact .inr (.inr (.inl rfl))

theorem SharesBlock.symm (h : SharesBlock paira pairb) : SharesBlock pairb paira := by
  rcases h with h | h | h | h
  · exact .inl h.symm
  · exact .inr (.inl h.symm)
  · exact .inr (.inr (.inr h.symm))
  · exact .inr (.inr (.inl h.symm))

theorem sharesBlock_sync_left (h : pairSync paira pairb = true) :
    SharesBlock paira pairc ↔ SharesBlock pairb pairc := by
  rcases pairSync_cases h with rfl | rfl
  · exact Iff.rfl
  · simp only [SharesBlock, Prod.fst_swap, Prod.snd_swap]
    tauto

/-! ## The global state -/

structure GState where
  tag : Tag := 0#32
  pair : BlockPair := (0, 0)
  deriving DecidableEq, Repr

def gstateIszero (a : GState) : Bool := a.tag == 0#32 && a.pair.1 == 0 && a.pair.2 == 0
def gstateHasorphans (a : GState) : Bool := tagSize a.tag != 0
def gstateHasmove (a : GState) : Bool := tagType1 a.tag != 0

def gstateHasmovehere (a : GState) (pair : BlockPair) : Bool :=
  tagType1 a.tag != 0 && !pairCmp a.pair pair

/-- `lfs_fs_preporphans` on `lfs->gstate`; `none` when its assertion fails. -/
def fsPreporphans (g : GState) (orphans : BitVec 8) : Option GState :=
  if tagSize g.tag > 0 ∨ 0 ≤ orphans.toInt then
    let tag := g.tag + orphans.signExtend 32
    some { g with
      tag := (tag &&& ~~~ mkTag typeHasOrphans 0 0) |||
        ((if tagSize tag != 0 then 1#32 else 0#32) <<< 31) }
  else none

/-- `lfs_fs_prepmove` on `lfs->gstate`. -/
def fsPrepmove (g : GState) (id : BitVec 16) (pair : BlockPair) : GState where
  tag := (g.tag &&& ~~~ mkTag typeMovestate 0x3ff 0) |||
    (if id != 0x3ff#16 then mkTag typeDelete id.toNat 0 else 0#32)
  pair := if id != 0x3ff#16 then pair else (0, 0)

inductive GstateCall where
  | preporphans (orphans : BitVec 8)
  | prepmove (id : BitVec 16) (pair : BlockPair)
  deriving DecidableEq, Repr

def GState.call (g : GState) : GstateCall → Option GState
  | .preporphans orphans => fsPreporphans g orphans
  | .prepmove id pair => some (fsPrepmove g id pair)

/-! ## What the global state stands for -/

/-- The running total of `lfs_fs_preporphans` and the arguments of the most recent
`lfs_fs_prepmove`, unless it had the id `0x3ff`. -/
structure Pending where
  orphans : Int := 0
  move : Option (BitVec 16 × BlockPair) := none

/-- A call, possible as long as the total stays between 0 and `0x3ff`. -/
def Pending.call (s : Pending) : GstateCall → Option Pending
  | .preporphans orphans =>
    let total := s.orphans + orphans.toInt
    if 0 ≤ total ∧ total ≤ 0x3ff then some { s with orphans := total } else none
  | .prepmove id pair => some { s with move := if id = 0x3ff#16 then none else some (id, pair) }

/-- Bit 31 of the tag. -/
def Pending.orphanBit (s : Pending) : Nat := if 0 < s.orphans then 1 else 0

/-- The bits 30 to 10 of the tag. -/
def Pending.moveBits (s : Pending) : Nat :=
  match s.move with
  | none => 0
  | some (id, _) => typeDelete * 2 ^ 10 + id.toNat % 2 ^ 10

def Pending.movePair (s : Pending) : BlockPair :=
  match s.move with
  | none => (0, 0)
  | some (_, pair) => pair

/-- How `g` stores `s`. -/
structure GState.Stores (g : GState) (s : Pending) : Prop where
  nonneg : 0 ≤ s.orphans
  le : s.orphans ≤ 0x3ff
  tag : g.tag.toNat = s.orphanBit * 2 ^ 31 + s.moveBits * 2 ^ 10 + s.orphans.toNat
  pair : g.pair = s.movePair

theorem Pending.orphanBit_le (s : Pending) : s.orphanBit ≤ 1 := by
  simp only [orphanBit]
  split <;> omega

theorem Pending.moveBits_lt (s : Pending) : s.moveBits < 2 ^ 21 := by
  obtain ⟨orphans, _ | ⟨id, pair⟩⟩ := s
  · exact Nat.two_pow_pos 21
  · simp only [moveBits, typeDelete]
    omega

theorem Pending.moveBits_ge {s : Pending} (h : s.move.isSome) : 2 ^ 20 ≤ s.moveBits := by
  obtain ⟨orphans, _ | ⟨id, pair⟩⟩ := s
  · cases h
  · simp only [moveBits, typeDelete]
    omega

theorem Pending.moveBits_none {s : Pending} (h : s.move = none) : s.moveBits = 0 := by
  simp only [moveBits, h]

/-- The type `LFS_TYPE_DELETE` already has every bit that an id above `0x3ff` would spill into. -/
theorem mkTag_delete_toNat (id : BitVec 16) :
    (mkTag typeDelete id.toNat 0).toNat = (typeDelete * 2 ^ 10 + id.toNat % 2 ^ 10) * 2 ^ 10 := by
  have hid := id.isLt
  have hspill : ∀ high : Fin (2 ^ 6), typeDelete ||| high.val = typeDelete := by decide
  have hhigh := hspill ⟨id.toNat / 2 ^ 10, by omega⟩
  have hlow : id.toNat % 2 ^ 10 * 2 ^ 10 < 2 ^ 20 := by omega
  have htype : (BitVec.ofNat 32 typeDelete <<< 20).toNat = typeDelete * 2 ^ 20 := rfl
  have hfield : (BitVec.ofNat 32 id.toNat <<< 10).toNat =
      id.toNat / 2 ^ 10 * 2 ^ 20 + id.toNat % 2 ^ 10 * 2 ^ 10 := by
    rw [BitVec.toNat_shiftLeft, BitVec.toNat_ofNat, Nat.shiftLeft_eq]
    omega
  have hzero : (BitVec.ofNat 32 0).toNat = 0 := rfl
  rw [mkTag, BitVec.toNat_or, BitVec.toNat_or, htype, hfield, hzero, Nat.or_zero,
    ← BitField.or_of_lt hlow, ← Nat.or_assoc, ← Nat.shiftLeft_eq typeDelete,
    ← Nat.shiftLeft_eq (id.toNat / 2 ^ 10), ← Nat.shiftLeft_or_distrib, hhigh, Nat.shiftLeft_eq,
    BitField.or_of_lt hlow]
  omega

theorem stores_zero : GState.Stores {} {} := ⟨by decide, by decide, rfl, rfl⟩

variable {g : GState} {s s' : Pending}

theorem GState.Stores.tagSize_eq (H : g.Stores s) : tagSize g.tag = s.orphans.toNat := by
  have hle := H.le
  rw [LittleFs.tagSize_eq, H.tag]
  omega

theorem GState.Stores.tagType1_eq_zero (H : g.Stores s) :
    tagType1 g.tag = 0 ↔ s.orphans ≤ 0 ∧ s.move = none := by
  have hlt := s.moveBits_lt
  have hle := H.le
  rw [tagType1_eq, H.tag]
  rcases hm : s.move with _ | m
  · rw [s.moveBits_none hm, Pending.orphanBit]
    simp only [and_true]
    split <;> omega
  · have hge := s.moveBits_ge (by simp [hm])
    simp only [reduceCtorEq, and_false, iff_false]
    omega

theorem GState.Stores.preporphans (H : g.Stores s)
    (hcall : s.call (.preporphans orphans) = some s') :
    ∃ g', fsPreporphans g orphans = some g' ∧ g'.Stores s' := by
  simp only [Pending.call, Option.ite_none_right_eq_some, Option.some.injEq] at hcall
  obtain ⟨⟨hnonneg, hle⟩, rfl⟩ := hcall
  have hbits := s.moveBits_lt
  have hsize := H.tagSize_eq
  have hassert : tagSize g.tag > 0 ∨ 0 ≤ orphans.toInt := by
    have := H.nonneg
    omega
  have hsum : (g.tag + orphans.signExtend 32).toNat =
      s.orphanBit * 2 ^ 31 + s.moveBits * 2 ^ 10 + (s.orphans + orphans.toInt).toNat := by
    have hext : (orphans.signExtend 32).toInt = orphans.toInt :=
      BitVec.toInt_signExtend_of_le (by decide)
    have hext' := BitVec.toInt_eq_toNat_cond (orphans.signExtend 32)
    have htag := H.tag
    have hlt := (orphans.signExtend 32).isLt
    have hnonneg' := H.nonneg
    have hbit := s.orphanBit_le
    rw [BitVec.toNat_add]
    split at hext' <;> omega
  refine ⟨_, if_pos hassert, hnonneg, hle, ?_, H.pair⟩
  have hclear : ((g.tag + orphans.signExtend 32) &&& ~~~ mkTag typeHasOrphans 0 0).toNat =
      s.moveBits * 2 ^ 10 + (s.orphans + orphans.toInt).toNat := by
    have hmask := BitField.and_mask (g.tag + orphans.signExtend 32).toNat 31 1
    rw [BitField.toNat_and_not,
      show (mkTag typeHasOrphans 0 0).toNat = (2 ^ 1 - 1) * 2 ^ 31 from rfl,
      hmask, hsum]
    have hbit := s.orphanBit_le
    omega
  have hflag : (tagSize (g.tag + orphans.signExtend 32) != 0) =
      decide (0 < s.orphans + orphans.toInt) := by
    rw [LittleFs.tagSize_eq, hsum, Bool.eq_iff_iff, bne_iff_ne, decide_eq_true_iff]
    omega
  have hmove : Pending.moveBits { s with orphans := s.orphans + orphans.toInt } = s.moveBits := rfl
  have hlow : s.moveBits * 2 ^ 10 + (s.orphans + orphans.toInt).toNat < 2 ^ 31 := by omega
  simp only [hflag, BitVec.toNat_or, hclear, hmove, Pending.orphanBit]
  by_cases hpos : 0 < s.orphans + orphans.toInt
  · rw [decide_eq_true hpos, if_pos rfl, if_pos hpos, Nat.or_comm,
      show (1#32 <<< 31).toNat = 1 * 2 ^ 31 from rfl, BitField.or_of_lt hlow, Nat.add_assoc]
  · rw [decide_eq_false hpos, if_neg hpos]
    simp

theorem GState.Stores.prepmove {id : BitVec 16} {pair : BlockPair} (H : g.Stores s)
    (hcall : s.call (.prepmove id pair) = some s') :
    (fsPrepmove g id pair).Stores s' := by
  simp only [Pending.call, Option.some.injEq] at hcall
  subst hcall
  refine ⟨H.nonneg, H.le, ?_, ?_⟩
  · have hle := H.le
    have hclear : (g.tag &&& ~~~ mkTag typeMovestate 0x3ff 0).toNat =
        s.orphanBit * 2 ^ 31 + s.orphans.toNat := by
      have hmask := BitField.and_mask g.tag.toNat 10 21
      have hbits := s.moveBits_lt
      rw [BitField.toNat_and_not,
        show (mkTag typeMovestate 0x3ff 0).toNat = (2 ^ 21 - 1) * 2 ^ 10 from rfl, hmask, H.tag]
      omega
    by_cases hid : id = 0x3ff#16
    · subst hid
      simpa [fsPrepmove, Pending.moveBits, Pending.orphanBit] using hclear
    · have hbits : typeDelete * 2 ^ 10 + id.toNat % 2 ^ 10 < 2 ^ 21 := by
        simp only [typeDelete]
        omega
      have hlow : s.orphans.toNat < 2 ^ 10 := by omega
      simp only [fsPrepmove, bne_iff_ne, ne_eq, hid, not_false_eq_true, if_true, if_false,
        BitVec.toNat_or, hclear, mkTag_delete_toNat, Pending.orphanBit]
      exact BitField.or_mid hlow hbits
  · by_cases hid : id = 0x3ff#16 <;> simp [fsPrepmove, Pending.movePair, hid]

theorem GState.Stores.call (H : g.Stores s) (hcall : s.call c = some s') :
    ∃ g', g.call c = some g' ∧ g'.Stores s' := by
  cases c with
  | preporphans orphans => exact H.preporphans hcall
  | prepmove id pair => exact ⟨_, rfl, H.prepmove hcall⟩

/-! ## The three predicates -/

theorem GState.Stores.hasorphans (H : g.Stores s) :
    gstateHasorphans g = true ↔ 0 < s.orphans := by
  rw [gstateHasorphans, bne_iff_ne, H.tagSize_eq]
  have hnonneg := H.nonneg
  omega

/-- A positive orphan count reads as a move. -/
theorem GState.Stores.hasmove (H : g.Stores s) :
    gstateHasmove g = true ↔ 0 < s.orphans ∨ s.move.isSome := by
  rw [gstateHasmove, bne_iff_ne, ne_eq, H.tagType1_eq_zero, not_and_or, Option.isSome_iff_ne_none,
    Int.not_le]

/-- With no move recorded, the orphan flag alone makes every pair with a block 0 the place of a
pending move. -/
theorem GState.Stores.hasmovehere (H : g.Stores s) (pair : BlockPair) :
    gstateHasmovehere g pair = true ↔
      (0 < s.orphans ∨ s.move.isSome) ∧ SharesBlock s.movePair pair := by
  have hmove := H.hasmove
  rw [gstateHasmove] at hmove
  rw [gstateHasmovehere, Bool.and_eq_true, hmove, Bool.not_eq_true', pairCmp_eq_false, H.pair]

/-- What the three predicates should say about `p` when `g` stores `s`. -/
structure StatesIndependent (g : GState) (s : Pending) (p : BlockPair) : Prop where
  hasmove : gstateHasmove g = true ↔ s.move.isSome
  hasmovehere : gstateHasmovehere g p = true ↔ ∃ m ∈ s.move, SharesBlock m.2 p
  hasorphans : gstateHasorphans g = true ↔ 0 < s.orphans

theorem GState.Stores.independent_iff (H : g.Stores s) (p : BlockPair) :
    StatesIndependent g s p ↔ s.orphans = 0 ∨ s.move.isSome := by
  have hnonneg := H.nonneg
  refine ⟨fun h => ?_, fun h => ⟨?_, ?_, H.hasorphans⟩⟩
  · have hmove := H.hasmove.symm.trans h.hasmove
    by_cases hs : s.move.isSome
    · exact .inr hs
    · have := mt (fun hpos => hmove.mp (.inl hpos)) hs
      exact .inl (by omega)
  · rw [H.hasmove]
    exact ⟨fun hm => hm.elim (fun hpos => h.resolve_left (by omega)) id, .inr⟩
  · rw [H.hasmovehere]
    rcases hm : s.move with _ | m
    · have hzero : s.orphans = 0 := by simpa [hm] using h
      simp [hzero]
    · simp [Pending.movePair, hm]

/-- **Exact independence.** After any calls whose running total stays in range, the predicates
tell orphans and moves apart exactly when the total is zero or a move is recorded. -/
theorem gstate_independent_iff (calls : List GstateCall) (s : Pending)
    (h : Run.exec Pending.call {} calls = some s) (p : BlockPair) :
    ∃ g, Run.exec GState.call {} calls = some g ∧
      (StatesIndependent g s p ↔ s.orphans = 0 ∨ s.move.isSome) := by
  obtain ⟨g, hg, H⟩ := Run.exec_simulation (fun _ _ _ _ H hcall => H.call hcall) h stores_zero
  exact ⟨g, hg, H.independent_iff p⟩

theorem gstate_independent_iff_moved :
    ∃ g, Run.exec GState.call {} [.preporphans 1#8, .prepmove 3#16 (8, 9)] = some g ∧
      (StatesIndependent g ⟨1, some (3#16, (8, 9))⟩ (9, 10) ↔
        (1 : Int) = 0 ∨ (some (3#16, ((8, 9) : BlockPair))).isSome) :=
  gstate_independent_iff [.preporphans 1#8, .prepmove 3#16 (8, 9)] ⟨1, some (3#16, (8, 9))⟩
    (by rfl) (9, 10)

/-- One orphan and no move: `lfs_gstate_hasmove` holds. -/
theorem gstate_independent_fails :
    ¬ ∀ calls s, Run.exec Pending.call {} calls = some s → ∀ p : BlockPair,
      ∃ g, Run.exec GState.call {} calls = some g ∧ StatesIndependent g s p := by
  intro h
  obtain ⟨g, hg, hind⟩ := h [.preporphans 1#8] ⟨1, none⟩ rfl (2, 3)
  have hmove : gstateHasmove g = true := by
    obtain rfl : g = ⟨0x80000001#32, (0, 0)⟩ := by
      rw [show Run.exec GState.call {} [.preporphans 1#8] =
        some ⟨0x80000001#32, (0, 0)⟩ from rfl] at hg
      exact (Option.some.inj hg).symm
    rfl
  exact absurd (hind.hasmove.mp hmove) (by simp)

end LittleFs
