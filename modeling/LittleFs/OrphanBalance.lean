import LittleFs.OrphanCount

/-! Counts of orphans: the one in the global state, the orphans on disk, those that
`lfs_fs_deorphan` has still to fix, and what the rest of an operation adds to either side. -/

namespace LittleFs

/-! ## Counting -/

/-- The global state counts `n` orphans. -/
def GState.Counts (g : GState) (n : Nat) : Prop := ∃ move, g.Stores ⟨n, move⟩

namespace GState.Counts

variable {g g' : GState}

theorem tagSize_eq (H : g.Counts n) : tagSize g.tag = n := by
  obtain ⟨move, H⟩ := H
  exact H.tagSize_eq

theorem le (H : g.Counts n) : n ≤ 0x3ff := by
  obtain ⟨move, H⟩ := H
  have hle := H.le
  simp only at hle
  omega

theorem hasorphans (H : g.Counts n) : gstateHasorphans g = true ↔ 0 < n := by
  obtain ⟨move, H⟩ := H
  rw [H.hasorphans]
  exact Int.natCast_pos

theorem preporphans {m : Nat} (H : g.Counts n) (h : fsPreporphans g orphans = some g')
    (hm : (m : Int) = n + orphans.toInt) (hle : m ≤ 0x3ff) : g'.Counts m := by
  obtain ⟨move, H⟩ := H
  have hcall : Pending.call ⟨n, move⟩ (.preporphans orphans) = some ⟨m, move⟩ := by
    simp only [Pending.call, ← hm]
    rw [if_pos ⟨Int.natCast_nonneg m, by omega⟩]
  obtain ⟨g'', hg, H'⟩ := H.preporphans hcall
  rw [h] at hg
  cases hg
  exact ⟨move, H'⟩

theorem prepmove (H : g.Counts n) (id : BitVec 16) (pair : BlockPair) :
    (fsPrepmove g id pair).Counts n := by
  obtain ⟨move, H⟩ := H
  exact ⟨_, H.prepmove rfl⟩

theorem fixup (H : g.Counts n) (pair : BlockPair) : (fixupGstate g pair).Counts n := by
  rw [fixupGstate]
  split
  · exact H.prepmove _ _
  · exact H

theorem zero : GState.Counts {} 0 := ⟨none, stores_zero⟩

theorem stored_toNat (H : g.Counts n) : ∃ move, g.Stores ⟨n, move⟩ ∧
    g.stored.tag.toNat =
      Pending.orphanBit ⟨n, move⟩ * 2 ^ 31 + Pending.moveBits ⟨n, move⟩ * 2 ^ 10 := by
  obtain ⟨move, H⟩ := H
  have hbits := Pending.moveBits_lt ⟨n, move⟩
  have hle := H.le
  have hmask := BitField.and_mask g.tag.toNat 0 10
  refine ⟨move, H, ?_⟩
  rw [GState.stored, BitField.toNat_and_not,
    show (mkTag 0 0 0x3ff).toNat = (2 ^ 10 - 1) * 2 ^ 0 from rfl, hmask, H.tag]
  simp only at hle ⊢
  omega

/-- The count that a mount finds: one if the flag is set. -/
theorem mount (H : g.Counts n) :
    GState.Counts { g.stored with
      tag := g.stored.tag + if tagIsValid g.stored.tag then 0#32 else 1#32 }
      (if tagIsValid g.stored.tag = true then 0 else 1) := by
  obtain ⟨move, H, hstored⟩ := H.stored_toNat
  have hbits := Pending.moveBits_lt ⟨n, move⟩
  have hbit := Pending.orphanBit_le ⟨n, move⟩
  have hvalid : tagIsValid g.stored.tag = true ↔ Pending.orphanBit ⟨n, move⟩ = 0 := by
    rw [tagIsValid_iff, hstored]
    omega
  cases hv : tagIsValid g.stored.tag with
  | true =>
    have hsum : (g.stored.tag + 0#32).toNat = Pending.moveBits ⟨n, move⟩ * 2 ^ 10 := by
      rw [BitVec.add_zero, hstored, hvalid.mp hv]
      omega
    refine ⟨move, Int.natCast_nonneg _, by simp, ?_, H.pair⟩
    simp only [if_true, hsum]
    simp [Pending.orphanBit, Pending.moveBits]
  | false =>
    have hone : Pending.orphanBit ⟨n, move⟩ = 1 := by
      have := mt hvalid.mpr (by simp [hv])
      omega
    have hsum : (g.stored.tag + 1#32).toNat =
        2 ^ 31 + Pending.moveBits ⟨n, move⟩ * 2 ^ 10 + 1 := by
      rw [BitVec.toNat_add, hstored, hone, BitVec.toNat_ofNat]
      omega
    refine ⟨move, Int.natCast_nonneg _, by simp, ?_, H.pair⟩
    simp only [Bool.false_eq_true, if_false, hsum]
    simp [Pending.orphanBit, Pending.moveBits]

/-- A mount takes over what is on disk. -/
theorem mount_stored (H : g.Counts n) :
    GState.stored { g.stored with
      tag := g.stored.tag + if tagIsValid g.stored.tag then 0#32 else 1#32 } = g.stored := by
  obtain ⟨move, -, hstored⟩ := H.stored_toNat
  have hbits := Pending.moveBits_lt ⟨n, move⟩
  have hbit := Pending.orphanBit_le ⟨n, move⟩
  have hone : (if tagIsValid g.stored.tag then 0#32 else 1#32).toNat ≤ 1 := by
    split <;> decide
  generalize (if tagIsValid g.stored.tag then 0#32 else 1#32) = flag at hone ⊢
  have hmask := BitField.and_mask (g.stored.tag + flag).toNat 0 10
  have htag : (g.stored.tag + flag) &&& ~~~ mkTag 0 0 0x3ff = g.stored.tag := by
    refine BitVec.eq_of_toNat_eq ?_
    rw [BitField.toNat_and_not, show (mkTag 0 0 0x3ff).toNat = (2 ^ 10 - 1) * 2 ^ 0 from rfl, hmask,
      BitVec.toNat_add, hstored]
    omega
  rw [GState.stored, htag]

theorem stored_valid (H : g.Counts 0) : tagIsValid g.stored.tag = true := by
  obtain ⟨move, H, hstored⟩ := H.stored_toNat
  have hbits := Pending.moveBits_lt ⟨(0 : Nat), move⟩
  have hbit : Pending.orphanBit ⟨(0 : Nat), move⟩ = 0 := rfl
  rw [tagIsValid_iff, hstored, hbit]
  omega

end GState.Counts

theorem preporphans_pos {g g' : GState} (h : fsPreporphans g (-1#8) = some g') :
    0 < tagSize g.tag := by
  rw [fsPreporphans] at h
  by_contra hsize
  rw [if_neg (by simpa using hsize)] at h
  cases h

/-- `0 - lfs_min(..)`, back in 8 bits. -/
theorem toInt_sub_ofNat (h : k < 128) : (0#8 - BitVec.ofNat 8 k).toInt = -(k : Int) := by
  rw [BitVec.toInt_eq_toNat_cond, BitVec.toNat_sub, BitVec.toNat_ofNat, BitVec.toNat_ofNat]
  split <;> omega

/-! ## Orphans on disk -/

theorem badHeads_eq (heads : List Head) :
    badHeads heads = heads.count .half + heads.count .orphan := by
  induction heads with
  | nil => rfl
  | cons head heads ih =>
    rw [badHeads, List.countP_cons, List.count_cons, List.count_cons]
    rw [badHeads] at ih
    cases head <;> simp [Head.bad] <;> omega

/-- The list around one of its heads. -/
theorem split_head {heads : List Head} (h : heads[i]? = some head) :
    ∃ front back, heads = front ++ head :: back ∧ front.length = i := by
  obtain ⟨hlt, rfl⟩ := List.getElem?_eq_some_iff.mp h
  exact ⟨heads.take i, heads.drop (i + 1), by simp, by simp; omega⟩

theorem badHeads_append (front back : List Head) :
    badHeads (front ++ back) = badHeads front + badHeads back := List.countP_append

theorem badHeads_cons (head : Head) (heads : List Head) :
    badHeads (head :: heads) = badHeads heads + head.bad.toNat := by
  cases head
  · exact List.countP_cons_of_neg (by decide)
  · exact List.countP_cons_of_pos rfl
  · exact List.countP_cons_of_pos rfl

theorem badHeads_set {heads : List Head} (h : heads[i]? = some old) (new : Head) :
    badHeads (heads.set i new) + old.bad.toNat = badHeads heads + new.bad.toNat := by
  obtain ⟨front, back, rfl, rfl⟩ := split_head h
  simp only [List.set_append_right _ _ (Nat.le_refl _), Nat.sub_self, List.set_cons_zero,
    badHeads_append, badHeads_cons]
  omega

theorem badHeads_eraseIdx {heads : List Head} (h : heads[i]? = some old) :
    badHeads (heads.eraseIdx i) + old.bad.toNat = badHeads heads := by
  obtain ⟨front, back, rfl, rfl⟩ := split_head h
  simp only [List.eraseIdx_append_of_length_le (Nat.le_refl _), Nat.sub_self,
    List.eraseIdx_cons_zero, badHeads_append, badHeads_cons]
  omega

/-- How many orphans a commit adds at least. -/
def Effect.gain : Effect → Int
  | .orphan _ | .insert _ .orphan => 1
  | .sync _ | .unlink _ => -1
  | _ => 0

theorem badHeads_insert (heads : List Head) (i : Nat) (head : Head) :
    badHeads (Effect.apply heads (.insert i head)) = badHeads heads + head.bad.toNat := by
  rw [Effect.apply, badHeads_append, badHeads_cons, ← Nat.add_assoc, ← badHeads_append,
    List.take_append_drop]

theorem badHeads_set_le (heads : List Head) (i : Nat) (new : Head) :
    badHeads heads + new.bad.toNat ≤ badHeads (heads.set i new) + 1 := by
  have hnew := new.bad.toNat_le
  rcases h : heads[i]? with _ | old
  · rw [List.set_eq_of_length_le (List.getElem?_eq_none_iff.mp h)]
    omega
  · have := badHeads_set h new
    have hold := old.bad.toNat_le
    omega

theorem Effect.gain_le (heads : List Head) {e : Effect} (he : ∀ i, e ≠ .orphan i) :
    badHeads heads + e.gain ≤ badHeads (e.apply heads) := by
  cases e with
  | keep => simp [gain, apply]
  | orphan i => exact absurd rfl (he i)
  | desync i =>
    have := badHeads_set_le heads i .half
    simp only [gain, apply, Head.bad, Bool.toNat_true] at this ⊢
    omega
  | sync i =>
    have := badHeads_set_le heads i .synced
    simp only [gain, apply, Head.bad, Bool.toNat_false] at this ⊢
    omega
  | unlink i =>
    simp only [gain, apply]
    rcases h : heads[i]? with _ | old
    · rw [List.eraseIdx_of_length_le (List.getElem?_eq_none_iff.mp h)]
      omega
    · have := badHeads_eraseIdx h
      have hold := old.bad.toNat_le
      omega
  | insert i head =>
    rw [badHeads_insert]
    cases head <;> simp only [gain, Head.bad, Bool.toNat_true, Bool.toNat_false] <;> omega

theorem badHeads_orphan_pos {heads : List Head} (h : heads[i]? = some old) :
    0 < badHeads (Effect.apply heads (.orphan i)) := by
  refine List.countP_pos_iff.mpr ⟨.orphan, List.mem_iff_getElem?.mpr ⟨i, ?_⟩, rfl⟩
  exact List.getElem?_set_self (List.getElem?_eq_some_iff.mp h).1

/-! ## What the loop has still to fix -/

def OrphanScan.pending (scan : OrphanScan) (heads : List Head) : Nat :=
  match scan.pass with
  | .half => (heads.drop scan.i).count .half + heads.count .orphan
  | .full => (heads.drop scan.i).count .orphan

/-- What the pass is after. -/
def ScanPass.target : ScanPass → Head
  | .half => .half
  | .full => .orphan

section

variable {scan : OrphanScan} {heads : List Head}

theorem OrphanScan.pending_start (powerloss : Bool) (found : BitVec 8) :
    OrphanScan.pending { powerloss, found } heads = badHeads heads := by
  rw [badHeads_eq]
  rfl

theorem drop_of_none (h : heads[i]? = none) : heads.drop i = [] :=
  List.drop_eq_nil_iff.mpr (List.getElem?_eq_none_iff.mp h)

theorem OrphanScan.pending_pass (hpass : scan.pass = .half) (h : heads[scan.i]? = none) :
    OrphanScan.pending { scan with pass := .full, i := 0 } heads = scan.pending heads := by
  simp only [OrphanScan.pending, hpass, drop_of_none h, List.drop_zero, List.count_nil,
    Nat.zero_add]

theorem OrphanScan.pending_end (hpass : scan.pass = .full) (h : heads[scan.i]? = none) :
    scan.pending heads = 0 := by
  simp only [OrphanScan.pending, hpass, drop_of_none h, List.count_nil]

theorem OrphanScan.pending_next (h : heads[scan.i]? = some head) (hne : head ≠ scan.pass.target) :
    OrphanScan.pending { scan with i := scan.i + 1 } heads = scan.pending heads := by
  obtain ⟨hlt, hhead⟩ := List.getElem?_eq_some_iff.mp h
  have hdrop := List.drop_eq_getElem_cons hlt
  rw [hhead] at hdrop
  cases hpass : scan.pass with
  | half =>
    have hne : head ≠ .half := by rwa [hpass] at hne
    simp only [OrphanScan.pending, hpass, hdrop, List.count_cons_of_ne hne]
  | full =>
    have hne : head ≠ .orphan := by rwa [hpass] at hne
    simp only [OrphanScan.pending, hpass, hdrop, List.count_cons_of_ne hne]

theorem OrphanScan.pending_sync (hpass : scan.pass = .half) (h : heads[scan.i]? = some .half) :
    scan.pending (Effect.apply heads (.sync scan.i)) + 1 = scan.pending heads := by
  obtain ⟨front, back, rfl, hlen⟩ := split_head h
  have hhalf : (Head.synced :: back).count .half = back.count .half :=
    List.count_cons_of_ne (by decide)
  have horphan : ∀ head, head ≠ Head.orphan → (head :: back).count .orphan = back.count .orphan :=
    fun _ hne => List.count_cons_of_ne hne
  simp only [OrphanScan.pending, hpass, Effect.apply, ← hlen,
    List.set_append_right _ _ (Nat.le_refl _), Nat.sub_self, List.set_cons_zero, List.drop_left,
    List.count_append, List.count_cons_self, hhalf, horphan .synced (by decide),
    horphan .half (by decide)]
  omega

theorem OrphanScan.pending_unlink (hpass : scan.pass = .full) (h : heads[scan.i]? = some .orphan) :
    scan.pending (Effect.apply heads (.unlink scan.i)) + 1 = scan.pending heads := by
  obtain ⟨front, back, rfl, hlen⟩ := split_head h
  simp only [OrphanScan.pending, hpass, Effect.apply, ← hlen,
    List.eraseIdx_append_of_length_le (Nat.le_refl _), Nat.sub_self, List.eraseIdx_cons_zero,
    List.drop_left, List.count_cons_self]

end

/-! ## The rest of an operation -/

/-- The orphans that the rest of an operation adds on disk, less those that it adds to the count. -/
def credit : List Stage → Int
  | [] => 0
  | .raise :: todo => credit todo - 1
  | .lower :: todo => credit todo + 1
  | .commit e :: todo => credit todo + e.gain
  | _ :: todo => credit todo

/-- The count when a directory is about to lose its entry: there was none. -/
def countLimit : List Stage → Option Nat
  | .commit (.orphan _) :: _ => some 1
  | .raise :: todo => (countLimit todo).map (· - 1)
  | .read :: todo | .prepmove .. :: todo => countLimit todo
  | _ => none

/-- The rest of the operation when a commit has been written. -/
structure Even (todo : List Stage) : Prop where
  credit : credit todo = 0
  limit : countLimit todo = none

theorem even_iff (todo : List Stage) :
    Even todo ↔ LittleFs.credit todo = 0 ∧ countLimit todo = none :=
  ⟨fun h => ⟨h.credit, h.limit⟩, fun h => ⟨h.1, h.2⟩⟩

/-- What may follow a stage. -/
def Stage.Precedes (todo : List Stage) : Stage → Prop
  | .demove | .endmove | .commit _ | .commitNew => Even todo
  | .deorphan => credit todo = 0
  | .read => credit todo ≤ 0
  | .raise => credit todo = 1 ∧ ∀ k ∈ countLimit todo, k = 1
  | .lower => countLimit todo = none
  | .prepmove .. => True

def StagesOk : List Stage → Prop
  | [] => True
  | stage :: todo => stage.Precedes todo ∧ StagesOk todo

theorem stagesOk_stages (op : Operation) : StagesOk op.stages ∧ Even op.stages := by
  rcases op with _ | _ | _ | ⟨i, _ | _⟩ | i | ⟨_ | i, _ | ⟨id, pair⟩⟩
  all_goals
    simp [Operation.stages, forceStages, dropStages, StagesOk, Stage.Precedes, credit, countLimit,
      Effect.gain, even_iff]

/-! ## The state on disk -/

theorem gstateXor_assoc (a b c : GState) :
    gstateXor (gstateXor a b) c = gstateXor a (gstateXor b c) := by
  simp only [gstateXor, BitVec.xor_assoc, Nat.xor_assoc]

theorem gstateXor_comm (a b : GState) : gstateXor a b = gstateXor b a := by
  simp only [gstateXor, BitVec.xor_comm a.tag, Nat.xor_comm a.pair.1, Nat.xor_comm a.pair.2]

theorem gstateXor_cancel (a b : GState) : gstateXor a (gstateXor b a) = b := by
  rw [gstateXor_comm b, ← gstateXor_assoc]
  simp [gstateXor]

theorem gstateXor_zero (a : GState) : gstateXor a {} = a := by
  simp [gstateXor]

theorem GState.stored_xor (a b : GState) :
    (gstateXor a b).stored = gstateXor a.stored b.stored := by
  simp only [stored, gstateXor, GState.mk.injEq, and_true]
  ext i hi
  simp only [BitVec.getElem_and, BitVec.getElem_xor, Bool.and_xor_distrib_right]

/-- The disk has a state that once was in memory, and `gdisk` is it with the changes in the pairs
that nothing refers to. -/
structure OnDisk (disk unlinked gdisk : GState) : Prop where
  stored : ∃ (g : GState) (n : Nat), g.Counts n ∧ disk = g.stored
  gdisk : gstateXor disk unlinked = gdisk.stored

theorem OnDisk.write_eq {disk unlinked gdisk : GState} (H : OnDisk disk unlinked gdisk)
    (g : GState) :
    gstateXor disk (gstateXor unlinked (gstateXor g gdisk).stored) = g.stored := by
  rw [← gstateXor_assoc, H.gdisk, GState.stored_xor, gstateXor_cancel]

theorem OnDisk.synced {g : GState} (hcounts : g.Counts n) : OnDisk g.stored {} g :=
  ⟨⟨g, n, hcounts, rfl⟩, gstateXor_zero _⟩

theorem OnDisk.take {disk unlinked gdisk : GState} (H : OnDisk disk unlinked gdisk) (g : GState) :
    OnDisk disk (gstateXor unlinked (gstateXor g gdisk).stored) g :=
  ⟨H.stored, H.write_eq g⟩

end LittleFs
