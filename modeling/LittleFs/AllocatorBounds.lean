import LittleFs.AllocatorRun

/-! The bounds of the lookahead buffer. It holds `lookahead_size` bytes, so `8 * lookahead_size`
bits, and `lfs_alloc` and `lfs_raw_format` open windows of up to `16 * lookahead_size` blocks.

A window is never longer than the device, so the accesses stay inside the buffer exactly as long as
the device has no more blocks than the buffer has bits. -/

namespace LittleFs
namespace AllocState

/-- `lfs_min(16 * lookahead_size, blocks)`: the window that is opened on so many blocks. -/
def windowSize (lookaheadSize blocks : Nat) : Nat := min (16 * lookaheadSize % 2 ^ 64) blocks

/-- The windows fit the buffer of `lookahead_size` bytes if the device does. -/
theorem windowSize_le_iff {lookaheadSize blocks : Nat} (hpos : 0 < lookaheadSize)
    (hwrap : 16 * lookaheadSize < 2 ^ 64) :
    windowSize lookaheadSize blocks ≤ 8 * lookaheadSize ↔ blocks ≤ 8 * lookaheadSize := by
  rw [windowSize, Nat.mod_eq_of_lt hwrap]
  omega

theorem windowSize_mono {lookaheadSize m n : Nat} (h : m ≤ n) :
    windowSize lookaheadSize m ≤ windowSize lookaheadSize n :=
  min_le_min_left _ h

/-- What `lfs_init` checks of the configuration and allocates for it, and a device with blocks. -/
structure Configured (s : AllocState) : Prop where
  lookahead_pos : 0 < s.lookaheadSize
  lookahead_lt : s.lookaheadSize < 2 ^ 64
  words : s.free.buffer.length * 8 = s.lookaheadSize
  count_pos : 0 < s.blockCount
  count_lt : s.blockCount < 2 ^ 64

/-- The allocator as `lfs_raw_mount` and `lfs_raw_format` leave it, whatever the configuration. -/
inductive Started : AllocState → Prop where
  | mount (seed : Nat) : Configured s → s.free.offset = seed % s.blockCount → s.free.size = 0 →
      s.free.i = 0 → s.free.ack = s.blockCount → Started s
  | format : Configured s → s.used = [] → s.free.offset = 0 →
      s.free.size = windowSize s.lookaheadSize s.blockCount → s.free.i = 0 →
      s.free.ack = s.blockCount → s.free.buffer = List.replicate s.free.buffer.length 0#64 →
      Started s

variable {s s' : AllocState} {limit : Nat}

theorem Started.configured (H : Started s) : Configured s := by
  cases H with
  | mount _ H => exact H
  | format H => exact H

/-- A callback that leaves the allocator alone and the device with at most `limit` blocks. -/
structure GrowsTo (limit : Nat) (callback : AllocState → Int × AllocState) : Prop where
  free : ∀ {s}, s.free.i = s.free.size → s.free.ack = 0 → (callback s).2.free = s.free
  lookaheadSize : ∀ {s}, s.free.i = s.free.size → s.free.ack = 0 →
    (callback s).2.lookaheadSize = s.lookaheadSize
  le : ∀ {s}, s.free.i = s.free.size → s.free.ack = 0 → s.blockCount ≤ (callback s).2.blockCount
  limit : ∀ {s}, s.free.i = s.free.size → s.free.ack = 0 → s.blockCount ≤ limit →
    (callback s).2.blockCount ≤ limit

/-- The callback of the VFS over a device that stays within `limit` blocks. -/
theorem bdCbAlloc_growsTo {device : AllocState → Int × Nat} (allocs fuel : Nat)
    (hdevice : ∀ s, (device s).2 ≤ limit) : GrowsTo limit (bdCbAlloc device allocs fuel) := by
  refine ⟨?_, ?_, ?_, ?_⟩ <;> intro s hend hack <;>
    rcases bdCbAlloc_eq device allocs fuel hend hack with h | h <;> rw [h]
  · exact Nat.le_max_left ..
  · exact id
  · exact fun hle => Nat.max_le.mpr ⟨hle, hdevice s⟩

/-! ## The invariant -/

/-- The window lies in the buffer, and so does every window that may be opened later. -/
structure InBounds (limit : Nat) (s : AllocState) : Prop where
  i_le : s.free.i ≤ s.free.size
  size_le : s.free.size ≤ s.free.i + s.free.ack
  size_le_count : s.free.size ≤ s.blockCount
  ack_le : s.free.ack ≤ s.blockCount
  count_le : s.blockCount ≤ limit
  limit_lt : limit < 2 ^ 64
  bits : s.free.size ≤ s.free.buffer.length * 64
  window : windowSize s.lookaheadSize limit ≤ s.free.buffer.length * 64

theorem Started.inBounds (H : Started s) (hlimit : limit < 2 ^ 64) (hle : s.blockCount ≤ limit)
    (hwindow : windowSize s.lookaheadSize limit ≤ 8 * s.lookaheadSize) : s.InBounds limit := by
  have hwords := H.configured.words
  have hbits : windowSize s.lookaheadSize limit ≤ s.free.buffer.length * 64 := by omega
  cases H with
  | mount seed _ _ hsize hi hack =>
    exact ⟨by omega, by omega, by omega, by omega, hle, hlimit, by omega, hbits⟩
  | format _ _ _ hsize hi hack =>
    have hmin : s.free.size ≤ s.blockCount := hsize ▸ Nat.min_le_right ..
    have hmono : windowSize s.lookaheadSize s.blockCount ≤ windowSize s.lookaheadSize limit :=
      windowSize_mono hle
    exact ⟨by omega, by omega, hmin, by omega, hle, hlimit, by omega, hbits⟩

theorem InBounds.get?_isSome (H : s.InBounds limit) (h : k < s.free.size) :
    ∃ bit, Bitmap.get? s.free.buffer k = some bit := by
  rw [← Option.isSome_iff_exists, Bitmap.get?_isSome (by decide)]
  exact h.trans_le H.bits

theorem InBounds.advance (H : s.InBounds limit) (h : s.free.i < s.free.size) :
    s.advance.InBounds limit := by
  have hsize := H.size_le
  have hack := H.ack_le
  have hcount := H.count_le
  have hlimit := H.limit_lt
  have hdec : (s.free.ack + 2 ^ 64 - 1) % 2 ^ 64 = s.free.ack - 1 := by omega
  refine { H with i_le := h, size_le := ?_, ack_le := ?_ } <;>
    simp only [AllocState.advance, hdec] <;> omega

theorem InBounds.allocSkip (H : s.InBounds limit) (h : s.free.i + n = s.free.size) :
    ∃ s', allocSkip n s = .ok s' ∧ s'.InBounds limit := by
  induction n generalizing s with
  | zero => exact ⟨s, by simpa [AllocState.allocSkip] using h, H⟩
  | succ n ih =>
    obtain ⟨bit, hbit⟩ := H.get?_isSome (k := s.free.i) (by omega)
    cases bit with
    | false => exact ⟨s, by simp only [AllocState.allocSkip, hbit], H⟩
    | true =>
      obtain ⟨s', hskip, H'⟩ := ih (H.advance (by omega))
        (by simp only [AllocState.advance]; omega)
      exact ⟨s', by rw [AllocState.allocSkip, hbit]; exact hskip, H'⟩

theorem InBounds.allocScan (H : s.InBounds limit) (h : s.free.i + n = s.free.size) :
    ∃ b s', allocScan n s = .ok (b, s') ∧ s'.InBounds limit ∧
      (b = none → s'.free.i = s'.free.size) := by
  induction n generalizing s with
  | zero =>
    have hend : s.free.i = s.free.size := h
    exact ⟨none, s, by simp only [AllocState.allocScan, hend, ↓reduceIte], H, fun _ => hend⟩
  | succ n ih =>
    have hadv := H.advance (by omega)
    have hn : s.advance.free.i + n = s.advance.free.size := by
      simp only [AllocState.advance]
      omega
    obtain ⟨bit, hbit⟩ := H.get?_isSome (k := s.free.i) (by omega)
    cases bit with
    | false =>
      obtain ⟨s', hskip, H'⟩ := hadv.allocSkip hn
      refine ⟨some ((s.free.offset + s.free.i) % s.blockCount), s', ?_, H',
        fun hnone => absurd hnone (Option.some_ne_none _)⟩
      rw [AllocState.allocScan, hbit]
      simp only [hskip, Except.map]
    | true =>
      obtain ⟨b, s', hscan, hrest⟩ := ih hadv hn
      exact ⟨b, s', by rw [AllocState.allocScan, hbit]; exact hscan, hrest⟩

/-- The traversal marks only bits of the window. -/
theorem InBounds.foldlM_allocLookahead (H : s.InBounds limit) (blocks : List Nat) :
    ∃ s', blocks.foldlM allocLookahead s = .ok s' ∧ s'.InBounds limit := by
  obtain ⟨buffer, hfold, hlen, _⟩ := AllocState.foldlM_allocLookahead (s := s) blocks H.bits
  refine ⟨_, hfold, { H with bits := ?_, window := ?_ }⟩
  · exact hlen ▸ H.bits
  · exact hlen ▸ H.window

theorem InBounds.refilled (H : s.InBounds limit) : s.refilled.InBounds limit := by
  have hack := H.ack_le
  have hmin : s.refilled.free.size ≤ s.free.ack := Nat.min_le_right ..
  have hmono : s.refilled.free.size ≤ windowSize s.lookaheadSize limit :=
    windowSize_mono (hack.trans H.count_le)
  have hlen : s.refilled.free.buffer.length = s.free.buffer.length := List.length_replicate
  exact
    { i_le := Nat.zero_le _
      size_le := by rwa [show s.refilled.free.i = 0 from rfl, Nat.zero_add]
      size_le_count := hmin.trans hack
      ack_le := hack
      count_le := H.count_le
      limit_lt := H.limit_lt
      bits := hlen ▸ hmono.trans H.window
      window := hlen ▸ H.window }

theorem InBounds.allocRefill (H : s.InBounds limit) :
    ∃ err s', allocRefill s = .ok (err, s') ∧ s'.InBounds limit := by
  have hfold := fun blocks faults =>
    InBounds.foldlM_allocLookahead (s := { s.refilled with faults }) { H.refilled with } blocks
  rw [AllocState.allocRefill, fsRawtraverse]
  split
  · obtain ⟨s', hs', H'⟩ := hfold _ _
    exact ⟨_, s', by rw [hs']; rfl, H'⟩
  · obtain ⟨s', hs', H'⟩ := hfold _ _
    exact ⟨_, s', by rw [hs']; rfl, H'⟩
  · obtain ⟨s', hs', H'⟩ := H.refilled.foldlM_allocLookahead s.refilled.used
    exact ⟨_, s', by rw [hs']; rfl, H'⟩

theorem InBounds.allocAck (H : s.InBounds limit) : s.allocAck.InBounds limit :=
  { H with
    size_le := H.size_le_count.trans (Nat.le_add_left ..)
    ack_le := Nat.le_refl _ }

theorem InBounds.allocDrop (H : s.InBounds limit) : s.allocDrop.InBounds limit :=
  { H with
    i_le := Nat.le_refl 0
    size_le := Nat.zero_le _
    size_le_count := Nat.zero_le _
    ack_le := Nat.le_refl _
    bits := Nat.zero_le _ }

theorem GrowsTo.inBounds {callback : AllocState → Int × AllocState} (hcb : GrowsTo limit callback)
    (H : s.InBounds limit) (hend : s.free.i = s.free.size) (hack : s.free.ack = 0) :
    (callback s).2.InBounds limit := by
  have hfree := hcb.free hend hack
  have hla := hcb.lookaheadSize hend hack
  have hle := hcb.le hend hack
  refine ⟨?_, ?_, ?_, ?_, hcb.limit hend hack H.count_le, H.limit_lt, ?_, ?_⟩
  · exact hfree ▸ H.i_le
  · exact hfree ▸ H.size_le
  · exact hfree ▸ H.size_le_count.trans hle
  · exact hfree ▸ H.ack_le.trans hle
  · exact hfree ▸ H.bits
  · exact hla ▸ hfree ▸ H.window

/-- What a call leaves when it does not leave the bitmap. -/
def Stays (limit : Nat) : Except Stuck (Except Int Nat × AllocState) → Prop
  | .error .outOfBounds => False
  | .error .fuel => True
  | .ok (_, s') => s'.InBounds limit

/-- **One call.** -/
theorem InBounds.alloc (H : s.InBounds limit)
    (hcb : ∀ callback ∈ allocateBlock, GrowsTo limit callback) (fuel : Nat) :
    Stays limit (alloc allocateBlock fuel s) := by
  induction fuel generalizing s with
  | zero => trivial
  | succ fuel ih =>
    obtain ⟨b, s₁, hscan, H₁, hend⟩ := H.allocScan (Nat.add_sub_cancel' H.i_le)
    rw [AllocState.alloc, hscan]
    cases b with
    | some b => exact H₁
    | none =>
      have hend₁ := hend rfl
      dsimp only
      split
      · cases allocateBlock with
        | none => exact H₁
        | some callback =>
          have H₂ := (hcb callback rfl).inBounds H₁ hend₁ ‹_›
          dsimp only
          split
          · exact H₂
          · exact ih H₂.allocAck
      · obtain ⟨err, s₂, hrefill, H₂⟩ := H₁.allocRefill
        rw [hrefill]
        dsimp only
        split
        · exact H₂.allocDrop
        · exact ih H₂

/-! ## A device with more blocks than the buffer has bits -/

/-- The allocator that `lfs_raw_format` starts with. -/
def formatted (lookaheadSize blockCount : Nat) : AllocState where
  free := {
    offset := 0
    size := windowSize lookaheadSize blockCount
    i := 0
    ack := blockCount
    buffer := List.replicate (lookaheadSize / 8) 0#64 }
  blockCount
  lookaheadSize
  used := []

variable {lookaheadSize blockCount : Nat}

theorem formatted_started (hpos : 0 < lookaheadSize) (hmod : lookaheadSize % 8 = 0)
    (hlt : lookaheadSize < 2 ^ 64) (hcount : 0 < blockCount) (hcount' : blockCount < 2 ^ 64) :
    Started (formatted lookaheadSize blockCount) := by
  have hwords : (formatted lookaheadSize blockCount).free.buffer.length * 8 = lookaheadSize := by
    simp only [formatted, List.length_replicate]
    omega
  refine .format ⟨hpos, hlt, hwords, hcount, hcount'⟩ rfl rfl rfl rfl rfl ?_
  simp only [formatted, List.length_replicate]

section

variable (hmod : lookaheadSize % 8 = 0) (hcount : blockCount < 2 ^ 64)
  (hlong : 8 * lookaheadSize < windowSize lookaheadSize blockCount)

include hmod hcount hlong

/-- The scan of the `j`th call: it hands out block `j` and goes on behind it. -/
theorem formatted_allocScan (hj : j < 8 * lookaheadSize) :
    ∃ n, (formatted lookaheadSize blockCount).free.size = j + (n + 2) ∧
      allocScan (n + 2) ((formatted lookaheadSize blockCount).advanceBy j) =
        (allocSkip (n + 1) ((formatted lookaheadSize blockCount).advanceBy (j + 1))).map
          fun s' => (some j, s') := by
  have hle : windowSize lookaheadSize blockCount ≤ blockCount := Nat.min_le_right ..
  have hdec : (blockCount - j + 2 ^ 64 - 1) % 2 ^ 64 = blockCount - (j + 1) := by omega
  have hclear : Bitmap.get? (List.replicate (lookaheadSize / 8) 0#64) j = some false :=
    Bitmap.get?_replicate (by decide) (by omega)
  refine ⟨windowSize lookaheadSize blockCount - j - 2, by simp only [formatted]; omega, ?_⟩
  have hadv : ((formatted lookaheadSize blockCount).advanceBy j).advance =
      (formatted lookaheadSize blockCount).advanceBy (j + 1) := by
    simp only [advance, advanceBy, formatted, hdec, Nat.zero_add]
  have hblock : (0 + (0 + j)) % blockCount = j := by
    rw [Nat.zero_add, Nat.zero_add, Nat.mod_eq_of_lt (by omega)]
  rw [allocScan, hadv]
  simp only [advanceBy, formatted, Nat.zero_add, hclear]
  simp only [Nat.zero_add] at hblock
  rw [hblock]

theorem formatted_alloc (hj : j + 1 < 8 * lookaheadSize) :
    alloc none 1 ((formatted lookaheadSize blockCount).advanceBy j) =
      .ok (.ok j, (formatted lookaheadSize blockCount).advanceBy (j + 1)) := by
  obtain ⟨n, hsize, hscan⟩ := formatted_allocScan hmod hcount hlong (j := j) (by omega)
  have hclear : Bitmap.get? (List.replicate (lookaheadSize / 8) 0#64) (j + 1) = some false :=
    Bitmap.get?_replicate (by decide) (by omega)
  have hskip : allocSkip (n + 1) ((formatted lookaheadSize blockCount).advanceBy (j + 1)) =
      .ok ((formatted lookaheadSize blockCount).advanceBy (j + 1)) := by
    rw [allocSkip]
    simp only [advanceBy, formatted, Nat.zero_add, hclear]
  have hleft : ((formatted lookaheadSize blockCount).advanceBy j).free.size -
      ((formatted lookaheadSize blockCount).advanceBy j).free.i = n + 2 := by
    simp only [advanceBy, hsize]
    simp only [formatted]
    omega
  rw [alloc, hleft, hscan, hskip]
  rfl

/-- The call that hands out the last block of the buffer goes on to a bit it does not hold. -/
theorem formatted_alloc_outOfBounds (hj : j + 1 = 8 * lookaheadSize) :
    alloc none 1 ((formatted lookaheadSize blockCount).advanceBy j) = .error .outOfBounds := by
  obtain ⟨n, hsize, hscan⟩ := formatted_allocScan hmod hcount hlong (j := j) (by omega)
  have hnone : Bitmap.get? (List.replicate (lookaheadSize / 8) 0#64) (j + 1) = none := by
    rw [← Option.not_isSome_iff_eq_none, Bitmap.get?_isSome (by decide), List.length_replicate]
    omega
  have hskip : allocSkip (n + 1) ((formatted lookaheadSize blockCount).advanceBy (j + 1)) =
      .error .outOfBounds := by
    rw [allocSkip]
    simp only [advanceBy, formatted, Nat.zero_add, hnone]
  have hleft : ((formatted lookaheadSize blockCount).advanceBy j).free.size -
      ((formatted lookaheadSize blockCount).advanceBy j).free.i = n + 2 := by
    simp only [advanceBy, hsize]
    simp only [formatted]
    omega
  rw [alloc, hleft, hscan, hskip]
  rfl

end

end AllocState

namespace AllocRun

open AllocState

variable {lookaheadSize blockCount limit : Nat}

theorem formatted_runs (hmod : lookaheadSize % 8 = 0) (hcount : blockCount < 2 ^ 64)
    (hlong : 8 * lookaheadSize < windowSize lookaheadSize blockCount) (hj : j < 8 * lookaheadSize) :
    ∃ handed, Run.Runs (Step none) (fun _ _ => True) ⟨formatted lookaheadSize blockCount, []⟩
      ⟨(formatted lookaheadSize blockCount).advanceBy j, handed⟩ := by
  induction j with
  | zero => exact ⟨[], .refl⟩
  | succ j ih =>
    obtain ⟨handed, hrun⟩ := ih (by omega)
    have hstep : Step none ⟨(formatted lookaheadSize blockCount).advanceBy j, handed⟩ (.alloc [])
        ⟨(formatted lookaheadSize blockCount).advanceBy (j + 1), j :: handed⟩ :=
      .allocated (formatted_alloc hmod hcount hlong hj)
    exact ⟨j :: handed, hrun.step trivial hstep⟩

/-- **The bitmap is large enough.** Over all runs on devices of at most `limit` blocks, whatever
`allocate_block` makes of them, no call leaves the bitmap if and only if the windows on `limit`
blocks fit the buffer. -/
theorem bitmap_in_bounds_iff (lookaheadSize limit : Nat) (hpos : 0 < lookaheadSize)
    (hmod : lookaheadSize % 8 = 0) (hlt : lookaheadSize < 2 ^ 64) (hlimit : 0 < limit)
    (hlimit' : limit < 2 ^ 64) :
    (∀ (allocateBlock : AllocateBlock) (init : AllocState) (s : AllocRun) (fuel : Nat)
      (faults : List (Option (Nat × Nat))),
      (∀ callback ∈ allocateBlock, GrowsTo limit callback) → Started init →
      init.lookaheadSize = lookaheadSize → init.blockCount ≤ limit →
      Run.Runs (Step allocateBlock) (fun _ _ => True) ⟨init, []⟩ s →
      AllocState.alloc allocateBlock fuel { s.alloc with faults } ≠ .error .outOfBounds) ↔
    windowSize lookaheadSize limit ≤ 8 * lookaheadSize := by
  constructor
  · intro h
    by_contra hlong
    have hlong := Nat.lt_of_not_le hlong
    obtain ⟨handed, hrun⟩ := formatted_runs (j := 8 * lookaheadSize - 1) hmod hlimit' hlong
      (by omega)
    exact h none _ _ 1 [] (fun _ hcb => absurd hcb (Option.not_mem_none _))
      (formatted_started hpos hmod hlt hlimit hlimit') rfl (Nat.le_refl _) hrun
      (formatted_alloc_outOfBounds hmod hlimit' hlong (by omega))
  · rintro hwindow allocateBlock init s fuel faults hcb hinit rfl hle hrun hstuck
    have hstart : (AllocRun.mk init []).alloc.InBounds limit := hinit.inBounds hlimit' hle hwindow
    have H : s.alloc.InBounds limit := by
      refine hrun.invariant (I := fun s => s.alloc.InBounds limit) (fun s e s' H _ hstep => ?_)
        hstart
      cases hstep with
      | @allocated fuel _ _ _ faults halloc =>
        have hstays := InBounds.alloc (s := { s.alloc with faults }) { H with } hcb fuel
        rw [halloc] at hstays
        exact hstays
      | @failed fuel _ _ _ faults halloc =>
        have hstays := InBounds.alloc (s := { s.alloc with faults }) { H with } hcb fuel
        rw [halloc] at hstays
        exact hstays
      | ack => exact H.allocAck
      | commit => exact { H with }
    have hstays := InBounds.alloc (s := { s.alloc with faults }) { H with } hcb fuel
    rw [hstuck] at hstays
    exact hstays

/-- A mounted device of `blockCount` blocks with a lookahead buffer of one word. -/
def oneWord (blockCount : Nat) (used : List Nat) : AllocState where
  free := { offset := 0, size := 0, i := 0, ack := blockCount, buffer := [0#64] }
  blockCount
  lookaheadSize := 8
  used

/-- 64 blocks, the last of them in use. -/
theorem bitmap_in_bounds_oneWord :
    AllocState.alloc none 2 { oneWord 64 [0, 1, 63] with faults := [] } ≠ .error .outOfBounds :=
  (bitmap_in_bounds_iff 8 64 (by decide) (by decide) (by decide) (by decide) (by decide)).mpr
    (by decide) none (oneWord 64 [0, 1, 63]) ⟨oneWord 64 [0, 1, 63], []⟩ 2 []
    (fun _ hcb => absurd hcb (Option.not_mem_none _))
    (.mount 0 ⟨by decide, by decide, rfl, by decide, by decide⟩ rfl rfl rfl rfl) rfl (by decide)
    .refl

/-- 65 blocks, the last of them in use: the first call after the mount marks it behind the
buffer. -/
theorem bitmap_out_of_bounds :
    ¬ ∀ (init : AllocState) (s : AllocRun) (fuel : Nat) (faults : List (Option (Nat × Nat))),
      Started init → Run.Runs (Step none) (fun _ _ => True) ⟨init, []⟩ s →
      AllocState.alloc none fuel { s.alloc with faults } ≠ .error .outOfBounds := by
  intro h
  refine h (oneWord 65 [0, 1, 64]) ⟨oneWord 65 [0, 1, 64], []⟩ 2 [] ?_ .refl rfl
  exact .mount 0 ⟨by decide, by decide, rfl, by decide, by decide⟩ rfl rfl rfl rfl

end AllocRun

end LittleFs
