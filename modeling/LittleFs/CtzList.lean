import LittleFs.CtzIndex
import LittleFs.BlockScan
import LittleFs.Lib.ByteImage

/-! The CTZ lists of `lfs_file_index.cpp`: the search for a byte, the visit of all blocks and the
extension by one block.

Block `i` of a list starts with the addresses of the blocks `i - 2 ^ j`, as many of them as `i` has
zeros at its end and one more. The caches are left out: a block holds the bytes that `lfs_bd_read`
returns for it. -/

namespace LittleFs

open BitCount SkipList

/-- The device: the bytes of its blocks, what an erase leaves, and what it reports for a block. -/
structure CtzDisk where
  blockSize : Nat
  blockCount : Nat
  content : Nat → ByteImage.Image
  erased : ByteImage.Image
  readResult : Nat → Int
  eraseResult : Nat → Int
  writeResult : Nat → Int

namespace CtzDisk

/-- `lfs_bd_read`. -/
def bdRead (d : CtzDisk) (block offset size : Nat) : Except Int (List UInt8) :=
  if block ≥ d.blockCount ∨ offset + size > d.blockSize then .error errCorrupt
  else if d.readResult block ≠ errOk then .error (d.readResult block)
  else .ok (ByteImage.read (d.content block) offset size)

def set (d : CtzDisk) (block : Nat) (image : ByteImage.Image) : CtzDisk :=
  { d with content := Function.update d.content block image }

/-- `lfs_bd_erase`. -/
def bdErase (d : CtzDisk) (block : Nat) : Int × CtzDisk :=
  if d.eraseResult block ≠ errOk then (d.eraseResult block, d) else (errOk, d.set block d.erased)

/-- `lfs_bd_write`. -/
def bdWrite (d : CtzDisk) (block offset : Nat) (bytes : List UInt8) : Int × CtzDisk :=
  if d.writeResult block ≠ errOk then (d.writeResult block, d)
  else (errOk, d.set block (ByteImage.write (d.content block) offset bytes))

/-! ## The functions -/

/-- The loop of `lfs_ctz_find`, with the block and the offset of every read. -/
def ctzFindLoop (d : CtzDisk) (target : Nat) (current head : Nat) :
    List (Nat × Nat) × Except Int Nat :=
  if target < current then
    let skip := min (npw2_64 (current - target + 1) - 1) (ctz64 current)
    match d.bdRead head (8 * skip) 8 with
    | .error err => ([(head, 8 * skip)], .error err)
    | .ok bytes =>
      let rest := ctzFindLoop d target (current - 2 ^ skip) (fromLe bytes)
      ((head, 8 * skip) :: rest.1, rest.2)
  else ([], .ok head)
termination_by current
decreasing_by exact Nat.sub_lt (by omega) (Nat.two_pow_pos _)

/-- `lfs_ctz_find`: the reads, and the block and the offset. `none` is `LFS_BLOCK_NULL`. -/
def ctzFind (d : CtzDisk) (head size pos : Nat) :
    List (Nat × Nat) × Except Int (Option Nat × Nat) :=
  if size = 0 then ([], .ok (none, 0))
  else
    let current := (ctzIndex d.blockSize (size - 1)).1
    let target := ctzIndex d.blockSize pos
    let found := ctzFindLoop d target.1 current head
    (found.1, found.2.map fun block => (some block, target.2))

/-- The loop of `lfs_ctz_traverse`. -/
def ctzTraverseLoop (d : CtzDisk) (cb : σ → Nat → Except Int σ) (index head : Nat) (data : σ) :
    Except Int σ :=
  match cb data head with
  | .error err => .error err
  | .ok data =>
    if index = 0 then .ok data
    else
      let count := 2 - index % 2
      match d.bdRead head 0 (count * 8) with
      | .error err => .error err
      | .ok bytes =>
        let heads := (fromLe (bytes.take 8), fromLe (bytes.drop 8))
        match cb data heads.1 with
        | .error err => .error err
        | .ok data =>
          ctzTraverseLoop d cb (index - count) (if count = 1 then heads.1 else heads.2) data
termination_by index
decreasing_by omega

/-- `lfs_ctz_traverse`. -/
def ctzTraverse (d : CtzDisk) (cb : σ → Nat → Except Int σ) (head size : Nat) (data : σ) :
    Except Int σ :=
  if size = 0 then .ok data
  else ctzTraverseLoop d cb (ctzIndex d.blockSize (size - 1)).1 head data

/-- `lfs_fs_size_count`. -/
def fsSizeCount (size : Nat) (_ : Nat) : Except Int Nat := .ok (size + 1)

/-- How the attempt of `lfs_ctz_extend` on one block ends: with the new head and the offset behind
its contents, with an error, or with `goto relocate`. -/
inductive Extended where
  | done (block offset : Nat)
  | failed (err : Int)
  | relocate
  deriving DecidableEq

/-- What a failed program of the new block leads to. -/
def Extended.ofWrite (err : Int) : Extended := if err = errCorrupt then .relocate else .failed err

/-- The loop that copies out an incomplete last block; `n` is what is left of it. -/
def ctzCopy (head nblock noff : Nat) : (n idx : Nat) → CtzDisk → Extended × CtzDisk
  | 0, _, d => (.done nblock noff, d)
  | n + 1, idx, d =>
    match d.bdRead head idx 1 with
    | .error err => (.failed err, d)
    | .ok data =>
      match d.bdWrite nblock idx data with
      | (err, d) =>
        if err ≠ errOk then (.ofWrite err, d) else ctzCopy head nblock noff n (idx + 1) d

/-- The loop that gathers the pointers of the new block; `n` is what is left of the `skips`. -/
def ctzPointers (nblock skips : Nat) : (n idx nhead : Nat) → CtzDisk → Extended × CtzDisk
  | 0, _, _, d => (.done nblock (8 * skips), d)
  | n + 1, idx, nhead, d =>
    match d.bdWrite nblock (8 * idx) (toLe 8 nhead) with
    | (err, d) =>
      if err ≠ errOk then (.ofWrite err, d)
      else if idx ≠ skips - 1 then
        match d.bdRead nhead (8 * idx) 8 with
        | .error err => (.failed err, d)
        | .ok bytes => ctzPointers nblock skips n (idx + 1) (fromLe bytes) d
      else ctzPointers nblock skips n (idx + 1) nhead d

/-- `lfs_ctz_extend` with the block that `lfs_alloc` returned. -/
def ctzExtendTo (head size nblock : Nat) (d : CtzDisk) : Extended × CtzDisk :=
  match d.bdErase nblock with
  | (err, d) =>
    if err ≠ errOk then (.ofWrite err, d)
    else if size = 0 then (.done nblock 0, d)
    else
      let last := ctzIndex d.blockSize (size - 1)
      let noff := last.2 + 1
      if noff ≠ d.blockSize then ctzCopy head nblock noff noff 0 d
      else
        let index := (last.1 + 1) % 2 ^ 64
        let skips := ctz64 index + 1
        ctzPointers nblock skips skips 0 head d

/-- `lfs_ctz_extend` over the results of `lfs_alloc`; `none` when there are more calls of it. -/
def ctzExtend (head size : Nat) :
    List (Except Int Nat) → CtzDisk → Option (Except Int (Nat × Nat) × CtzDisk)
  | [], _ => none
  | .error err :: _, d => some (.error err, d)
  | .ok nblock :: allocs, d =>
    match ctzExtendTo head size nblock d with
    | (.done block offset, d) => some (.ok (block, offset), d)
    | (.failed err, d) => some (.error err, d)
    | (.relocate, d) => ctzExtend head size allocs d

end CtzDisk

/-! ## Lists -/

/-- The blocks `addr 0` to `addr n` form a list that can be read. -/
structure CtzList (d : CtzDisk) (n : Nat) (addr : Nat → Nat) : Prop where
  count_le : d.blockCount ≤ 2 ^ 64
  lt : ∀ i ≤ n, addr i < d.blockCount
  readable : ∀ i ≤ n, d.readResult (addr i) = errOk
  room : Room 8 d.blockSize n
  pointer : ∀ i ≤ n, i ≠ 0 → ∀ j ≤ zeros i,
    ByteImage.read (d.content (addr i)) (8 * j) 8 = toLe 8 (addr (i - 2 ^ j))

namespace CtzList

variable {d : CtzDisk} {addr : Nat → Nat} {n i j : Nat}

open CtzDisk

theorem fromLe_addr (H : CtzList d n addr) (h : i ≤ n) : fromLe (toLe 8 (addr i)) = addr i := by
  have hlt := H.lt i h
  have hle := H.count_le
  rw [fromLe_toLe, Nat.mod_eq_of_lt (by omega)]

theorem bdRead_block (H : CtzList d n addr) (h : i ≤ n) (hsize : offset + size ≤ d.blockSize) :
    d.bdRead (addr i) offset size = .ok (ByteImage.read (d.content (addr i)) offset size) := by
  have hlt := H.lt i h
  unfold CtzDisk.bdRead
  rw [if_neg (by omega), if_neg (not_not.mpr (H.readable i h))]

theorem room_zeros (H : CtzList d n addr) (h : i ≤ n) (hi : i ≠ 0) :
    8 * (zeros i + 1) ≤ d.blockSize := by
  have hroom := H.room i h
  rwa [pointers, if_neg hi] at hroom

theorem bdRead_pointer (H : CtzList d n addr) (h : i ≤ n) (hi : i ≠ 0) (hj : j ≤ zeros i) :
    d.bdRead (addr i) (8 * j) 8 = .ok (toLe 8 (addr (i - 2 ^ j))) := by
  have hroom := H.room_zeros h hi
  rw [H.bdRead_block h (by omega), H.pointer i h hi j hj]

/-- A device whose blocks form one list: block `i` of the list is block `i` of the device. -/
def skipDisk (blockSize blockCount : Nat) : CtzDisk where
  blockSize
  blockCount
  content block k := UInt8.ofNat ((block - 2 ^ (k / 8)) / 256 ^ (k % 8))
  erased _ := 0xff
  readResult _ := errOk
  eraseResult _ := errOk
  writeResult _ := errOk

theorem read_bytes (f : Nat → Nat) (j : Nat) :
    ByteImage.read (fun k => UInt8.ofNat (f (k / 8) / 256 ^ (k % 8))) (8 * j) 8 = toLe 8 (f j) := by
  simp [ByteImage.read, List.range_succ, toLe, Nat.mul_add_div, Nat.div_div_eq_div_mul]

theorem skipDisk_list {blockSize blockCount : Nat} (hcount : blockCount ≤ 2 ^ 64)
    (hn : n < blockCount)
    (hroom : Room 8 blockSize n) : CtzList (skipDisk blockSize blockCount) n id where
  count_le := hcount
  lt _ h := h.trans_lt hn
  readable _ _ := rfl
  room := hroom
  pointer i _ _ j _ := read_bytes (fun j => i - 2 ^ j) j

/-! ## The search -/

/-- A read of a pointer that the block has. -/
def PointerRead (addr : Nat → Nat) (n : Nat) (r : Nat × Nat) : Prop :=
  ∃ i ≤ n, i ≠ 0 ∧ ∃ j ≤ zeros i, r = (addr i, 8 * j)

theorem ctzFindLoop_eq (H : CtzList d n addr) (hn : n < 2 ^ 64) (hle : target ≤ current)
    (hcurrent : current ≤ n) :
    ∃ reads, ctzFindLoop d target current (addr current) = (reads, .ok (addr target)) ∧
      ∀ r ∈ reads, PointerRead addr n r := by
  induction current using Nat.strongRecOn with
  | ind current ih =>
    rw [ctzFindLoop]
    by_cases hlt : target < current
    · have hne : current ≠ 0 := by omega
      have hskip : min (npw2_64 (current - target + 1) - 1) (ctz64 current) =
        hop current target := by
        rw [npw2_64_succ (by omega) (by omega), ctz64_eq hne (by omega), hop]
      have hhop := two_pow_hop_le hlt
      have hpos := Nat.two_pow_pos (hop current target)
      obtain ⟨reads, hloop, hreads⟩ := ih (current - 2 ^ hop current target) (by omega) (by omega)
        (by omega)
      rw [if_pos hlt]
      dsimp only
      rw [hskip, H.bdRead_pointer hcurrent hne (hop_le_zeros current target)]
      dsimp only
      rw [H.fromLe_addr (by omega), hloop]
      refine ⟨_, rfl, fun r hr => ?_⟩
      rcases List.mem_cons.mp hr with rfl | hr
      · exact ⟨current, hcurrent, hne, _, hop_le_zeros current target, rfl⟩
      · exact hreads r hr
    · obtain rfl : target = current := Nat.le_antisymm hle (Nat.le_of_not_lt hlt)
      rw [if_neg hlt]
      exact ⟨[], rfl, fun r hr => (List.not_mem_nil hr).elim⟩

end CtzList

/-- **The search reaches the block of a byte.** `lfs_ctz_find` returns the block that holds the
byte and its offset there, and reads only pointers that the blocks have. -/
theorem ctzFind_eq {d : CtzDisk} {addr : Nat → Nat}
    (H : CtzList d (ctzIndex d.blockSize (size - 1)).1 addr) (hpos : pos < size)
    (hlast : CtzExact d.blockSize (size - 1)) (hexact : CtzExact d.blockSize pos)
    (hbyte : Holds 8 d.blockSize i pos off) :
    ∃ reads, CtzDisk.ctzFind d (addr (ctzIndex d.blockSize (size - 1)).1) size pos =
        (reads, .ok (some (addr i), off)) ∧
      ∀ r ∈ reads, CtzList.PointerRead addr (ctzIndex d.blockSize (size - 1)).1 r := by
  obtain ⟨hi, hoff⟩ := hexact.unique hbyte
  have hlt := hlast.lt
  have hle : (ctzIndex d.blockSize pos).1 ≤ (ctzIndex d.blockSize (size - 1)).1 :=
    hexact.index_le (by omega)
  obtain ⟨reads, hloop, hreads⟩ := H.ctzFindLoop_eq (ctzIndex_fst_lt ..) hle (Nat.le_refl _)
  refine ⟨reads, ?_, hreads⟩
  rw [CtzDisk.ctzFind, if_neg (by omega)]
  dsimp only
  rw [hloop, hoff, hi]
  rfl

/-- Byte 100 of a file of 200 bytes in blocks of 64 bytes: the fourth of its four blocks leads to
the second one, where the byte is the 36th of the content. -/
theorem ctzFind_eq_skipDisk :
    ∃ reads, CtzDisk.ctzFind (CtzList.skipDisk 64 8) 3 200 100 = (reads, .ok (some 1, 44)) ∧
      ∀ r ∈ reads, CtzList.PointerRead id 3 r := by
  have hlast : CtzExact 64 199 := by
    constructor <;> decide +kernel
  have hexact : CtzExact 64 100 := by
    constructor <;> decide +kernel
  have hbyte : Holds 8 64 1 100 44 := by
    constructor <;> decide +kernel
  have hroom : Room 8 64 3 := Room.of_lt (show 3 < 2 ^ 2 by decide) (by decide)
  have hindex : (ctzIndex (CtzList.skipDisk 64 8).blockSize (200 - 1)).1 = 3 := by decide +kernel
  have H : CtzList (CtzList.skipDisk 64 8) (ctzIndex (CtzList.skipDisk 64 8).blockSize (200 - 1)).1
      id := hindex ▸ CtzList.skipDisk_list (by decide) (by decide) hroom
  have h := ctzFind_eq H (show 100 < 200 by decide) hlast hexact hbyte
  rwa [hindex] at h

/-! ## The visit of all blocks -/

/-- The blocks of a list of `size` bytes, from the head to block 0. -/
def ctzBlocks (d : CtzDisk) (size : Nat) (addr : Nat → Nat) : List Nat :=
  if size = 0 then []
  else (List.range ((ctzIndex d.blockSize (size - 1)).1 + 1)).reverse.map addr

namespace CtzList

open CtzDisk

variable {d : CtzDisk} {addr : Nat → Nat} {n m : Nat} {cb : σ → Nat → Except Int σ} {data : σ}

theorem reverse_range_succ (n : Nat) :
    (List.range (n + 1)).reverse.map addr = addr n :: (List.range n).reverse.map addr := by
  rw [List.range_succ, List.reverse_append, List.reverse_singleton, List.singleton_append,
    List.map_cons]

/-- The `heads` of a block that is not block 0. -/
theorem bdRead_heads (H : CtzList d n addr) (hm : m + 1 ≤ n) :
    ∃ bytes, d.bdRead (addr (m + 1)) 0 ((2 - (m + 1) % 2) * 8) = .ok bytes ∧
      fromLe (bytes.take 8) = addr m ∧
      (2 - (m + 1) % 2 = 2 → fromLe (bytes.drop 8) = addr (m - 1)) := by
  have hroom := H.room_zeros hm m.succ_ne_zero
  have hfirst := H.pointer (m + 1) hm m.succ_ne_zero 0 (Nat.zero_le _)
  rcases Nat.mod_two_eq_zero_or_one (m + 1) with heven | hodd
  · have hzeros : 1 ≤ zeros (m + 1) := zeros_of_even m.succ_ne_zero heven
    have hsecond := H.pointer (m + 1) hm m.succ_ne_zero 1 hzeros
    have hread : ByteImage.read (d.content (addr (m + 1))) 0 16 =
        toLe 8 (addr m) ++ toLe 8 (addr (m - 1)) := by
      rw [ByteImage.read_append _ 0 8 8]
      exact congrArg₂ (· ++ ·) hfirst hsecond
    refine ⟨_, H.bdRead_block hm (by omega), ?_, fun _ => ?_⟩
    · rw [heven, hread, List.take_left' (length_toLe 8 _), H.fromLe_addr (by omega)]
    · rw [heven, hread, List.drop_left' (length_toLe 8 _), H.fromLe_addr (by omega)]
  · refine ⟨_, H.bdRead_block hm (by omega), ?_, fun h => by omega⟩
    rw [hodd]
    have hread : ByteImage.read (d.content (addr (m + 1))) 0 ((2 - 1) * 8) = toLe 8 (addr m) :=
      hfirst
    rw [hread, List.take_of_length_le (Nat.le_of_eq (length_toLe 8 _)), H.fromLe_addr (by omega)]

/-- The loop on a block that is not block 0. -/
theorem ctzTraverseLoop_succ (H : CtzList d n addr) (hm : m + 1 ≤ n) :
    ctzTraverseLoop d cb (m + 1) (addr (m + 1)) data =
      (cb data (addr (m + 1))).bind fun data =>
        (cb data (addr m)).bind fun data =>
          ctzTraverseLoop d cb (m + 1 - (2 - (m + 1) % 2)) (addr (m + 1 - (2 - (m + 1) % 2)))
            data := by
  obtain ⟨bytes, hread, hfirst, hsecond⟩ := H.bdRead_heads hm
  rw [ctzTraverseLoop]
  cases cb data (addr (m + 1)) with
  | error err => rfl
  | ok data =>
    dsimp only [Except.bind]
    rw [if_neg m.succ_ne_zero, hread]
    dsimp only
    rw [hfirst]
    cases cb data (addr m) with
    | error err => rfl
    | ok data =>
      dsimp only
      split
      · rw [show m + 1 - (2 - (m + 1) % 2) = m by omega]
      · rw [hsecond (by omega), show m + 1 - (2 - (m + 1) % 2) = m - 1 by omega]

theorem ctzTraverseLoop_zero :
    ctzTraverseLoop d cb 0 head data = (cb data head).bind .ok := by
  rw [ctzTraverseLoop]
  cases cb data head with
  | error err => rfl
  | ok data => exact if_pos rfl

/-- From an even index on every block is reported once. -/
theorem ctzTraverseLoop_even (H : CtzList d n addr) (hm : 2 * m ≤ n) :
    ctzTraverseLoop d cb (2 * m) (addr (2 * m)) data =
      ((List.range (2 * m + 1)).reverse.map addr).foldlM cb data := by
  induction m generalizing data with
  | zero =>
    rw [Nat.mul_zero, ctzTraverseLoop_zero, reverse_range_succ]
    rfl
  | succ m ih =>
    have hcount : 2 * m + 1 + 1 - (2 - (2 * m + 1 + 1) % 2) = 2 * m := by omega
    rw [show 2 * (m + 1) = 2 * m + 1 + 1 by omega, H.ctzTraverseLoop_succ (by omega), hcount,
      reverse_range_succ, reverse_range_succ, List.foldlM_cons]
    refine congrArg _ (funext fun data => ?_)
    rw [List.foldlM_cons]
    exact congrArg _ (funext fun data => ih (by omega))

/-- From an odd index on the block before it is reported twice. -/
theorem ctzTraverseLoop_odd (H : CtzList d n addr) (hm : 2 * m + 1 ≤ n) :
    ctzTraverseLoop d cb (2 * m + 1) (addr (2 * m + 1)) data =
      (addr (2 * m + 1) :: addr (2 * m) ::
        (List.range (2 * m + 1)).reverse.map addr).foldlM cb data := by
  have hcount : 2 * m + 1 - (2 - (2 * m + 1) % 2) = 2 * m := by omega
  rw [H.ctzTraverseLoop_succ hm, hcount, List.foldlM_cons]
  refine congrArg _ (funext fun data => ?_)
  rw [List.foldlM_cons]
  exact congrArg _ (funext fun data => H.ctzTraverseLoop_even (by omega))

end CtzList

theorem foldlM_fsSizeCount (blocks : List Nat) (count : Nat) :
    blocks.foldlM CtzDisk.fsSizeCount count = .ok (count + blocks.length) := by
  induction blocks generalizing count with
  | nil => rfl
  | cons block blocks ih =>
    rw [List.foldlM_cons, List.length_cons, Nat.add_comm blocks.length, ← Nat.add_assoc]
    exact ih (count + 1)

theorem ctzTraverse_even {d : CtzDisk} {addr : Nat → Nat}
    (H : size ≠ 0 → CtzList d (ctzIndex d.blockSize (size - 1)).1 addr)
    (heven : size = 0 ∨ (ctzIndex d.blockSize (size - 1)).1 % 2 = 0)
    (cb : σ → Nat → Except Int σ) (data : σ) :
    CtzDisk.ctzTraverse d cb (addr (ctzIndex d.blockSize (size - 1)).1) size data =
      (ctzBlocks d size addr).foldlM cb data := by
  rw [CtzDisk.ctzTraverse, ctzBlocks]
  by_cases hsize : size = 0
  · rw [if_pos hsize, if_pos hsize]
    rfl
  · obtain ⟨m, hm⟩ : ∃ m, (ctzIndex d.blockSize (size - 1)).1 = 2 * m :=
      ⟨_, (Nat.mul_div_cancel' (Nat.dvd_of_mod_eq_zero (heven.resolve_left hsize))).symm⟩
    have H := H hsize
    rw [hm] at H
    rw [if_neg hsize, if_neg hsize, hm, H.ctzTraverseLoop_even (Nat.le_refl _)]

/-- The list of a head with an odd index counts one block too many. -/
theorem ctzTraverse_odd {d : CtzDisk} {addr : Nat → Nat} (hsize : size ≠ 0)
    (H : CtzList d (ctzIndex d.blockSize (size - 1)).1 addr)
    (hodd : (ctzIndex d.blockSize (size - 1)).1 % 2 ≠ 0) (count : Nat) :
    CtzDisk.ctzTraverse d CtzDisk.fsSizeCount (addr (ctzIndex d.blockSize (size - 1)).1) size
        count = .ok (count + (ctzBlocks d size addr).length + 1) := by
  rw [CtzDisk.ctzTraverse, ctzBlocks, if_neg hsize, if_neg hsize]
  generalize (ctzIndex d.blockSize (size - 1)).1 = n at H hodd
  obtain ⟨m, rfl⟩ : ∃ m, n = 2 * m + 1 := ⟨n / 2, by omega⟩
  rw [H.ctzTraverseLoop_odd (Nat.le_refl _), foldlM_fsSizeCount]
  simp only [List.length_cons, List.length_map, List.length_reverse, List.length_range]
  rfl

/-- **The visit of a list.** For every callback `lfs_ctz_traverse` reports each block once, from
the head to block 0, if and only if the list is empty or the index of its head is even; and only
then `lfs_fs_size_count` counts its blocks. -/
theorem ctzTraverse_once_iff {d : CtzDisk} {addr : Nat → Nat} (size count : Nat)
    (H : size ≠ 0 → CtzList d (ctzIndex d.blockSize (size - 1)).1 addr) :
    ((∀ (σ : Type) (cb : σ → Nat → Except Int σ) (data : σ),
        CtzDisk.ctzTraverse d cb (addr (ctzIndex d.blockSize (size - 1)).1) size data =
          (ctzBlocks d size addr).foldlM cb data) ↔
      size = 0 ∨ (ctzIndex d.blockSize (size - 1)).1 % 2 = 0) ∧
    (CtzDisk.ctzTraverse d CtzDisk.fsSizeCount (addr (ctzIndex d.blockSize (size - 1)).1) size
        count = .ok (count + (ctzBlocks d size addr).length) ↔
      size = 0 ∨ (ctzIndex d.blockSize (size - 1)).1 % 2 = 0) := by
  have hcount : CtzDisk.ctzTraverse d CtzDisk.fsSizeCount
      (addr (ctzIndex d.blockSize (size - 1)).1) size count =
        .ok (count + (ctzBlocks d size addr).length) →
      size = 0 ∨ (ctzIndex d.blockSize (size - 1)).1 % 2 = 0 := by
    intro h
    by_contra hnot
    obtain ⟨hsize, hodd⟩ := not_or.mp hnot
    rw [ctzTraverse_odd hsize (H hsize) hodd] at h
    have := Except.ok.inj h
    omega
  refine ⟨⟨fun h => hcount ?_, fun h _ cb data => ctzTraverse_even H h cb data⟩,
    hcount, fun h => ?_⟩
  · rw [h Nat CtzDisk.fsSizeCount count, foldlM_fsSizeCount]
  · rw [ctzTraverse_even H h, foldlM_fsSizeCount]

theorem skipDisk_small (size : Nat) (h : (ctzIndex 64 (size - 1)).1 < 2 ^ 2) :
    CtzList (CtzList.skipDisk 64 8) (ctzIndex (CtzList.skipDisk 64 8).blockSize (size - 1)).1 id :=
  CtzList.skipDisk_list (by decide) (h.trans (by decide)) (Room.of_lt h (by decide))

/-- A file of three blocks. -/
theorem ctzTraverse_once_skipDisk :
    CtzDisk.ctzTraverse (CtzList.skipDisk 64 8) CtzDisk.fsSizeCount 2 130 0 = .ok 3 := by
  have h := (ctzTraverse_once_iff 130 0 fun _ => skipDisk_small 130 (by decide +kernel)).2.mpr
    (.inr (by decide +kernel))
  have hindex : (ctzIndex (CtzList.skipDisk 64 8).blockSize (130 - 1)).1 = 2 := by decide +kernel
  simpa [ctzBlocks, hindex] using h

/-- A file of two blocks counts as three. -/
theorem ctzTraverse_twice :
    ¬ ∀ (d : CtzDisk) (addr : Nat → Nat) (size : Nat),
      (size ≠ 0 → CtzList d (ctzIndex d.blockSize (size - 1)).1 addr) →
      ∀ (σ : Type) (cb : σ → Nat → Except Int σ) (data : σ),
        CtzDisk.ctzTraverse d cb (addr (ctzIndex d.blockSize (size - 1)).1) size data =
          (ctzBlocks d size addr).foldlM cb data := by
  intro h
  have H := skipDisk_small 100 (by decide +kernel)
  have hvisit := h _ id 100 (fun _ => H) Nat CtzDisk.fsSizeCount 0
  rw [ctzTraverse_odd (by decide) H (by decide +kernel), foldlM_fsSizeCount] at hvisit
  have := Except.ok.inj hvisit
  omega

end LittleFs
