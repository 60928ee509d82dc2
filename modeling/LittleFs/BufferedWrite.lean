import LittleFs.Lib.Pieces
import LittleFs.RawDevice
import LittleFs.WriteCache

/-! Writes at consecutive offsets of one block, through the write cache: the windows that
`lfs_bd_flush` programs, and what is then on the device.

The device reports no errors: each program succeeds, and its bytes are read back. -/

namespace LittleFs

open Pieces (Piece joined)
open Segments (Consecutive)
open WriteWindow (Event)

/-! ## The run -/

/-- A call of `lfs_bd_write`. -/
structure WriteCall where
  validate : Bool
  bytes : List UInt8
  deriving DecidableEq, Repr

/-- What the calls write. -/
def writtenBytes (calls : List WriteCall) : List UInt8 := calls.flatMap (·.bytes)

/-- Calls at consecutive offsets of a block. -/
def Io.writeCalls (cfg : CacheConfig) (block : Nat) :
    (offset : Nat) → List WriteCall → Io → Int × Io
  | _, [], s => (errOk, s)
  | offset, call :: calls, s =>
    let (err, s) := s.write cfg call.validate block offset call.bytes
    if err ≠ errOk then (err, s)
    else Io.writeCalls cfg block (offset + call.bytes.length) calls s

/-- The calls and `lfs_bd_flush` behind them. -/
def Io.writeAndFlush (cfg : CacheConfig) (block start : Nat) (calls : List WriteCall)
    (validate : Bool) (s : Io) : Int × Io :=
  let (err, s) := s.writeCalls cfg block start calls
  if err ≠ errOk then (err, s) else s.flush cfg validate

/-- A call of `lfs_bd_rawprog`. -/
structure Program where
  block : Nat
  offset : Nat
  bytes : List UInt8
  deriving DecidableEq, Repr

def Program.piece (p : Program) : Piece := (p.offset, p.bytes)

/-- The programs of a run, oldest first. -/
def programsOf : List (Event Nat UInt8) → List Program
  | [] => []
  | .programmed block offset bytes :: pre => programsOf pre ++ [⟨block, offset, bytes⟩]
  | .opened _ :: pre => programsOf pre
  | .put .. :: pre => programsOf pre
  | .emptied :: pre => programsOf pre

/-- The ranges of the programs. -/
def programSpans (programs : List Program) : List (Nat × Nat) :=
  programs.map fun p => Pieces.span p.piece

/-- `lfs_bd_rawprog` for each of the programs. -/
def programAll (g : Geometry) : List Program → EraseBlocks → Option (Transferred EraseBlocks)
  | [], d => some ⟨errOk, [], d⟩
  | p :: programs, d =>
    match bdRawprog g EraseBlocks.write p.block p.offset p.bytes d with
    | none => none
    | some t =>
      if t.err ≠ errOk then some t
      else (programAll g programs t.state).map fun t' =>
        { t' with requests := t.requests ++ t'.requests }

/-! ## What the cache and the programs hold -/

/-- Each program that is asked for succeeds and is read back. -/
def Io.Reliable (s : Io) : Prop := ∀ r ∈ s.programs, r = (errOk, true)

/-- The window at `front` is open, with `held` from its start on. -/
structure Io.Holds (block front : Nat) (held : List UInt8) (s : Io) : Prop where
  block : s.cache.block = some block
  offset : s.cache.offset = front
  size : s.cache.size = held.length
  buffer : ByteImage.read s.cache.buffer 0 held.length = held

/-- `done` is programmed from `start` on in whole windows, `held` is in the cache behind it. -/
structure Io.Gathers (cfg : CacheConfig) (block start : Nat) (done held : List UInt8) (s : Io) :
    Prop where
  reliable : s.Reliable
  spans : Consecutive start (start + done.length) (programSpans (programsOf s.trace))
  target : ∀ p ∈ programsOf s.trace, p.block = block ∧ cfg.cacheSize ∣ p.offset ∧
    p.bytes.length = cfg.cacheSize
  bytes : joined ((programsOf s.trace).map Program.piece) = done
  windows : cfg.cacheSize ∣ done.length
  cache : s.cache.block = none ∧ held = [] ∨ s.Holds block (start + done.length) held

section
variable {cfg : CacheConfig} {s : Io} {block start offset : Nat} {done held bytes : List UInt8}

/-- The state in which a flush leaves an open window. -/
def Io.programmed (cfg : CacheConfig) (block : Nat) (s : Io) : Io := Io.zero { s with
  programs := s.programs.tail
  trace := .programmed block s.cache.offset
    (ByteImage.read s.cache.buffer 0 (alignup s.cache.size cfg.writeSize)) :: s.trace }

theorem Io.Reliable.flush (H : s.Reliable) (cfg : CacheConfig) (validate : Bool)
    (hblock : s.cache.block = some block) :
    s.flush cfg validate = (errOk, s.programmed cfg block) := by
  have hanswer : s.programs.headD (errOk, true) = (errOk, true) := by
    cases hs : s.programs with
    | nil => rfl
    | cons r rest => exact H r (by rw [hs]; exact List.mem_cons_self)
  have hback : ¬ (validate = true ∧ (errOk, true).2 = false) := fun h => absurd h.2 (by decide)
  rw [Io.flush, hblock]
  dsimp only
  rw [hanswer, if_neg (not_not.mpr rfl), if_neg hback]
  rfl

theorem Io.Reliable.programmed (H : s.Reliable) : (s.programmed cfg block).Reliable :=
  fun r hr => H r (List.mem_of_mem_tail hr)

theorem programsOf_programmed (cfg : CacheConfig) (block : Nat) (s : Io) :
    programsOf (s.programmed cfg block).trace = programsOf s.trace ++
      [⟨block, s.cache.offset,
        ByteImage.read s.cache.buffer 0 (alignup s.cache.size cfg.writeSize)⟩] := rfl

theorem programSpans_append (ps qs : List Program) :
    programSpans (ps ++ qs) = programSpans ps ++ programSpans qs := List.map_append ..

/-- A window of whole units is programmed as it is. -/
theorem alignup_of_dvd (h : 0 < n) (hdvd : n ∣ a) : alignup a n = a :=
  Nat.le_antisymm (alignup_le hdvd h (Nat.le_refl a)) (le_alignup a h)

theorem Io.Gathers.opened (hcfg : cfg.Ok) (hstart : cfg.cacheSize ∣ start)
    (H : s.Gathers cfg block start done []) :
    (s.opened cfg block (start + done.length)).Gathers cfg block start done [] where
  reliable := H.reliable
  spans := H.spans
  target := H.target
  bytes := H.bytes
  windows := H.windows
  cache := .inr {
    block := rfl
    offset := Nat.div_mul_cancel (hcfg.dvd.trans (Nat.dvd_add hstart H.windows))
    size := rfl
    buffer := rfl }

theorem Io.Holds.put {front : Nat} (H : s.Holds block front held) (bytes : List UInt8) :
    (s.put block (front + held.length) bytes).Holds block front (held ++ bytes) where
  block := H.block
  offset := H.offset
  size := by
    change max s.cache.size (front + held.length + bytes.length - s.cache.offset) = _
    rw [H.size, H.offset, List.length_append]
    omega
  buffer := by
    have hoffset : front + held.length - s.cache.offset = held.length := by rw [H.offset]; omega
    change ByteImage.read (ByteImage.write s.cache.buffer (front + held.length - s.cache.offset)
      bytes) 0 (held ++ bytes).length = held ++ bytes
    have hkeep := ByteImage.agreeBelow_write s.cache.buffer held.length bytes
    rw [hoffset, List.length_append, ByteImage.read_append, hkeep.read_eq (by omega), H.buffer,
      Nat.zero_add, ByteImage.read_write]

theorem Io.Gathers.put (H : s.Gathers cfg block start done held)
    (hholds : s.Holds block (start + done.length) held) (bytes : List UInt8) :
    (s.put block (start + (done ++ held).length) bytes).Gathers cfg block start done
      (held ++ bytes) where
  reliable := H.reliable
  spans := H.spans
  target := H.target
  bytes := H.bytes
  windows := H.windows
  cache := .inr (by
    rw [List.length_append, ← Nat.add_assoc]
    exact hholds.put bytes)

/-- A full window is programmed. -/
theorem Io.Gathers.full (hcfg : cfg.Ok) (hstart : cfg.cacheSize ∣ start)
    (H : s.Gathers cfg block start done held) (hholds : s.Holds block (start + done.length) held)
    (hfull : held.length = cfg.cacheSize) :
    (s.programmed cfg block).Gathers cfg block start (done ++ held) [] := by
  have hbuffer : ByteImage.read s.cache.buffer 0 (alignup s.cache.size cfg.writeSize) = held := by
    rw [hholds.size, alignup_of_dvd hcfg.writeSize (hfull ▸ hcfg.dvd), hholds.buffer]
  have hprograms : programsOf (s.programmed cfg block).trace =
      programsOf s.trace ++ [⟨block, start + done.length, held⟩] := by
    rw [programsOf_programmed, hbuffer, hholds.offset]
  refine ⟨H.reliable.programmed, ?_, ?_, ?_, ?_, .inl ⟨rfl, rfl⟩⟩
  · rw [hprograms, programSpans_append, List.length_append, ← Nat.add_assoc]
    exact H.spans.append ⟨rfl, Nat.le_add_right .., rfl⟩
  · intro p hp
    rw [hprograms, List.mem_append, List.mem_singleton] at hp
    obtain hp | rfl := hp
    · exact H.target p hp
    · exact ⟨rfl, Nat.dvd_add hstart H.windows, hfull⟩
  · rw [hprograms, List.map_append, Pieces.joined_append, H.bytes]
    exact congrArg (done ++ ·) (Pieces.joined_singleton _)
  · rw [List.length_append, hfull]
    exact Nat.dvd_add H.windows (Nat.dvd_refl _)

/-- A round of the loop of `lfs_bd_write` on an open window puts a part of the bytes. -/
theorem Io.Gathers.round (hcfg : cfg.Ok) (hstart : cfg.cacheSize ∣ start) (validate : Bool)
    (fuel : Nat) (H : s.Gathers cfg block start done held)
    (hholds : s.Holds block (start + done.length) held) (hlt : held.length < cfg.cacheSize)
    (hnil : bytes ≠ []) :
    ∃ (part rest done' held' : List UInt8) (s' : Io), bytes = part ++ rest ∧ part ≠ [] ∧
      s.writeLoop cfg validate block (fuel + 1) (start + (done ++ held).length) bytes =
        s'.writeLoop cfg validate block fuel (start + (done' ++ held').length) rest ∧
      s'.Gathers cfg block start done' held' ∧ held'.length < cfg.cacheSize ∧
      done' ++ held' = done ++ held ++ part := by
  have hpos := List.length_pos_iff.mpr hnil
  have hlen : (done ++ held).length = done.length + held.length := List.length_append
  have hoffset := hholds.offset
  obtain ⟨diff, hdiff⟩ : ∃ diff, min bytes.length
      (cfg.cacheSize - (start + (done ++ held).length - s.cache.offset)) = diff := ⟨_, rfl⟩
  have hfits : s.cache.block = some block ∧ s.cache.offset ≤ start + (done ++ held).length ∧
      start + (done ++ held).length < s.cache.offset + cfg.cacheSize :=
    ⟨hholds.block, by omega, by omega⟩
  obtain ⟨part, hpart⟩ : ∃ part, bytes.take diff = part := ⟨_, rfl⟩
  have hpartLen : part.length = diff := by rw [← hpart, List.length_take]; omega
  have hpartNil : part ≠ [] := List.ne_nil_of_length_pos (by omega)
  have hsplit : bytes = part ++ bytes.drop diff := by rw [← hpart, List.take_append_drop]
  have hjoined : done ++ (held ++ part) = done ++ held ++ part := (List.append_assoc ..).symm
  have hnext : start + (done ++ held).length + diff = start + (done ++ held ++ part).length := by
    have hadd : (done ++ held ++ part).length = (done ++ held).length + part.length :=
      List.length_append
    omega
  have hput := H.put hholds part
  have hheld : (s.put block (start + (done ++ held).length) part).Holds block
      (start + done.length) (held ++ part) := by
    rw [hlen, ← Nat.add_assoc]
    exact hholds.put part
  have hsize := hheld.size
  have hheldLen : (held ++ part).length = held.length + diff := by
    rw [List.length_append, hpartLen]
  rw [Io.writeLoop, if_neg hnil, if_pos hfits]
  dsimp only
  rw [hdiff, hpart]
  by_cases hfull : (held ++ part).length = cfg.cacheSize
  · have hflush := hput.reliable.flush cfg validate hheld.block
    refine ⟨part, bytes.drop diff, done ++ (held ++ part), [], _, hsplit, hpartNil, ?_,
      hput.full hcfg hstart hheld hfull, hcfg.cacheSize, ?_⟩
    · rw [if_pos (hsize.trans hfull), hflush]
      dsimp only
      rw [if_neg (not_not.mpr rfl), List.append_nil, hjoined, hnext]
    · rw [List.append_nil, hjoined]
  · refine ⟨part, bytes.drop diff, done, held ++ part, _, hsplit, hpartNil, ?_, hput, by omega,
      hjoined⟩
    rw [if_neg fun h => hfull (hsize.symm.trans h), hjoined, hnext]

/-- The loop of `lfs_bd_write` gathers its bytes behind those before. -/
theorem Io.Gathers.writeLoop (hcfg : cfg.Ok) (hstart : cfg.cacheSize ∣ start) (validate : Bool)
    (H : s.Gathers cfg block start done held) (hlt : held.length < cfg.cacheSize)
    (hfuel : 2 * bytes.length ≤ fuel + 1)
    (hempty : s.cache.block = none → 2 * bytes.length ≤ fuel) :
    ∃ (done' held' : List UInt8) (s' : Io),
      s.writeLoop cfg validate block fuel (start + (done ++ held).length) bytes = (errOk, s') ∧
      s'.Gathers cfg block start done' held' ∧ held'.length < cfg.cacheSize ∧
      done' ++ held' = done ++ held ++ bytes := by
  induction fuel generalizing s done held bytes with
  | zero =>
    obtain rfl : bytes = [] := List.eq_nil_of_length_eq_zero (by omega)
    exact ⟨done, held, s, rfl, H, hlt, (List.append_nil _).symm⟩
  | succ fuel ih =>
    by_cases hnil : bytes = []
    · subst hnil
      exact ⟨done, held, s, Io.writeLoop_nil .., H, hlt, (List.append_nil _).symm⟩
    · have hpos := List.length_pos_iff.mpr hnil
      obtain ⟨hnone, rfl⟩ | hholds := H.cache
      · have hclosed : ¬ (s.cache.block = some block ∧
            s.cache.offset ≤ start + (done ++ []).length ∧
            start + (done ++ []).length < s.cache.offset + cfg.cacheSize) := fun h => by
          rw [hnone] at h
          cases h.1
        rw [Io.writeLoop, if_neg hnil, if_neg hclosed]
        rw [List.append_nil] at *
        have hopened := H.opened hcfg hstart
        have hfuel' := hempty hnone
        have hrest := ih hopened hlt hfuel' fun h => by cases h
        rwa [List.append_nil] at hrest
      · obtain ⟨part, rest, done', held', s', rfl, hpart, hround, H', hlt', hjoined⟩ :=
          H.round hcfg hstart validate fuel hholds hlt hnil
        have hpartPos := List.length_pos_iff.mpr hpart
        rw [List.length_append] at hfuel
        obtain ⟨done'', held'', s'', hloop, H'', hlt'', hjoined'⟩ :=
          ih H' hlt' (by omega) fun _ => (by omega : 2 * rest.length ≤ fuel)
        refine ⟨done'', held'', s'', hround.trans hloop, H'', hlt'', ?_⟩
        rw [hjoined', hjoined, List.append_assoc]

theorem Io.Gathers.write (hcfg : cfg.Ok) (hstart : cfg.cacheSize ∣ start) (validate : Bool)
    (bytes : List UInt8) (H : s.Gathers cfg block start done held)
    (hlt : held.length < cfg.cacheSize) :
    ∃ (done' held' : List UInt8) (s' : Io),
      s.write cfg validate block (start + (done ++ held).length) bytes = (errOk, s') ∧
      s'.Gathers cfg block start done' held' ∧ held'.length < cfg.cacheSize ∧
      done' ++ held' = done ++ held ++ bytes :=
  H.writeLoop hcfg hstart validate hlt (Nat.le_add_right _ 2) fun _ => Nat.le_succ _

/-- The calls gather what they write. -/
theorem Io.Gathers.writeCalls (hcfg : cfg.Ok) (hstart : cfg.cacheSize ∣ start)
    (calls : List WriteCall) (H : s.Gathers cfg block start done held)
    (hlt : held.length < cfg.cacheSize) :
    ∃ (done' held' : List UInt8) (s' : Io),
      s.writeCalls cfg block (start + (done ++ held).length) calls = (errOk, s') ∧
      s'.Gathers cfg block start done' held' ∧ held'.length < cfg.cacheSize ∧
      done' ++ held' = done ++ held ++ writtenBytes calls := by
  induction calls generalizing s done held with
  | nil => exact ⟨done, held, s, rfl, H, hlt, (List.append_nil _).symm⟩
  | cons call calls ih =>
    obtain ⟨done', held', s', hwrite, H', hlt', hjoined⟩ :=
      H.write hcfg hstart call.validate call.bytes hlt
    obtain ⟨done'', held'', s'', hcalls, H'', hlt'', hjoined'⟩ := ih H' hlt'
    refine ⟨done'', held'', s'', ?_, H'', hlt'', ?_⟩
    · have hnext : start + (done ++ held).length + call.bytes.length =
          start + (done' ++ held').length := by
        have hadd : (done ++ held ++ call.bytes).length =
            (done ++ held).length + call.bytes.length := List.length_append
        rw [hjoined, hadd, Nat.add_assoc]
      rw [Io.writeCalls, hwrite]
      dsimp only
      rw [if_neg (not_not.mpr rfl), hnext]
      exact hcalls
    · have hwritten : writtenBytes (call :: calls) = call.bytes ++ writtenBytes calls :=
        List.flatMap_cons ..
      rw [hjoined', hjoined, hwritten, List.append_assoc]

theorem alignup_add (h : 0 < n) (hdvd : n ∣ m) (a : Nat) : alignup (m + a) n = m + alignup a n := by
  obtain ⟨k, rfl⟩ := hdvd
  have hsum : n * k + a + n - 1 = n * k + (a + n - 1) := by omega
  rw [alignup, alignup, hsum, Nat.mul_add_div h, Nat.add_mul, Nat.mul_comm k]

end

/-! ## The programs of a run -/

/-- The programs write the data from `start` on, in order, each byte once and in whole program
units within one window each; behind the data they fill up the last unit. -/
structure ProgramsExactly (cfg : CacheConfig) (block start : Nat) (data : List UInt8)
    (programs : List Program) : Prop where
  target : ∀ p ∈ programs, p.block = block
  aligned : ∀ p ∈ programs, cfg.writeSize ∣ p.offset ∧ cfg.writeSize ∣ p.bytes.length
  window : ∀ p ∈ programs, cfg.cacheSize ∣ p.offset ∧ p.bytes.length ≤ cfg.cacheSize
  spans : Consecutive start (start + alignup data.length cfg.writeSize) (programSpans programs)
  inside : start + alignup data.length cfg.writeSize ≤ cfg.blockSize
  increasing : programs.Pairwise fun p p' => p.offset + p.bytes.length ≤ p'.offset
  once : ∀ i, Segments.holding i (programSpans programs) ≤ 1
  bytes : ∃ pad, joined (programs.map Program.piece) = data ++ pad

section
variable {cfg : CacheConfig} {s : Io} {block start : Nat} {done held data : List UInt8}
  {programs : List Program}

/-- Programs of windows one behind the other are in order, and none meets another. -/
theorem ProgramsExactly.of_spans (hcfg : cfg.Ok) (hcache : cfg.cacheSize ∣ cfg.blockSize)
    (hstart : cfg.cacheSize ∣ start) (hin : start + data.length ≤ cfg.blockSize)
    (hspans : Consecutive start (start + alignup data.length cfg.writeSize) (programSpans programs))
    (htarget : ∀ p ∈ programs, p.block = block ∧ cfg.cacheSize ∣ p.offset ∧
      p.bytes.length ≤ cfg.cacheSize ∧ cfg.writeSize ∣ p.bytes.length)
    (hbytes : ∃ pad, joined (programs.map Program.piece) = data ++ pad) :
    ProgramsExactly cfg block start data programs where
  target p hp := (htarget p hp).1
  aligned p hp := ⟨hcfg.dvd.trans (htarget p hp).2.1, (htarget p hp).2.2.2⟩
  window p hp := ⟨(htarget p hp).2.1, (htarget p hp).2.2.1⟩
  spans := hspans
  inside := by
    rw [← alignup_add hcfg.writeSize (hcfg.dvd.trans hstart)]
    exact alignup_le (hcfg.dvd.trans hcache) hcfg.writeSize hin
  increasing := List.pairwise_map.mp hspans.pairwise
  once i := by
    rw [hspans.holding_eq]
    split <;> omega
  bytes := hbytes

/-- The last flush programs what the cache still holds. -/
theorem Io.Gathers.flush (hcfg : cfg.Ok) (hcache : cfg.cacheSize ∣ cfg.blockSize)
    (hstart : cfg.cacheSize ∣ start) (validate : Bool) (H : s.Gathers cfg block start done held)
    (hlt : held.length < cfg.cacheSize) (hin : start + (done ++ held).length ≤ cfg.blockSize) :
    ∃ s', s.flush cfg validate = (errOk, s') ∧ s'.cache.block = none ∧
      ProgramsExactly cfg block start (done ++ held) (programsOf s'.trace) := by
  have hunits : alignup (done ++ held).length cfg.writeSize =
      done.length + alignup held.length cfg.writeSize := by
    rw [List.length_append, alignup_add hcfg.writeSize (hcfg.dvd.trans H.windows)]
  have htarget : ∀ p ∈ programsOf s.trace, p.block = block ∧ cfg.cacheSize ∣ p.offset ∧
      p.bytes.length ≤ cfg.cacheSize ∧ cfg.writeSize ∣ p.bytes.length := fun p hp => by
    obtain ⟨hblock, hoffset, hsize⟩ := H.target p hp
    exact ⟨hblock, hoffset, hsize.le, hsize ▸ hcfg.dvd⟩
  obtain ⟨hnone, rfl⟩ | hholds := H.cache
  · refine ⟨s, by rw [Io.flush, hnone], hnone, .of_spans hcfg hcache hstart hin ?_ htarget ?_⟩
    · rw [hunits, List.length_nil, alignup_of_dvd hcfg.writeSize (Nat.dvd_zero _)]
      exact H.spans
    · exact ⟨[], by rw [H.bytes, List.append_nil, List.append_nil]⟩
  · have hle := le_alignup held.length hcfg.writeSize
    obtain ⟨pad, hpad⟩ : ∃ pad, ByteImage.read s.cache.buffer 0
        (alignup s.cache.size cfg.writeSize) = held ++ pad := by
      obtain ⟨k, hk⟩ := Nat.exists_eq_add_of_le hle
      rw [hholds.size, hk, ByteImage.read_append, hholds.buffer]
      exact ⟨_, rfl⟩
    have hlen : (held ++ pad).length = alignup held.length cfg.writeSize := by
      rw [← hpad, ByteImage.length_read, hholds.size]
    have hprograms : programsOf (s.programmed cfg block).trace =
        programsOf s.trace ++ [⟨block, start + done.length, held ++ pad⟩] := by
      rw [programsOf_programmed, hpad, hholds.offset]
    refine ⟨_, H.reliable.flush cfg validate hholds.block, rfl,
      .of_spans hcfg hcache hstart hin ?_ ?_ ⟨pad, ?_⟩⟩
    · rw [hprograms, programSpans_append, hunits, ← Nat.add_assoc, ← hlen]
      exact H.spans.append ⟨rfl, Nat.le_add_right .., rfl⟩
    · intro p hp
      rw [hprograms, List.mem_append, List.mem_singleton] at hp
      obtain hp | rfl := hp
      · exact htarget p hp
      · refine ⟨rfl, Nat.dvd_add hstart H.windows, ?_, ?_⟩
        · exact hlen.le.trans (alignup_le hcfg.dvd hcfg.writeSize hlt.le)
        · exact hlen ▸ dvd_alignup ..
    · rw [hprograms, List.map_append, Pieces.joined_append, H.bytes, List.append_assoc]
      exact congrArg (done ++ ·) (Pieces.joined_singleton _)

end

/-! ## On the device -/

section
variable {g : Geometry} {block : Nat}

/-- The erase blocks one behind the other. -/
def EraseBlocks.flat (g : Geometry) (d : EraseBlocks) : ByteImage.Image := fun x =>
  d (x / g.eraseSize) (x % g.eraseSize)

/-- A range within one erase block, written where it stands on the device. -/
theorem EraseBlocks.flat_write (hg : g.Ok) {off : Nat} {bytes : List UInt8}
    (hone : off % g.eraseSize + bytes.length ≤ g.eraseSize) (d : EraseBlocks) :
    (EraseBlocks.write (g.physical block off bytes.length).block
      (g.physical block off bytes.length).off bytes d).2.flat g =
      ByteImage.write (d.flat g) (block * g.blockSize + off) bytes := by
  have hplace := g.physical_place hg block off bytes.length
  generalize hr : g.physical block off bytes.length = r at hplace
  have hoff : r.off = off % g.eraseSize := by rw [← hr]; rfl
  rw [Geometry.place] at hplace
  rw [← hplace]
  funext x
  have hdiv := Nat.div_add_mod x g.eraseSize
  have hmod := Nat.mod_lt x hg.eraseSize
  by_cases hx : x / g.eraseSize = r.block
  · rw [hx, Nat.mul_comm] at hdiv
    have hself : (EraseBlocks.write r.block r.off bytes d).2.flat g x =
        ByteImage.write (d r.block) r.off bytes (x % g.eraseSize) := by
      rw [EraseBlocks.flat, hx]
      exact congrFun (Function.update_self ..) _
    have hflat : d.flat g x = d r.block (x % g.eraseSize) := by rw [EraseBlocks.flat, hx]
    have hindex : x - (r.block * g.eraseSize + r.off) = x % g.eraseSize - r.off := by omega
    rw [hself, ByteImage.write, ByteImage.write, hflat, hindex]
    exact if_congr (by omega) rfl rfl
  · have hother : (EraseBlocks.write r.block r.off bytes d).2.flat g x = d.flat g x := by
      rw [EraseBlocks.flat]
      exact congrFun (Function.update_of_ne hx ..) _
    rw [hother]
    by_contra hne
    obtain ⟨hge, hlt⟩ := ByteImage.range_of_write_ne (Ne.symm hne)
    refine hx (Nat.div_eq_of_lt_le ?_ ?_)
    · omega
    · rw [Nat.succ_mul]
      omega

/-- A program where it stands on the device. -/
def Program.placed (g : Geometry) (p : Program) : Piece :=
  (p.block * g.blockSize + p.offset, p.bytes)

/-- What a request to the device is for. -/
def Request.InUnits (g : Geometry) (r : Request) : Prop :=
  r.off + r.size ≤ g.eraseSize ∧ g.writeSize ∣ r.off ∧ g.writeSize ∣ r.size

/-- What a program asks of a device without errors. -/
theorem bdRawprog_window (hg : g.Ok) {off : Nat} {bytes : List UInt8} (d : EraseBlocks)
    (hblock : block < g.blockCount) (hoff : g.cacheSize ∣ off) (hsize : bytes.length ≤ g.cacheSize)
    (hunits : g.writeSize ∣ bytes.length) (hin : off + bytes.length ≤ g.blockSize) :
    ∃ t, bdRawprog g EraseBlocks.write block off bytes d = some t ∧ t.err = errOk ∧
      t.state.flat g = ByteImage.write (d.flat g) (block * g.blockSize + off) bytes ∧
      (∀ r ∈ t.requests, r.InUnits g) ∧
      Consecutive (block * g.blockSize + off) (block * g.blockSize + off + bytes.length)
        (t.requests.map (·.span g)) := by
  have hmod := Nat.mod_eq_zero_of_dvd hunits
  -- a window does not cross erase blocks
  have hone : off % g.eraseSize + bytes.length ≤ g.eraseSize := by
    have hdvd : g.cacheSize ∣ off % g.eraseSize := (Nat.dvd_mod_iff hg.cacheSize_dvd).mpr hoff
    obtain ⟨k, hk⟩ := hdvd
    obtain ⟨n, hn⟩ := hg.cacheSize_dvd
    have hlt := Nat.mod_lt off hg.eraseSize
    have hkn : k < n := by
      rw [hk, hn] at hlt
      exact Nat.lt_of_mul_lt_mul_left hlt
    have hle := Nat.mul_le_mul_left g.cacheSize hkn
    rw [Nat.mul_succ] at hle
    omega
  rcases Nat.eq_zero_or_pos bytes.length with hzero | hpos
  · obtain rfl := List.eq_nil_of_length_eq_zero hzero
    refine ⟨⟨errOk, [], d⟩, ?_, rfl, (ByteImage.write_nil ..).symm,
      fun r hr => (List.not_mem_nil hr).elim, rfl⟩
    rw [bdRawprog, if_pos ⟨hblock, hin, hmod⟩]
    exact chunkLoop_zero (Nat.succ_pos _) rfl
  · refine ⟨_, bdRawprog_one EraseBlocks.write hpos hblock hin hmod hone rfl, rfl,
      EraseBlocks.flat_write hg hone d, fun r hr => ?_,
      (coversOnce_one hg hone).2⟩
    obtain rfl := List.mem_singleton.mp hr
    refine ⟨hone, ?_, hunits⟩
    exact (Nat.dvd_mod_iff (hg.writeSize_dvd.trans hg.cacheSize_dvd)).mpr
      (hg.writeSize_dvd.trans hoff)

/-- Programs one behind the other. -/
theorem programAll_spec (hg : g.Ok) (hblock : block < g.blockCount) {programs : List Program}
    {a b : Nat} (d : EraseBlocks) (hspans : Consecutive a b (programSpans programs))
    (hb : b ≤ g.blockSize)
    (htarget : ∀ p ∈ programs, p.block = block ∧ g.cacheSize ∣ p.offset ∧
      p.bytes.length ≤ g.cacheSize ∧ g.writeSize ∣ p.bytes.length) :
    ∃ t, programAll g programs d = some t ∧ t.err = errOk ∧
      t.state.flat g = Pieces.writeAll (d.flat g) (programs.map (·.placed g)) ∧
      (∀ r ∈ t.requests, r.InUnits g) ∧
      Consecutive (block * g.blockSize + a) (block * g.blockSize + b)
        (t.requests.map (·.span g)) := by
  induction programs generalizing a d with
  | nil =>
    obtain rfl : a = b := hspans
    exact ⟨⟨errOk, [], d⟩, rfl, rfl, rfl, fun r hr => (List.not_mem_nil hr).elim, rfl⟩
  | cons p programs ih =>
    obtain ⟨rfl, hle, hrest⟩ := hspans
    obtain ⟨rfl, hoff, hsize, hunits⟩ := htarget p List.mem_cons_self
    have hin : p.offset + p.bytes.length ≤ g.blockSize := hrest.le.trans hb
    obtain ⟨t, ht, herr, hstate, hrequests, hcovers⟩ :=
      bdRawprog_window hg d hblock hoff hsize hunits hin
    obtain ⟨t', ht', herr', hstate', hrequests', hcovers'⟩ :=
      ih t.state hrest fun q hq => htarget q (List.mem_cons_of_mem p hq)
    refine ⟨⟨t'.err, t.requests ++ t'.requests, t'.state⟩, ?_, herr', ?_, fun r hr => ?_, ?_⟩
    · rw [programAll, ht]
      dsimp only
      rw [if_neg (not_not.mpr herr), ht']
      rfl
    · rw [hstate', hstate]
      rfl
    · exact (List.mem_append.mp hr).elim (hrequests r) (hrequests' r)
    · have hnext : p.block * g.blockSize + (p.offset + p.bytes.length) =
          p.block * g.blockSize + p.offset + p.bytes.length := (Nat.add_assoc ..).symm
      rw [List.map_append]
      exact hcovers.append (hnext ▸ hcovers')

/-- The programs, done on a device: it holds the data, all else is as before, and its requests are
in whole units, in order and each byte once. -/
structure OnDevice (g : Geometry) (block start : Nat) (data : List UInt8) (d : EraseBlocks)
    (t : Transferred EraseBlocks) : Prop where
  ok : t.err = errOk
  holds : ByteImage.read (t.state.flat g) (block * g.blockSize + start) data.length = data
  rest : ∀ x, x < block * g.blockSize + start ∨
    block * g.blockSize + start + alignup data.length g.writeSize ≤ x →
      t.state.flat g x = d.flat g x
  units : ∀ r ∈ t.requests, r.InUnits g
  covers : Consecutive (block * g.blockSize + start)
    (block * g.blockSize + start + alignup data.length g.writeSize) (t.requests.map (·.span g))

/-- The geometry has the sizes of the settings. -/
structure Geometry.Fits (g : Geometry) (cfg : CacheConfig) : Prop where
  writeSize : g.writeSize = cfg.writeSize
  cacheSize : g.cacheSize = cfg.cacheSize
  blockSize : g.blockSize = cfg.blockSize
  blockCount : g.blockCount = cfg.blockCount

theorem ProgramsExactly.onDevice {cfg : CacheConfig} {start : Nat} {data : List UInt8}
    {programs : List Program} (H : ProgramsExactly cfg block start data programs) (hg : g.Ok)
    (hfits : g.Fits cfg) (hblock : block < cfg.blockCount) (d : EraseBlocks) :
    ∃ t, programAll g programs d = some t ∧ OnDevice g block start data d t := by
  have hspans := H.spans
  have hinside := H.inside
  rw [← hfits.writeSize] at hspans hinside
  rw [← hfits.blockSize] at hinside
  rw [← hfits.blockCount] at hblock
  obtain ⟨t, ht, herr, hstate, hunits, hcovers⟩ := programAll_spec hg hblock d hspans hinside
    fun p hp => ⟨H.target p hp, hfits.cacheSize ▸ (H.window p hp).1,
      hfits.cacheSize ▸ (H.window p hp).2, hfits.writeSize ▸ (H.aligned p hp).2⟩
  have hplaced : Consecutive (block * g.blockSize + start)
      (block * g.blockSize + (start + alignup data.length g.writeSize))
      ((programs.map (·.placed g)).map Pieces.span) := by
    have hmap := hspans.map fun _ _ h => Nat.add_le_add_left h (block * g.blockSize)
    rw [programSpans, List.map_map] at hmap
    rw [List.map_map]
    refine (List.map_congr_left fun p hp => ?_) ▸ hmap
    rw [Function.comp_apply, Function.comp_apply, Program.placed, H.target p hp]
    refine Prod.ext rfl ?_
    exact (Nat.add_assoc ..).symm
  have hjoined : joined (programs.map (·.placed g)) = joined (programs.map Program.piece) := by
    rw [joined, joined, List.flatMap_map, List.flatMap_map]
    rfl
  obtain ⟨pad, hpad⟩ := H.bytes
  rw [← Nat.add_assoc] at hplaced hcovers
  refine ⟨t, ht, herr, ?_, fun x hx => ?_, hunits, hcovers⟩
  · have hread := Pieces.read_writeAll hplaced (d.flat g)
    rw [hjoined, hpad, List.length_append, ByteImage.read_append, ← hstate] at hread
    exact (List.append_inj hread (ByteImage.length_read ..)).1
  · rw [hstate]
    obtain hx | hx := hx
    · exact Pieces.writeAll_of_lt hplaced _ hx
    · exact Pieces.writeAll_of_ge hplaced _ hx

end

/-! ## Faithful programming -/

/-- **Buffered writes.** Calls of any sizes at consecutive offsets from the start of a window on,
and a flush: the programs write the data, in order and each byte once, and the device then holds
it. -/
theorem bdWrite_faithful {cfg : CacheConfig} {block start : Nat} (hcfg : cfg.Ok)
    (hcache : cfg.cacheSize ∣ cfg.blockSize) (hblock : block < cfg.blockCount)
    (hstart : cfg.cacheSize ∣ start) (calls : List WriteCall) (validate : Bool)
    (hin : start + (writtenBytes calls).length ≤ cfg.blockSize) (cache : WriteCache)
    (hempty : cache.block = none) (programs : List (Int × Bool))
    (hdevice : ∀ r ∈ programs, r = (errOk, true)) :
    ∃ s', Io.writeAndFlush cfg block start calls validate ⟨cache, programs, []⟩ = (errOk, s') ∧
      s'.cache.block = none ∧
      ProgramsExactly cfg block start (writtenBytes calls) (programsOf s'.trace) ∧
      ∀ g : Geometry, g.Ok → g.Fits cfg → ∀ d : EraseBlocks,
        ∃ t, programAll g (programsOf s'.trace) d = some t ∧
          OnDevice g block start (writtenBytes calls) d t := by
  have H : Io.Gathers cfg block start [] [] ⟨cache, programs, []⟩ := {
    reliable := hdevice
    spans := rfl
    target := fun p hp => (List.not_mem_nil hp).elim
    bytes := rfl
    windows := Nat.dvd_zero _
    cache := .inl ⟨hempty, rfl⟩ }
  obtain ⟨done, held, s, hcalls, H', hlt, hjoined⟩ :=
    H.writeCalls hcfg hstart calls hcfg.cacheSize
  have hdata : done ++ held = writtenBytes calls := hjoined
  obtain ⟨s', hflush, hnone, hprograms⟩ :=
    H'.flush hcfg hcache hstart validate hlt (by rw [hdata]; exact hin)
  rw [hdata] at hprograms
  refine ⟨s', ?_, hnone, hprograms, fun g hg hfits d => hprograms.onDevice hg hfits hblock d⟩
  have hstarted : Io.writeCalls cfg block start calls ⟨cache, programs, []⟩ = (errOk, s) := hcalls
  rw [Io.writeAndFlush, hstarted]
  dsimp only
  rw [if_neg (not_not.mpr rfl), hflush]

/-- Two writes that end within the second window of a block of two. -/
theorem bdWrite_faithful_small :
    ∃ s', Io.writeAndFlush ⟨⟨16, 3, 4, 0⟩, 8⟩ 1 0 [⟨true, [1, 2, 3, 4, 5]⟩, ⟨false, [6, 7, 8, 9]⟩]
        true ⟨{}, [(errOk, true)], []⟩ = (errOk, s') ∧
      s'.cache.block = none ∧
      ProgramsExactly ⟨⟨16, 3, 4, 0⟩, 8⟩ 1 0
        (writtenBytes [⟨true, [1, 2, 3, 4, 5]⟩, ⟨false, [6, 7, 8, 9]⟩]) (programsOf s'.trace) ∧
      ∀ g : Geometry, g.Ok → g.Fits ⟨⟨16, 3, 4, 0⟩, 8⟩ → ∀ d : EraseBlocks,
        ∃ t, programAll g (programsOf s'.trace) d = some t ∧
          OnDevice g 1 0 (writtenBytes [⟨true, [1, 2, 3, 4, 5]⟩, ⟨false, [6, 7, 8, 9]⟩]) d t :=
  bdWrite_faithful ⟨by decide, by decide, by decide⟩ (by decide) (by decide) (by decide) _ true
    (by decide) {} rfl [(errOk, true)] (by decide)

end LittleFs
