import LittleFs.WriteCache

/-! The write cache over whole calls of `lfs_dir_commit`: the append, the compaction it falls back
to with its splits and relocations, the commits that fix up a relocated pair, the files that are
evicted, and the growth of the file system that an allocation may start, which commits in turn.

What the code reads is left open: which pairs a call goes to, whether a pair is split, moved or
dropped, and what a lookup finds. -/

namespace LittleFs

open WriteWindow (Disciplined)

/-! ## The calls -/

/-- The functions that a commit consists of. `super` says that the pair is the one of the
superblock, `tired` that the compaction relocates for wear. -/
inductive Call where
  | alloc
  /-- `lfs_dir_compact`, its loop and its label `relocate`. -/
  | compact (super : Bool)
  | compactLoop (super tired relocated : Bool)
  | relocate (super tired : Bool)
  | split
  /-- `lfs_dir_splittingcompact`, and what it does after the splits. -/
  | splittingcompact (super : Bool)
  | expand (super : Bool)
  | relocatingCommit (super : Bool)
  | fileRelocate
  | fileFlush
  /-- The eviction of an inline file. -/
  | evict
  | orphaningCommit
  /-- The loop of `lfs_dir_orphaning_commit`, and its second half. -/
  | relocations (orphans : Bool) (state : Int)
  | pred (orphans : Bool)
  | deorphan
  | commit

/-- `Exec cfg A call s r s'`: from `s` the call may return `r` and leave `s'`, all its attempts to
write a block meeting `A`. -/
inductive Exec (cfg : CacheConfig) (A : Attempt → Prop) : Call → Io → Int → Io → Prop where
  /-- A free block, no more free space, or a failed traversal. -/
  | alloc (h : r ≤ 0) : Exec cfg A .alloc s r s
  /-- The callback for a new block has `lfs_fs_rawgrow` commit, and ignores what that returns. -/
  | allocGrow (hgrow : Exec cfg A .commit s r s₁) (h : Exec cfg A .alloc s₁ r' s') :
    Exec cfg A .alloc s r' s'
  | compactTired (h : Exec cfg A (.relocate false true) s.drop r s') :
    Exec cfg A (.compact false) s r s'
  | compact (htired : tired = true → super = true)
    (h : Exec cfg A (.compactLoop super tired false) s r s') : Exec cfg A (.compact super) s r s'
  | compactErase (h : err ≠ errOk ∧ err ≠ errCorrupt) :
    Exec cfg A (.compactLoop super tired relocated) s err s
  | compactEraseCorrupt (h : Exec cfg A (.relocate super tired) s.drop r s') :
    Exec cfg A (.compactLoop super tired relocated) s r s'
  | compactOk (ha : A (.compact revision input))
    (h : (Attempt.compact revision input).run cfg s = (errOk, s')) :
    Exec cfg A (.compactLoop super tired relocated) s (if relocated then okRelocated else errOk) s'
  | compactCorrupt (ha : A (.compact revision input))
    (h : (Attempt.compact revision input).run cfg s = (errCorrupt, s₁))
    (hrelocate : Exec cfg A (.relocate super tired) s₁.drop r s') :
    Exec cfg A (.compactLoop super tired relocated) s r s'
  | compactError (ha : A (.compact revision input))
    (h : (Attempt.compact revision input).run cfg s = (err, s'))
    (herr : err ≠ errOk ∧ err ≠ errCorrupt) :
    Exec cfg A (.compactLoop super tired relocated) s err s'
  /-- The superblock cannot be relocated. -/
  | relocateSuper : Exec cfg A (.relocate true tired) s errNospc s
  | relocateError (h : Exec cfg A .alloc s err s')
    (herr : err ≠ errOk ∧ (err ≠ errNospc ∨ tired = false)) :
    Exec cfg A (.relocate false tired) s err s'
  | relocate (halloc : Exec cfg A .alloc s err s₁)
    (herr : err = errOk ∨ err = errNospc ∧ tired = true)
    (h : Exec cfg A (.compactLoop false false true) s₁ r s') :
    Exec cfg A (.relocate false tired) s r s'
  | splitFirst (h : Exec cfg A .alloc s err s') (herr : err ≠ errOk) : Exec cfg A .split s err s'
  | splitSecond (hfirst : Exec cfg A .alloc s errOk s₁) (h : Exec cfg A .alloc s₁ err s')
    (herr : err ≠ errOk) : Exec cfg A .split s err s'
  | split (hfirst : Exec cfg A .alloc s errOk s₁) (hsecond : Exec cfg A .alloc s₁ errOk s₂)
    (h : Exec cfg A (.compact false) s₂ r s') :
    Exec cfg A .split s (if r < 0 then r else errOk) s'
  /-- No split is needed. -/
  | splitNone (h : Exec cfg A (.expand super) s r s') : Exec cfg A (.splittingcompact super) s r s'
  | splitOk (hsplit : Exec cfg A .split s errOk s₁)
    (h : Exec cfg A (.splittingcompact super) s₁ r s') :
    Exec cfg A (.splittingcompact super) s r s'
  /-- The pair is compacted with degraded performance. -/
  | splitNospc (hsplit : Exec cfg A .split s errNospc s₁) (h : Exec cfg A (.expand super) s₁ r s') :
    Exec cfg A (.splittingcompact super) s r s'
  | splitError (h : Exec cfg A .split s err s') (herr : err ≠ errOk ∧ err ≠ errNospc) :
    Exec cfg A (.splittingcompact super) s err s'
  | expandNone (h : Exec cfg A (.compact super) s r s') : Exec cfg A (.expand super) s r s'
  | expandSize (h : r < 0) : Exec cfg A (.expand true) s r s
  | expand (hsplit : Exec cfg A .split s err s₁) (herr : err = errOk ∨ err = errNospc)
    (h : Exec cfg A (.compact true) s₁ r s') : Exec cfg A (.expand true) s r s'
  | expandError (h : Exec cfg A .split s err s') (herr : err ≠ errOk ∧ err ≠ errNospc) :
    Exec cfg A (.expand true) s err s'
  /-- `lfs_fs_pred` fails, or the fix-up of the open handles behind a drop. -/
  | commitLookup (h : r < 0) : Exec cfg A (.relocatingCommit super) s r s
  | commitDrop : Exec cfg A (.relocatingCommit super) s okDropped s
  /-- The fix-up of the open handles may fail. -/
  | commitAppend (ha : A (.append offset etag input)) (haligned : cfg.writeSize ∣ offset)
    (h : (Attempt.append offset etag input).run cfg s = (errOk, s')) (hr : r ≤ 0) :
    Exec cfg A (.relocatingCommit super) s r s'
  | commitAppendError (ha : A (.append offset etag input)) (haligned : cfg.writeSize ∣ offset)
    (h : (Attempt.append offset etag input).run cfg s = (err, s'))
    (herr : err ≠ errOk ∧ err ≠ errNospc ∧ err ≠ errCorrupt) :
    Exec cfg A (.relocatingCommit super) s err s'
  | commitAppendFull (ha : A (.append offset etag input)) (haligned : cfg.writeSize ∣ offset)
    (h : (Attempt.append offset etag input).run cfg s = (err, s₁))
    (herr : err = errNospc ∨ err = errCorrupt)
    (hcompact : Exec cfg A (.splittingcompact super) s₁.drop r s') (hr : r' = r ∨ r' < 0) :
    Exec cfg A (.relocatingCommit super) s r' s'
  /-- The directory is not erased behind its log. -/
  | commitCompact (h : Exec cfg A (.splittingcompact super) s.drop r s') (hr : r' = r ∨ r' < 0) :
    Exec cfg A (.relocatingCommit super) s r' s'
  | fileAlloc (h : Exec cfg A .alloc s err s') (herr : err ≠ errOk) :
    Exec cfg A .fileRelocate s err s'
  | fileErase (h : Exec cfg A .alloc s errOk s') (herr : err ≠ errOk ∧ err ≠ errCorrupt) :
    Exec cfg A .fileRelocate s err s'
  | fileEraseCorrupt (halloc : Exec cfg A .alloc s errOk s₁)
    (h : Exec cfg A .fileRelocate s₁.drop r s') : Exec cfg A .fileRelocate s r s'
  | fileOk (halloc : Exec cfg A .alloc s errOk s₁) (ha : A (.file block bytes programs))
    (h : (Attempt.file block bytes programs).run cfg s₁ = (errOk, s')) :
    Exec cfg A .fileRelocate s errOk s'
  | fileCorrupt (halloc : Exec cfg A .alloc s errOk s₁) (ha : A (.file block bytes programs))
    (h : (Attempt.file block bytes programs).run cfg s₁ = (errCorrupt, s₂))
    (hrelocate : Exec cfg A .fileRelocate s₂.drop r s') : Exec cfg A .fileRelocate s r s'
  | fileError (halloc : Exec cfg A .alloc s errOk s₁) (ha : A (.file block bytes programs))
    (h : (Attempt.file block bytes programs).run cfg s₁ = (err, s'))
    (herr : err ≠ errOk ∧ err ≠ errCorrupt) : Exec cfg A .fileRelocate s err s'
  /-- The file's own cache is written out, or that fails. -/
  | flush (h : r ≤ 0) : Exec cfg A .fileFlush s r s
  /-- A block for the list of the file. -/
  | flushAlloc (halloc : Exec cfg A .alloc s errOk s₁) (h : Exec cfg A .fileFlush s₁ r s') :
    Exec cfg A .fileFlush s r s'
  | flushAllocError (h : Exec cfg A .alloc s err s') (herr : err ≠ errOk) :
    Exec cfg A .fileFlush s err s'
  | flushRelocate (hrelocate : Exec cfg A .fileRelocate s errOk s₁)
    (h : Exec cfg A .fileFlush s₁ r s') : Exec cfg A .fileFlush s r s'
  | flushRelocateError (h : Exec cfg A .fileRelocate s err s') (herr : err ≠ errOk) :
    Exec cfg A .fileFlush s err s'
  | outlineError (h : Exec cfg A .fileRelocate s err s') (herr : err ≠ errOk) :
    Exec cfg A .evict s err s'
  | evict (houtline : Exec cfg A .fileRelocate s errOk s₁) (h : Exec cfg A .fileFlush s₁ r s') :
    Exec cfg A .evict s r s'
  | orphaningEvict (hevict : Exec cfg A .evict s errOk s₁)
    (h : Exec cfg A .orphaningCommit s₁ r s') : Exec cfg A .orphaningCommit s r s'
  | orphaningEvictError (h : Exec cfg A .evict s err s') (herr : err ≠ errOk) :
    Exec cfg A .orphaningCommit s err s'
  | orphaningError (h : Exec cfg A (.relocatingCommit super) s r s') (hr : r < 0) :
    Exec cfg A .orphaningCommit s r s'
  | orphaning (hcommit : Exec cfg A (.relocatingCommit super) s r s₁)
    (hr : 0 ≤ r ∧ r ≠ okDropped) (h : Exec cfg A (.relocations false r) s₁ r' s') :
    Exec cfg A .orphaningCommit s r' s'
  /-- The state of the dropped pair cannot be read. -/
  | dropState (h : Exec cfg A (.relocatingCommit super) s okDropped s') (hr : r < 0) :
    Exec cfg A .orphaningCommit s r s'
  | dropError (hdrop : Exec cfg A (.relocatingCommit super) s okDropped s₁)
    (h : Exec cfg A (.relocatingCommit super') s₁ r s') (hr : r < 0) :
    Exec cfg A .orphaningCommit s r s'
  | drop (hdrop : Exec cfg A (.relocatingCommit super) s okDropped s₁)
    (hcommit : Exec cfg A (.relocatingCommit super') s₁ r s₂) (hr : 0 ≤ r)
    (h : Exec cfg A (.relocations false r) s₂ r' s') : Exec cfg A .orphaningCommit s r' s'
  | relocationsDone (h : state ≠ okRelocated) :
    Exec cfg A (.relocations orphans state) s (if orphans then okOrphaned else errOk) s
  | relocationsLookup (h : r < 0) : Exec cfg A (.relocations orphans okRelocated) s r s
  | relocationsNoent (h : Exec cfg A (.pred orphans) s r s') :
    Exec cfg A (.relocations orphans okRelocated) s r s'
  | parentError (h : Exec cfg A (.relocatingCommit super) s r s') (hr : r < 0) :
    Exec cfg A (.relocations orphans okRelocated) s r s'
  | parentRelocated (hcommit : Exec cfg A (.relocatingCommit super) s okRelocated s₁)
    (h : Exec cfg A (.relocations true okRelocated) s₁ r s') :
    Exec cfg A (.relocations orphans okRelocated) s r s'
  | parent (hcommit : Exec cfg A (.relocatingCommit super) s r s₁) (hr : 0 ≤ r ∧ r ≠ okRelocated)
    (h : Exec cfg A (.pred orphans) s₁ r' s') :
    Exec cfg A (.relocations orphans okRelocated) s r' s'
  | predLookup (h : r < 0) : Exec cfg A (.pred orphans) s r s
  | predNoent (h : Exec cfg A (.relocations orphans errOk) s r s') :
    Exec cfg A (.pred orphans) s r s'
  | predError (h : Exec cfg A (.relocatingCommit super) s r s') (hr : r < 0) :
    Exec cfg A (.pred orphans) s r s'
  | pred (hcommit : Exec cfg A (.relocatingCommit super) s r s₁) (hr : 0 ≤ r)
    (h : Exec cfg A (.relocations orphans r) s₁ r' s') : Exec cfg A (.pred orphans) s r' s'
  /-- No orphan is left, or a lookup fails. -/
  | deorphan (h : r ≤ 0) : Exec cfg A .deorphan s r s
  | deorphanError (h : Exec cfg A .orphaningCommit s r s') (hr : r < 0) :
    Exec cfg A .deorphan s r s'
  | deorphanCommit (hcommit : Exec cfg A .orphaningCommit s r s₁) (hr : 0 ≤ r)
    (h : Exec cfg A .deorphan s₁ r' s') : Exec cfg A .deorphan s r' s'
  | dirCommit (h : Exec cfg A .orphaningCommit s r s') (hr : r ≤ 0) : Exec cfg A .commit s r s'
  | dirCommitOrphans (hcommit : Exec cfg A .orphaningCommit s r s₁) (hr : 0 < r)
    (h : Exec cfg A .deorphan s₁ r' s') : Exec cfg A .commit s r' s'

/-- Calls of `lfs_dir_commit` one after the other, on any pairs. -/
def Commits (cfg : CacheConfig) (A : Attempt → Prop) : Io → Io → Prop :=
  Relation.ReflTransGen fun s s' => ∃ r, Exec cfg A .commit s r s'

/-! ## The cache between the calls -/

/-- No bytes are left in the cache. -/
structure Io.Idle (s : Io) : Prop where
  sound : s.Sound
  empty : s.cache.block = none

theorem Io.Sound.drop_idle {s : Io} (H : s.Sound) : s.drop.Idle := ⟨H.drop, rfl⟩

section
variable {cfg : CacheConfig} {a : Attempt} {s s' : Io}

theorem Attempt.Meets.idle_of_ok (ha : a.Meets cfg) (hcfg : cfg.Ok) (haligned : a.Aligned cfg)
    (H : s.Idle) (h : a.run cfg s = (errOk, s')) : s'.Idle := by
  have hrun := ha.run hcfg haligned H.sound H.empty
  rw [h] at hrun
  exact ⟨hrun.sound, hrun.ok rfl⟩

theorem Attempt.Meets.idle_of_error (ha : a.Meets cfg) (hcfg : cfg.Ok) (haligned : a.Aligned cfg)
    (H : s.Idle) (h : a.run cfg s = (err, s')) (herr : err ≠ errOk) (hretry : ¬ a.Retries err) :
    s'.Idle := by
  have hrun := ha.run hcfg haligned H.sound H.empty
  rw [h] at hrun
  exact ⟨hrun.sound, (hrun.failed herr).resolve_left hretry⟩

theorem Attempt.Meets.drop_idle (ha : a.Meets cfg) (hcfg : cfg.Ok) (haligned : a.Aligned cfg)
    (H : s.Idle) (h : a.run cfg s = (err, s')) : s'.drop.Idle := by
  have hrun := ha.run hcfg haligned H.sound H.empty
  rw [h] at hrun
  exact hrun.sound.drop_idle

/-- **Call.** A call whose attempts meet their conditions returns with an empty cache. -/
theorem Exec.idle (h : Exec cfg (Attempt.Meets cfg) call s r s') (hcfg : cfg.Ok) (H : s.Idle) :
    s'.Idle := by
  induction h with
  | alloc | compactErase | relocateSuper | expandSize | commitLookup | commitDrop | flush
    | relocationsDone | relocationsLookup | predLookup | deorphan => exact H
  | compactTired _ ih | compactEraseCorrupt _ ih | commitCompact _ _ ih =>
    exact ih H.sound.drop_idle
  | compactOk ha hrun => exact ha.idle_of_ok hcfg trivial H hrun
  | compactCorrupt ha hrun _ ih => exact ih (ha.drop_idle hcfg trivial H hrun)
  | compactError ha hrun herr => exact ha.idle_of_error hcfg trivial H hrun herr.1 herr.2
  | commitAppend ha haligned hrun => exact ha.idle_of_ok hcfg haligned H hrun
  | commitAppendError ha haligned hrun herr =>
    exact ha.idle_of_error hcfg haligned H hrun herr.1 (not_or.mpr herr.2)
  | commitAppendFull ha haligned hrun _ _ _ ih => exact ih (ha.drop_idle hcfg haligned H hrun)
  | fileEraseCorrupt _ _ halloc ih => exact ih (halloc H).sound.drop_idle
  | fileOk _ ha hrun halloc => exact ha.idle_of_ok hcfg trivial (halloc H) hrun
  | fileCorrupt _ ha hrun _ halloc ih => exact ih (ha.drop_idle hcfg trivial (halloc H) hrun)
  | fileError _ ha hrun herr halloc =>
    exact ha.idle_of_error hcfg trivial (halloc H) hrun herr.1 herr.2
  | split _ _ _ hfirst hsecond ih => exact ih (hsecond (hfirst H))
  | drop _ _ _ _ hdrop hcommit ih => exact ih (hcommit (hdrop H))
  | compact _ _ ih | relocateError _ _ ih | splitFirst _ _ ih | splitNone _ ih
    | splitError _ _ ih | expandNone _ ih | expandError _ _ ih | fileAlloc _ _ ih
    | fileErase _ _ ih | flushAllocError _ _ ih | flushRelocateError _ _ ih | outlineError _ _ ih
    | orphaningEvictError _ _ ih | orphaningError _ _ ih | dropState _ _ ih
    | relocationsNoent _ ih | parentError _ _ ih | predNoent _ ih | predError _ _ ih
    | deorphanError _ _ ih | dirCommit _ _ ih => exact ih H
  | allocGrow _ _ hfirst ih | relocate _ _ _ hfirst ih | splitSecond _ _ _ hfirst ih
    | splitOk _ _ hfirst ih | splitNospc _ _ hfirst ih | expand _ _ _ hfirst ih
    | flushAlloc _ _ hfirst ih | flushRelocate _ _ hfirst ih | evict _ _ hfirst ih
    | orphaningEvict _ _ hfirst ih | orphaning _ _ _ hfirst ih | dropError _ _ _ hfirst ih
    | parentRelocated _ _ hfirst ih | parent _ _ _ hfirst ih | pred _ _ _ hfirst ih
    | deorphanCommit _ _ _ hfirst ih | dirCommitOrphans _ _ _ hfirst ih => exact ih (hfirst H)

/-- In a run of commits whose attempts all meet their conditions no window is opened over buffered
bytes, and what is programmed into a block was written to it. -/
theorem commits_disciplined (hcfg : cfg.Ok) (hblock : s.cache.block = none) (htrace : s.trace = [])
    (h : Commits cfg (Attempt.Meets cfg) s s') : Disciplined s'.trace ∧ s'.cache.block = none := by
  have hstart : s.Idle :=
    ⟨⟨by rw [htrace]; trivial, by rw [htrace, hblock]; rfl, by rw [htrace]; intro _ _ h; cases h⟩,
      hblock⟩
  have hend : s'.Idle := by
    induction h with
    | refl => exact hstart
    | tail _ hstep ih =>
      obtain ⟨r, hstep⟩ := hstep
      exact hstep.idle hcfg ih
  exact ⟨hend.sound.disciplined, hend.empty⟩

end

/-! ## Runs -/

/-- A cache of four program units. -/
def smallCache : CacheConfig :=
  { blockSize := 4096, blockCount := 8, writeSize := 16, cacheSize := 64 }

theorem smallCache_ok : smallCache.Ok := ⟨by decide, by decide, by decide⟩

/-- A user attribute of four bytes for a pair, with the results of its programs. -/
def smallCommit (block : Nat) (programs : List (Int × Bool)) : CommitInput :=
  { block := block, base := fun _ => 0xff, entries := [⟨mkTag 0x374 1 4, [1, 2, 3, 4]⟩],
    programs := programs }

/-- The commit to the pair `{2, 3}`, whose first block has gone bad. -/
def badBlock : Attempt := .append 16 0#32 (smallCommit 2 [(errCorrupt, true)])

/-- The compaction into its other block. -/
def otherBlock : Attempt := .compact 2#32 (smallCommit 3 [])

theorem badBlock_meets : badBlock.Meets smallCache := by
  have htags : tagsEnd smallCache.toDiskConfig 16 (smallCommit 2 []).entries = .ok 24 := by
    decide +kernel
  refine ⟨fun r hr => ?_, fun full h => ?_, fun stop h => ?_⟩
  · obtain rfl := List.mem_singleton.mp hr
    exact .inr (.inr rfl)
  · cases htags.symm.trans h
  · obtain rfl := Except.ok.inj (htags.symm.trans h)
    exact .inl (by decide)

theorem otherBlock_meets : otherBlock.Meets smallCache := by
  have htags : tagsEnd smallCache.toDiskConfig 4 (smallCommit 3 []).entries = .ok 12 := by
    decide +kernel
  refine ⟨fun r hr => (List.not_mem_nil hr).elim, fun full h => ?_, fun stop h => ?_⟩
  · cases htags.symm.trans h
  · obtain rfl := Except.ok.inj (htags.symm.trans h)
    exact .inl (by decide)

/-- The commit falls back to the other block, and the cache is empty at each window. -/
theorem commits_disciplined_badBlock :
    Disciplined (otherBlock.run smallCache (badBlock.run smallCache {}).2.drop).2.trace := by
  have hbad : badBlock.run smallCache {} = (errCorrupt, (badBlock.run smallCache {}).2) :=
    Prod.ext (by decide +kernel) rfl
  have hother : otherBlock.run smallCache (badBlock.run smallCache {}).2.drop =
      (errOk, (otherBlock.run smallCache (badBlock.run smallCache {}).2.drop).2) :=
    Prod.ext (by decide +kernel) rfl
  have hloop : Exec smallCache (Attempt.Meets smallCache) (.compactLoop false false false)
      (badBlock.run smallCache {}).2.drop errOk _ := .compactOk otherBlock_meets hother
  have hcompact := Exec.compact (by decide) hloop
  have hcommit : Exec smallCache (Attempt.Meets smallCache) .commit {} errOk _ :=
    .dirCommit (.orphaning (.commitAppendFull badBlock_meets (by decide) hbad (.inr rfl)
      (.splitNone (.expandNone hcompact)) (.inl rfl)) (by decide) (.relocationsDone (by decide)))
      (by decide)
  exact (commits_disciplined smallCache_ok rfl rfl (.single ⟨_, hcommit⟩)).1

/-- A commit whose program fails with another code, and the state it leaves. -/
def badDevice : Attempt := .append 16 0#32 (smallCommit 2 [(errIo, true)])

def leftOver : Io := (badDevice.run smallCache {}).2

/-- The next commit, to another pair. -/
def nextPair : Attempt := .append 16 0#32 (smallCommit 4 [])

theorem nextPair_undisciplined : ¬ Disciplined (nextPair.run smallCache leftOver).2.trace := by
  intro h
  have hopened : (nextPair.run smallCache leftOver).2.trace.drop 5 =
      .opened 4 :: leftOver.trace := by decide +kernel
  have hheld : WriteWindow.held leftOver.trace = some 2 := by decide +kernel
  rw [← List.take_append_drop 5 (nextPair.run smallCache leftOver).2.trace, hopened] at h
  rw [h.held_of_opened] at hheld
  cases hheld

/-- Over the bytes of the failed commit, the next one opens its window. -/
theorem commits_disciplined_fails :
    ¬ ∀ (cfg : CacheConfig) (s s' : Io), cfg.Ok → s.cache.block = none → s.trace = [] →
      Commits cfg (fun _ => True) s s' → Disciplined s'.trace := by
  intro h
  have hfirst : badDevice.run smallCache {} = (errIo, leftOver) := Prod.ext (by decide +kernel) rfl
  have hsecond : nextPair.run smallCache leftOver =
      (errOk, (nextPair.run smallCache leftOver).2) := Prod.ext (by decide +kernel) rfl
  have hfail : Exec smallCache (fun _ => True) (.relocatingCommit false) {} errIo leftOver :=
    .commitAppendError trivial (by decide) hfirst (by decide)
  have hnext : Exec smallCache (fun _ => True) (.relocatingCommit false) leftOver errOk _ :=
    .commitAppend trivial (by decide) hsecond (Int.le_refl 0)
  have hfailed := (hfail.orphaningError (by decide)).dirCommit (by decide)
  have hdone := (hnext.orphaning (by decide) (.relocationsDone (by decide))).dirCommit (by decide)
  exact nextPair_undisciplined (h smallCache {} _ smallCache_ok rfl rfl
    ((Relation.ReflTransGen.single ⟨_, hfailed⟩).tail ⟨_, hdone⟩))

end LittleFs
