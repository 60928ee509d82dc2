import LittleFs.Lib.LinkedList
import LittleFs.Tag

/-! `lfs->metadata_list`: the open handles, linked through their nodes. Opens and closes put nodes
in front and unlink them; mkdir, remove and rename hook a node of their own in front while they
commit, and take it off again. The results of the calls that they make are left open, so that an
error can come from any of them. -/

namespace LittleFs

open LinkedList (Links IsList)

/-! ## The list -/

/-- `lfs->metadata_list` with the `next` of every node; a node is given by its address. -/
abbrev MList := Links Nat

/-- `lfs_mlist_isopen`. -/
def mlistIsopen (fuel : Nat) (s : MList) (node : Nat) : Option Bool :=
  LinkedList.contains s.next node fuel s.head

/-- `lfs_mlist_append`. -/
def mlistAppend (s : MList) (node : Nat) : MList := s.prepend node

/-- `lfs_mlist_remove`. -/
def mlistRemove (fuel : Nat) (s : MList) (node : Nat) : Option MList := s.unlink node fuel none

/-- `node.next = lfs->metadata_list`. -/
def mlistSave (s : MList) (node : Nat) : MList := s.write s.head (some node)

/-- `lfs->metadata_list = &node`. -/
def mlistHook (s : MList) (node : Nat) : MList := s.write (some node) none

/-- `lfs->metadata_list = node.next`. -/
def mlistUnhook (s : MList) (node : Nat) : MList := s.write (s.next node) none

/-! ## Files -/

/-- `enum lfs_open_flags`. -/
def oRdonly : Nat := 1
def oWronly : Nat := 2
def oCreat : Nat := 0x0100
def oExcl : Nat := 0x0200
def oTrunc : Nat := 0x0400

/-- The type and the id of an `lfs_stag_t` that is no error. -/
def stagType3 (tag : Int) : Nat := tagType3 (BitVec.ofInt 32 tag)
def stagId (tag : Int) : Nat := tagId (BitVec.ofInt 32 tag)

/-- An attribute of the configuration of a file: what its lookup returns, and its size. -/
structure OpenAttr where
  get : Int
  size : Nat

/-- What the calls of `lfs_file_rawopencfg` return. -/
structure OpenCalls where
  forceconsistency : Int := 0
  find : Int
  id : Nat
  nlen : Nat
  commit : Int := 0
  getStruct : Int := 0
  attrs : List OpenAttr := []
  /-- The configuration has a buffer, or there is memory for one. -/
  buffer : Bool := true
  malloc : Bool := true
  getInline : Int := 0

/-- The loop over the attributes; 0 when none of them fails. -/
def openAttrs (flags attrMax : Nat) : List OpenAttr → Int
  | [] => 0
  | a :: attrs =>
    -- if opened for read / read-write operations
    if flags &&& oRdonly = oRdonly ∧ a.get < 0 ∧ a.get ≠ errNoent then a.get
    -- if opened for write / read-write operations
    else if flags &&& oWronly = oWronly ∧ a.size > attrMax then errNospc
    else openAttrs flags attrMax attrs

/-- What is left of an open when the tag of the content is known. -/
def openContent (o : OpenCalls) (flags attrMax : Nat) (tag : Tag) : Int :=
  let err := openAttrs flags attrMax o.attrs
  if err ≠ 0 then err
  -- allocate buffer if needed
  else if !o.buffer && !o.malloc then errNomem
  else if tagType3 tag = typeInlinestruct ∧ 0 < tagSize tag ∧ o.getInline < 0 then o.getInline
  else 0

/-- The part of an open behind the insertion into the list; 0 when it succeeds. -/
def openInserted (o : OpenCalls) (flags nameMax attrMax : Nat) : Int :=
  if o.find = errNoent then
    if flags &&& oCreat = 0 then errNoent
    else if o.nlen > nameMax then errNametoolong
    else
      let err := if o.commit = errNospc then errNametoolong else o.commit
      if err ≠ 0 then err else openContent o flags attrMax (mkTag typeInlinestruct 0 0)
  else if flags &&& oExcl ≠ 0 then errExist
  else if stagType3 o.find ≠ typeReg then errIsdir
  -- truncate if requested
  else if flags &&& oTrunc ≠ 0 then openContent o flags attrMax (mkTag typeInlinestruct o.id 0)
  else if o.getStruct < 0 then o.getStruct
  else openContent o flags attrMax (BitVec.ofInt 32 o.getStruct)

/-- `lfs_file_rawclose`, with what its `lfs_file_rawsync` returns. -/
def fileRawclose (fuel : Nat) (sync : Int) (file : Nat) (s : MList) : Option (Int × MList) :=
  (mlistRemove fuel s file).map fun s => (sync, s)

/-- `lfs_file_rawopencfg`. -/
def fileRawopencfg (fuel : Nat) (o : OpenCalls) (flags nameMax attrMax file : Nat) (s : MList) :
    Option (Int × MList) :=
  -- clean up lingering resources; the sync of a file with an error does nothing
  let cleanup (err : Int) (s : MList) :=
    (fileRawclose fuel errOk file s).map fun closed => (err, closed.2)
  if flags &&& oWronly = oWronly ∧ o.forceconsistency ≠ 0 then some (o.forceconsistency, s)
  else if o.find < 0 ∧ ¬ (o.find = errNoent ∧ o.id ≠ 0x3ff) then cleanup o.find s
  else
    -- add to list of mdirs to catch update changes
    let s := mlistAppend s file
    let err := openInserted o flags nameMax attrMax
    if err ≠ 0 then cleanup err s else some (errOk, s)

/-! ## Directories -/

/-- What the calls of `lfs_dir_rawopen` return. -/
structure DirOpenCalls where
  find : Int
  getStruct : Int := 0
  fetch : Int := 0

/-- `lfs_dir_rawopen`. -/
def dirRawopen (o : DirOpenCalls) (dir : Nat) (s : MList) : Int × MList :=
  if o.find < 0 then (o.find, s)
  else if stagType3 o.find ≠ typeDir then (errNotdir, s)
  else if stagId o.find ≠ 0x3ff ∧ o.getStruct < 0 then (o.getStruct, s)
  else if o.fetch ≠ 0 then (o.fetch, s)
  else (errOk, mlistAppend s dir)

/-- `lfs_dir_rawclose`. -/
def dirRawclose (fuel : Nat) (dir : Nat) (s : MList) : Option (Int × MList) :=
  (mlistRemove fuel s dir).map fun s => (errOk, s)

/-- The first error of calls in a row. -/
def firstError (errs : List Int) : Int := (errs.find? (· ≠ 0)).getD 0

/-- What the calls of `lfs_dir_rawcreate` return. -/
structure CreateCalls where
  forceconsistency : Int := 0
  find : Int
  id : Nat
  nlen : Nat
  alloc : Int := 0
  /-- The fetches up to the end of the split directory. -/
  preds : List Int := []
  commit : Int := 0
  split : Bool
  preporphans : Int := 0
  commitTail : Int := 0
  unprep : Int := 0
  commitParent : Int := 0

/-- The update of the tails of a split directory. -/
def createTails (o : CreateCalls) (cwd : Nat) (s : MList) : Int × MList :=
  if o.preporphans ≠ 0 then (o.preporphans, s)
  else
    -- hook ourselves into littlefs
    let s := mlistHook s cwd
    if o.commitTail ≠ 0 then (o.commitTail, mlistUnhook s cwd)
    else (o.unprep, mlistUnhook s cwd)

/-- `lfs_dir_rawcreate`, with the node `cwd` of its own. -/
def dirRawcreate (o : CreateCalls) (nameMax cwd : Nat) (s : MList) : Int × MList :=
  if o.forceconsistency ≠ 0 then (o.forceconsistency, s)
  else
    let s := mlistSave s cwd
    if ¬ (o.find = errNoent ∧ o.id ≠ 0x3ff) then (if o.find < 0 then o.find else errExist, s)
    else if o.nlen > nameMax then (errNametoolong, s)
    else if o.alloc ≠ 0 then (o.alloc, s)
    else if firstError o.preds ≠ 0 then (firstError o.preds, s)
    else if o.commit ≠ 0 then (o.commit, s)
    else
      -- current block not end of list?
      let tails := if o.split then createTails o cwd s else (errOk, s)
      if tails.1 ≠ 0 then tails else (o.commitParent, tails.2)

/-! ## Remove and rename -/

/-- What the calls for a directory that is removed return. -/
structure DropCalls where
  getStruct : Int := 0
  fetch : Int := 0
  /-- It has entries, or it is split. -/
  notEmpty : Bool := false
  preporphans : Int := 0
  unprep : Int := 0
  pred : Int := 0
  drop : Int := 0

/-- The check of a directory that is removed, up to the orphan count; 0 when it passes. -/
def DropCalls.check (o : DropCalls) : Int :=
  if o.getStruct < 0 then o.getStruct
  else if o.fetch ≠ 0 then o.fetch
  else if o.notEmpty then errNotempty
  else o.preporphans

/-- What the calls of `lfs_raw_remove` return. -/
structure RemoveCalls extends DropCalls where
  forceconsistency : Int := 0
  find : Int
  commit : Int := 0

/-- `lfs_raw_remove`, with the node `dir` of its own. -/
def rawRemoveList (o : RemoveCalls) (dir : Nat) (s : MList) : Int × MList :=
  if o.forceconsistency ≠ 0 then (o.forceconsistency, s)
  else if o.find < 0 ∨ stagId o.find = 0x3ff then (if o.find < 0 then o.find else errInval, s)
  else
    let s := mlistSave s dir
    let isDir := stagType3 o.find = typeDir
    if isDir ∧ o.check ≠ 0 then (o.check, s)
    else
      let s := if isDir then mlistHook s dir else s
      if o.commit ≠ 0 then (o.commit, mlistUnhook s dir)
      else
        let s := mlistUnhook s dir
        if isDir then (firstError [o.unprep, o.pred, o.drop], s) else (errOk, s)

/-- What the calls of `lfs_raw_rename` return. -/
structure RenameCalls extends DropCalls where
  forceconsistency : Int := 0
  findOld : Int
  findNew : Int
  newid : Nat
  samepair : Bool
  nlen : Nat
  commit : Int := 0
  hasmove : Bool := false
  commitOld : Int := 0

/-- `lfs_raw_rename`, with the node `prevdir` of its own. -/
def rawRenameList (o : RenameCalls) (nameMax prevdir : Nat) (s : MList) : Int × MList :=
  if o.forceconsistency ≠ 0 then (o.forceconsistency, s)
  else if o.findOld < 0 ∨ stagId o.findOld = 0x3ff then
    (if o.findOld < 0 then o.findOld else errInval, s)
  else if (o.findNew < 0 ∨ stagId o.findNew = 0x3ff) ∧
      ¬ (o.findNew = errNoent ∧ o.newid ≠ 0x3ff) then
    (if o.findNew < 0 then o.findNew else errInval, s)
  else
    let s := mlistSave s prevdir
    let replacesDir := o.findNew ≠ errNoent ∧ stagType3 o.findNew = typeDir
    if o.findNew = errNoent ∧ o.nlen > nameMax then (errNametoolong, s)
    else if o.findNew ≠ errNoent ∧ stagType3 o.findNew ≠ stagType3 o.findOld then (errIsdir, s)
    -- we're renaming to ourselves??
    else if o.findNew ≠ errNoent ∧ o.samepair ∧ o.newid = stagId o.findOld then (errOk, s)
    else if replacesDir ∧ o.check ≠ 0 then (o.check, s)
    else
      let s := if replacesDir then mlistHook s prevdir else s
      if o.commit ≠ 0 then (o.commit, mlistUnhook s prevdir)
      else if ¬ o.samepair ∧ o.hasmove ∧ o.commitOld ≠ 0 then (o.commitOld, mlistUnhook s prevdir)
      else
        let s := mlistUnhook s prevdir
        if replacesDir then (firstError [o.unprep, o.pred, o.drop], s) else (errOk, s)

/-! ## What a call leaves of the list -/

/-- The list is there as it was; only the pointer in `node` may have changed. -/
structure Restored (node : Nat) (s s' : MList) : Prop where
  head : s'.head = s.head
  next : ∀ a ≠ node, s'.next a = s.next a

/-- The list is there as it was, and `node` points to its first node. -/
structure Saved (node : Nat) (s s' : MList) : Prop extends Restored node s s' where
  saved : s'.next node = s.head

section
variable {node : Nat} {s s' : MList} {c : Prop} [Decidable c]

theorem Restored.refl : Restored node s s := ⟨rfl, fun _ _ => rfl⟩

theorem Restored.ite {r r' : Int × MList} (H : Restored node s r.2) (H' : Restored node s r'.2) :
    Restored node s (if c then r else r').2 := by
  by_cases hc : c
  · rwa [if_pos hc]
  · rwa [if_neg hc]

theorem Restored.isList (H : Restored node s s') (hlist : IsList s.next s.head xs)
    (hnode : node ∉ xs) : IsList s'.next s'.head xs := by
  rw [H.head]
  exact hlist.congr fun a ha => H.next a (ne_of_mem_of_not_mem ha hnode)

theorem mlistSave_saved : Saved node s (mlistSave s node) where
  head := rfl
  next _ ha := Function.update_of_ne ha ..
  saved := Function.update_self ..

/-- A node that was hooked in front comes off again. -/
theorem Saved.unhook (H : Saved node s s') :
    Restored node s (mlistUnhook (mlistHook s' node) node) :=
  ⟨H.saved, H.next⟩

theorem Saved.unhook_ite (H : Saved node s s') :
    Restored node s (mlistUnhook (if c then mlistHook s' node else s') node) := by
  by_cases hc : c
  · rw [if_pos hc]
    exact H.unhook
  · rw [if_neg hc]
    exact ⟨H.saved, H.next⟩

theorem createTails_restored (H : Saved node s s') : Restored node s (createTails o node s').2 :=
  .ite H.toRestored (.ite H.unhook H.unhook)

/-- **mkdir.** Every exit leaves the list as it was. -/
theorem dirRawcreate_restored : Restored node s (dirRawcreate o nameMax node s).2 := by
  have H : Saved node s (mlistSave s node) := mlistSave_saved
  have htails : Restored node s
      (if o.split then createTails o node (mlistSave s node) else (errOk, mlistSave s node)).2 :=
    .ite (createTails_restored H) H.toRestored
  refine .ite .refl (.ite H.toRestored (.ite H.toRestored (.ite H.toRestored ?_)))
  exact .ite H.toRestored (.ite H.toRestored (.ite htails htails))

/-- **remove.** -/
theorem rawRemoveList_restored : Restored node s (rawRemoveList o node s).2 := by
  have H : Saved node s (mlistSave s node) := mlistSave_saved
  refine .ite .refl (.ite .refl (.ite H.toRestored (.ite H.unhook_ite ?_)))
  exact .ite H.unhook_ite H.unhook_ite

/-- **rename.** -/
theorem rawRenameList_restored : Restored node s (rawRenameList o nameMax node s).2 := by
  have H : Saved node s (mlistSave s node) := mlistSave_saved
  refine .ite .refl (.ite .refl (.ite .refl (.ite H.toRestored (.ite H.toRestored ?_))))
  refine .ite H.toRestored (.ite H.toRestored (.ite H.unhook_ite (.ite H.unhook_ite ?_)))
  exact .ite H.unhook_ite H.unhook_ite

end

/-! ## Opens and closes -/

/-- The open handles after an open of `node` that returned `err`. -/
def openedHandles (err : Int) (node : Nat) (handles : List Nat) : List Nat :=
  if err = errOk then node :: handles else handles

theorem openedHandles_error (herr : err ≠ 0) : openedHandles err node xs = xs := if_neg herr

section
variable {s : MList} {xs : List Nat} {fuel : Nat}

theorem mlistIsopen_eq (H : IsList s.next s.head xs) (hfuel : xs.length < fuel) (node : Nat) :
    mlistIsopen fuel s node = some (decide (node ∈ xs)) :=
  H.contains node hfuel

theorem fileRawclose_list (H : IsList s.next s.head xs) (hnodup : xs.Nodup)
    (hfuel : xs.length < fuel) (sync : Int) (file : Nat) :
    ∃ s', fileRawclose fuel sync file s = some (sync, s') ∧
      IsList s'.next s'.head (xs.erase file) := by
  obtain ⟨s', hremove, hlist⟩ := H.unlink hnodup file hfuel
  refine ⟨s', ?_, hlist⟩
  rw [fileRawclose, mlistRemove, hremove]
  rfl

theorem dirRawclose_list (H : IsList s.next s.head xs) (hnodup : xs.Nodup)
    (hfuel : xs.length < fuel) (dir : Nat) :
    ∃ s', dirRawclose fuel dir s = some (errOk, s') ∧ IsList s'.next s'.head (xs.erase dir) := by
  obtain ⟨s', hremove, hlist⟩ := H.unlink hnodup dir hfuel
  refine ⟨s', ?_, hlist⟩
  rw [dirRawclose, mlistRemove, hremove]
  rfl

/-- **Opening a file.** The handle is in the list exactly when the open succeeded, whether the
cleanup runs before the insertion or behind it. -/
theorem fileRawopencfg_list (H : IsList s.next s.head xs) (hnodup : xs.Nodup) (hfile : file ∉ xs)
    (hfuel : xs.length + 1 < fuel) (o : OpenCalls) (flags nameMax attrMax : Nat) :
    ∃ err s', fileRawopencfg fuel o flags nameMax attrMax file s = some (err, s') ∧
      IsList s'.next s'.head (openedHandles err file xs) := by
  have hinserted : IsList (mlistAppend s file).next (mlistAppend s file).head (file :: xs) :=
    H.prepend hfile
  unfold fileRawopencfg
  dsimp only
  by_cases hforce : flags &&& oWronly = oWronly ∧ o.forceconsistency ≠ 0
  · rw [if_pos hforce]
    exact ⟨_, s, rfl, by rw [openedHandles_error hforce.2]; exact H⟩
  rw [if_neg hforce]
  by_cases hfind : o.find < 0 ∧ ¬ (o.find = errNoent ∧ o.id ≠ 0x3ff)
  · -- the cleanup unlinks a node that is not there
    rw [if_pos hfind]
    obtain ⟨s', hclose, hlist⟩ := fileRawclose_list H hnodup (Nat.lt_of_succ_lt hfuel) errOk file
    rw [List.erase_of_not_mem hfile] at hlist
    rw [hclose]
    exact ⟨_, s', rfl, by rw [openedHandles_error (Int.ne_of_lt hfind.1)]; exact hlist⟩
  rw [if_neg hfind]
  by_cases herr : openInserted o flags nameMax attrMax ≠ 0
  · rw [if_pos herr]
    obtain ⟨s', hclose, hlist⟩ :=
      fileRawclose_list hinserted (List.nodup_cons.mpr ⟨hfile, hnodup⟩) hfuel errOk file
    rw [List.erase_cons_head] at hlist
    rw [hclose]
    exact ⟨_, s', rfl, by rw [openedHandles_error herr]; exact hlist⟩
  · rw [if_neg herr]
    exact ⟨errOk, _, rfl, hinserted⟩

theorem dirRawopen_list (H : IsList s.next s.head xs) (hdir : dir ∉ xs) (o : DirOpenCalls) :
    IsList (dirRawopen o dir s).2.next (dirRawopen o dir s).2.head
      (openedHandles (dirRawopen o dir s).1 dir xs) := by
  unfold dirRawopen
  by_cases hfind : o.find < 0
  · rw [if_pos hfind, openedHandles_error (Int.ne_of_lt hfind)]
    exact H
  rw [if_neg hfind]
  by_cases htype : stagType3 o.find ≠ typeDir
  · rw [if_pos htype]
    exact H
  rw [if_neg htype]
  by_cases hget : stagId o.find ≠ 0x3ff ∧ o.getStruct < 0
  · rw [if_pos hget, openedHandles_error (Int.ne_of_lt hget.2)]
    exact H
  rw [if_neg hget]
  by_cases hfetch : o.fetch ≠ 0
  · rw [if_pos hfetch, openedHandles_error hfetch]
    exact H
  · rw [if_neg hfetch]
    exact H.prepend hdir

end

/-! ## Runs -/

/-- A call, with what the calls in it return and the addresses of the nodes that it uses. -/
inductive MlistCall
  | fileOpen (o : OpenCalls) (flags nameMax attrMax file : Nat)
  | fileClose (sync : Int) (file : Nat)
  | dirOpen (o : DirOpenCalls) (dir : Nat)
  | dirClose (dir : Nat)
  | create (o : CreateCalls) (nameMax cwd : Nat)
  | remove (o : RemoveCalls) (dir : Nat)
  | rename (o : RenameCalls) (nameMax prevdir : Nat)

def MlistCall.exec (fuel : Nat) (s : MList) : MlistCall → Option (Int × MList)
  | .fileOpen o flags nameMax attrMax file => fileRawopencfg fuel o flags nameMax attrMax file s
  | .fileClose sync file => fileRawclose fuel sync file s
  | .dirOpen o dir => some (dirRawopen o dir s)
  | .dirClose dir => dirRawclose fuel dir s
  | .create o nameMax cwd => some (dirRawcreate o nameMax cwd s)
  | .remove o dir => some (rawRemoveList o dir s)
  | .rename o nameMax prevdir => some (rawRenameList o nameMax prevdir s)

/-- What has to hold for a call: the assertions of the public functions, and a node on the stack is
no open handle. -/
def MlistCall.Allowed (fuel : Nat) (s : MList) (handles : List Nat) : MlistCall → Prop
  | .fileOpen _ _ _ _ file => mlistIsopen fuel s file = some false
  | .fileClose _ file => mlistIsopen fuel s file = some true
  | .dirOpen _ dir => mlistIsopen fuel s dir = some false
  | .dirClose _ => True
  | .create _ _ cwd => cwd ∉ handles
  | .remove _ dir => dir ∉ handles
  | .rename _ _ prevdir => prevdir ∉ handles

/-- The handles whose open succeeded and that are not closed, after a call that returned `err`. -/
def MlistCall.handles (err : Int) (handles : List Nat) : MlistCall → List Nat
  | .fileOpen _ _ _ _ file => openedHandles err file handles
  | .fileClose _ file => handles.erase file
  | .dirOpen _ dir => openedHandles err dir handles
  | .dirClose dir => handles.erase dir
  | .create .. | .remove .. | .rename .. => handles

/-- The runs since the list was initialised, with the number of calls and the open handles. -/
inductive MlistRun (fuel : Nat) : (calls : Nat) → MList → (handles : List Nat) → Prop
  | init : MlistRun fuel 0 ⟨none, next⟩ []
  | call {call : MlistCall} (H : MlistRun fuel calls s handles)
    (hallowed : call.Allowed fuel s handles) (hexec : call.exec fuel s = some (err, s')) :
    MlistRun fuel (calls + 1) s' (call.handles err handles)

/-- The list holds the handles, each once. -/
structure HandleList (s : MList) (handles : List Nat) : Prop where
  isList : IsList s.next s.head handles
  nodup : handles.Nodup

/-- **One call.** It returns, and the list holds the handles that are open behind it. -/
theorem HandleList.exec {call : MlistCall} (H : HandleList s handles)
    (hfuel : handles.length + 1 < fuel) (hallowed : call.Allowed fuel s handles) :
    ∃ err s', call.exec fuel s = some (err, s') ∧ HandleList s' (call.handles err handles) := by
  have hlen : handles.length < fuel := Nat.lt_of_succ_lt hfuel
  have hclosed {node : Nat} (h : mlistIsopen fuel s node = some false) : node ∉ handles := by
    rw [mlistIsopen_eq H.isList hlen] at h
    exact of_decide_eq_false (Option.some.inj h)
  have hopened {node : Nat} (hnode : node ∉ handles) (err : Int) :
      (openedHandles err node handles).Nodup := by
    unfold openedHandles
    by_cases herr : err = errOk
    · rw [if_pos herr]
      exact List.nodup_cons.mpr ⟨hnode, H.nodup⟩
    · rw [if_neg herr]
      exact H.nodup
  cases call with
  | fileOpen o flags nameMax attrMax file =>
    have hfile := hclosed hallowed
    obtain ⟨err, s', hopen, hlist⟩ :=
      fileRawopencfg_list H.isList H.nodup hfile hfuel o flags nameMax attrMax
    exact ⟨err, s', hopen, hlist, hopened hfile err⟩
  | fileClose sync file =>
    obtain ⟨s', hclose, hlist⟩ := fileRawclose_list H.isList H.nodup hlen sync file
    exact ⟨sync, s', hclose, hlist, H.nodup.erase file⟩
  | dirOpen o dir =>
    have hdir := hclosed hallowed
    exact ⟨_, _, rfl, dirRawopen_list H.isList hdir o, hopened hdir _⟩
  | dirClose dir =>
    obtain ⟨s', hclose, hlist⟩ := dirRawclose_list H.isList H.nodup hlen dir
    exact ⟨errOk, s', hclose, hlist, H.nodup.erase dir⟩
  | create o nameMax cwd =>
    exact ⟨_, _, rfl, dirRawcreate_restored.isList H.isList hallowed, H.nodup⟩
  | remove o dir =>
    exact ⟨_, _, rfl, rawRemoveList_restored.isList H.isList hallowed, H.nodup⟩
  | rename o nameMax prevdir =>
    exact ⟨_, _, rfl, rawRenameList_restored.isList H.isList hallowed, H.nodup⟩

theorem MlistCall.handles_length (call : MlistCall) (err : Int) (handles : List Nat) :
    (call.handles err handles).length ≤ handles.length + 1 := by
  have hopen (node : Nat) :
      (openedHandles err node handles).length ≤ handles.length + 1 := by
    unfold openedHandles
    split
    · exact Nat.le_refl _
    · exact Nat.le_succ _
  cases call with
  | fileOpen o flags nameMax attrMax file => exact hopen file
  | dirOpen o dir => exact hopen dir
  | fileClose sync file => exact List.length_erase_le.trans (Nat.le_succ _)
  | dirClose dir => exact List.length_erase_le.trans (Nat.le_succ _)
  | create | remove | rename => exact Nat.le_succ _

theorem MlistRun.holds (H : MlistRun fuel calls s handles) (hfuel : calls < fuel) :
    HandleList s handles ∧ handles.length ≤ calls := by
  induction H with
  | init => exact ⟨⟨.nil, .nil⟩, Nat.le_refl 0⟩
  | @call calls s handles err s' call H hallowed hexec ih =>
    obtain ⟨hholds, hlen⟩ := ih (Nat.lt_of_succ_lt hfuel)
    obtain ⟨err₁, s₁, hexec₁, hholds₁⟩ :=
      hholds.exec (Nat.lt_of_le_of_lt (Nat.succ_le_succ hlen) hfuel) hallowed
    cases hexec.symm.trans hexec₁
    exact ⟨hholds₁, (call.handles_length err handles).trans (Nat.succ_le_succ hlen)⟩

/-- **The list of open handles.** After every run it holds the handles whose open succeeded and that
are not closed, each once, and every further call returns. -/
theorem MlistRun.exact (H : MlistRun fuel calls s handles) (hfuel : calls + 1 < fuel) :
    IsList s.next s.head handles ∧ handles.Nodup ∧
      ∀ call : MlistCall, call.Allowed fuel s handles → (call.exec fuel s).isSome := by
  obtain ⟨hholds, hlen⟩ := H.holds (Nat.lt_of_succ_lt hfuel)
  refine ⟨hholds.isList, hholds.nodup, fun call hallowed => ?_⟩
  obtain ⟨err, s', hexec, -⟩ :=
    hholds.exec (Nat.lt_of_le_of_lt (Nat.succ_le_succ hlen) hfuel) hallowed
  rw [hexec]
  rfl

/-- A file that is created, a mkdir that fails while its node is hooked, and an open that fails. -/
theorem MlistRun.exact_mkdir : ∃ s, MlistRun 10 3 s [1] ∧ IsList s.next s.head [1] := by
  let find : OpenCalls := { find := errNoent, id := 5, nlen := 3 }
  let mkdir : CreateCalls :=
    { find := errNoent, id := 5, nlen := 3, split := true, commitTail := errNospc }
  have hfile : MlistRun 10 1 _ [1] := .call (.init : MlistRun 10 0 ⟨none, fun _ => none⟩ [])
    (by exact rfl) (rfl : MlistCall.exec 10 _ (.fileOpen find 0x103 255 1022 1) = some (errOk, _))
  have hmkdir : MlistRun 10 2 _ [1] := .call hfile (by exact (by decide : 9 ∉ [1]))
    (rfl : MlistCall.exec 10 _ (.create mkdir 255 9) = some (errNospc, _))
  have hfailed : MlistRun 10 3 _ [1] := .call hmkdir (by exact rfl)
    (rfl : MlistCall.exec 10 _ (.fileOpen find 1 255 1022 3) = some (errNoent, _))
  exact ⟨_, hfailed, (MlistRun.exact hfailed (by decide)).1⟩

end LittleFs
