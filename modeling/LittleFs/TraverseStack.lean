import LittleFs.Lib.FrameStack
import LittleFs.Traverse

/-! The explicit stack of `lfs_dir_traverse`, on logs of any content: a state is what the locals of
the function hold, and a step is a part of the body of its loop.

A buffer is a pointer. What a pointer leads to, what the callback of the caller does and what the
device returns for the tag at an offset are given by functions. -/

namespace LittleFs

/-! ## The locals -/

/-- `LFS_DIR_TRAVERSE_DEPTH`; the array has a slot less. -/
def dirTraverseDepth : Nat := 3

/-- A buffer: `&disk` with what `disk` holds, or an address in memory. -/
inductive Pointer where
  | disk (block offset : Nat)
  | memory (address : Nat)
  deriving DecidableEq, Repr

/-- Of an `lfs_metadata_dir_t` the traversal reads `pair[0]` and `offset`. -/
structure TraversedDir where
  block : Nat
  offset : Nat
  deriving DecidableEq, Repr

/-- `lfs_metadata_attribute_t`. -/
structure ListedAttr where
  tag : Tag
  buffer : Nat
  deriving DecidableEq, Repr

/-- `lfs_user_attribute_t`. -/
structure ListedUserAttr where
  type : UInt8
  size : Nat
  buffer : Nat
  deriving DecidableEq, Repr

/-- `cb` with its `data`: the callback of the caller, or `lfs_dir_traverse_filter` with the tag in
a slot of the stack. -/
inductive TraverseCallback where
  | caller
  | filter (slot : Nat)
  deriving DecidableEq, Repr

/-- The locals that a push saves and replaces. -/
structure TraverseLevel where
  dir : TraversedDir
  offset : Nat
  ptag : Tag
  attrs : List ListedAttr
  tmask : Tag
  ttag : Tag
  begin : Nat
  stop : Nat
  diff : Int
  cb : TraverseCallback
  deriving DecidableEq, Repr

/-- `lfs_dir_traverse_t`. -/
structure TraverseFrame extends TraverseLevel where
  tag : Tag
  buffer : Pointer
  deriving DecidableEq, Repr

/-- Where the loop is. -/
inductive TraverseControl where
  | loop
  /-- At the label `popped`. -/
  | popped (tag : Tag) (buffer : Pointer)
  /-- Behind the loop, after a `break`. -/
  | broken (res : Int)
  | returned (res : Int)
  deriving DecidableEq, Repr

structure Traverser (σ : Type) where
  level : TraverseLevel
  /-- The slots of the array up to `stack_index`. -/
  stack : List TraverseFrame
  control : TraverseControl
  /-- What the callback of the caller works on. -/
  data : σ

/-- What the traversal meets. -/
structure TraverseWorld (σ : Type) where
  /-- The tag that `lfs_bd_read` returns for an offset of a block, after `lfs_frombe32`. -/
  read : Nat → Nat → Except Int Tag
  /-- What a pointer leads to, taken for an `lfs_metadata_dir_t`. -/
  dirAt : Pointer → TraversedDir
  /-- What a pointer leads to, taken for a list of `lfs_user_attribute_t`. -/
  userattrAt : Pointer → Nat → ListedUserAttr
  /-- The callback of the caller. -/
  cb : Tag → Pointer → σ → Int × σ

variable {σ : Type}

/-! ## The loop -/

def Traverser.goto (s : Traverser σ) (control : TraverseControl) : Traverser σ :=
  { s with control := control }

/-- The locals of a pass of `lfs_dir_traverse_filter` over what is left. -/
def TraverseLevel.filtering (l : TraverseLevel) (slot : Nat) : TraverseLevel :=
  { l with tmask := 0#32, ttag := 0#32, begin := 0, stop := 0, diff := 0, cb := .filter slot }

/-- What is done with the next tag, up to the label. -/
def Traverser.visit (tag : Tag) (buffer : Pointer) (s : Traverser σ) : Traverser σ :=
  let mask := mkTag typeMovestate 0 0
  -- do we need to filter?
  if mask &&& s.level.tmask &&& tag ≠ mask &&& s.level.tmask &&& s.level.ttag then s.goto .loop
  else if tagId s.level.tmask ≠ 0 then
    -- recurse, scan for duplicates, and update tag based on creates/deletes
    { s with
      level := s.level.filtering s.stack.length
      stack := s.stack ++ [{ s.level with tag := tag, buffer := buffer }]
      control := .loop }
  else s.goto (.popped tag buffer)

/-- The body of the loop up to the label. -/
def Traverser.next (w : TraverseWorld σ) (s : Traverser σ) : Traverser σ :=
  let l := s.level
  if l.offset + tagDsize l.ptag < l.dir.offset then
    let offset := l.offset + tagDsize l.ptag
    match w.read l.dir.block offset with
    | .error err => s.goto (.returned err)
    | .ok word =>
      let tag := (word ^^^ l.ptag) ||| 0x80000000#32
      Traverser.visit tag (.disk l.dir.block (offset + 4))
        { s with level := { l with offset := offset, ptag := tag } }
  else match l.attrs with
    | a :: attrs =>
      Traverser.visit a.tag (.memory a.buffer) { s with level := { l with attrs := attrs } }
    -- finished traversal, pop from stack?
    | [] => s.goto (.broken 0)

/-- A call of `cb`. -/
def Traverser.call (w : TraverseWorld σ) (tag : Tag) (buffer : Pointer) (s : Traverser σ) :
    Int × Traverser σ :=
  match s.level.cb with
  | .caller =>
    let (res, data) := w.cb tag buffer s.data
    (res, { s with data := data })
  | .filter slot =>
    let filtertag := (s.stack[slot]?.map (·.tag)).getD 0#32
    let (filtertag, res) := dirTraverseFilter tag filtertag
    (if res then 1 else 0,
      { s with stack := s.stack.modify slot fun f => { f with tag := filtertag } })

/-- The tag of a user attribute. -/
def ListedUserAttr.tag (a : ListedUserAttr) (id : Int) : Tag :=
  (BitVec.ofNat 32 (typeUserattr + a.type.toNat) <<< 20) ||| idShift id ||| BitVec.ofNat 32 a.size

/-- The loop over the list of an `LFS_FROM_USERATTRS`, `count` of which are left. -/
def Traverser.callUserattrs (w : TraverseWorld σ) (id : Int) (buffer : Pointer) :
    (count i : Nat) → Traverser σ → Int × Traverser σ
  | 0, _, s => (0, s)
  | count + 1, i, s =>
    let a := w.userattrAt buffer i
    let (res, s) := s.call w (a.tag id) (.memory a.buffer)
    -- an error, or the end of this loop only
    if res ≠ 0 then (res, s) else Traverser.callUserattrs w id buffer count (i + 1) s

/-- The locals of a pass over the directory of an `LFS_FROM_MOVE`. -/
def TraverseLevel.moving (l : TraverseLevel) (dir : TraversedDir) (tag : Tag) : TraverseLevel :=
  let fromid := tagSize tag
  let toid := tagId tag
  { dir := dir
    offset := 0
    ptag := 0xffffffff#32
    attrs := []
    tmask := mkTag typeTail 0x3ff 0
    ttag := mkTag typeStruct 0 0
    begin := fromid
    stop := fromid + 1
    diff := toid - fromid + l.diff
    cb := l.cb }

/-- The body of the loop from the label on. -/
def Traverser.dispatch (w : TraverseWorld σ) (tag : Tag) (buffer : Pointer) (s : Traverser σ) :
    Traverser σ :=
  -- in filter range?
  if tagId s.level.tmask ≠ 0 ∧ ¬ (tagId tag ≥ s.level.begin ∧ tagId tag < s.level.stop) then
    s.goto .loop
  else if tagType3 tag = fromNoop then s.goto .loop
  else if tagType3 tag = fromMove then
    if s.level.cb = .caller then
      -- recurse into move
      { s with
        level := s.level.moving (w.dirAt buffer) tag
        stack := s.stack ++ [{ s.level with tag := mkTag fromNoop 0 0, buffer := .memory 0 }]
        control := .loop }
    else s.goto .loop
  else if tagType3 tag = fromUserattrs then
    let (res, s) := s.callUserattrs w (tagId tag + s.level.diff) buffer (tagSize tag) 0
    if res < 0 then s.goto (.returned res) else s.goto .loop
  else
    let (res, s) := s.call w (tag + idShift s.level.diff) buffer
    if res < 0 then s.goto (.returned res)
    else if res ≠ 0 then s.goto (.broken res)
    else s.goto .loop

/-- One step of `lfs_dir_traverse`. -/
def Traverser.step (w : TraverseWorld σ) (s : Traverser σ) : Traverser σ :=
  match s.control with
  | .loop => s.next w
  | .popped tag buffer => s.dispatch w tag buffer
  | .broken res =>
    match s.stack.getLast? with
    -- pop from the stack and return, fortunately all pops share a destination
    | some f =>
      { s with
        level := f.toTraverseLevel
        stack := s.stack.dropLast
        control := .popped f.tag f.buffer }
    | none => s.goto (.returned res)
  | .returned _ => s

/-! ## The calls -/

/-- The masks with which the callers ask for the tags of a directory, and for attributes only. -/
inductive TraverseUse where
  | compact
  | commit
  deriving DecidableEq, Repr

def TraverseUse.tmask : TraverseUse → Tag
  | .compact => mkTag typeSplice 0x3ff 0
  | .commit => 0#32

def TraverseUse.ttag : TraverseUse → Tag
  | .compact => mkTag typeName 0 0
  | .commit => 0#32

/-- The arguments of a call. -/
structure TraverseCall where
  dir : TraversedDir
  offset : Nat
  ptag : Tag
  attrs : List ListedAttr
  use : TraverseUse
  begin : Nat
  stop : Nat
  diff : Int
  deriving DecidableEq, Repr

def TraverseCall.start (c : TraverseCall) (data : σ) : Traverser σ where
  level := {
    dir := c.dir
    offset := c.offset
    ptag := c.ptag
    attrs := c.attrs
    tmask := c.use.tmask
    ttag := c.use.ttag
    begin := c.begin
    stop := c.stop
    diff := c.diff
    cb := .caller }
  stack := []
  control := .loop
  data := data

/-- The state after so many steps of a call. -/
def TraverseCall.after (w : TraverseWorld σ) (c : TraverseCall) (data : σ) (n : Nat) :
    Traverser σ :=
  (Traverser.step w)^[n] (c.start data)

end LittleFs
