import LittleFs.Lib.ZeroFill
import LittleFs.Tag

/-! The page cache of `VFSFileObject` in `lfs_interface.cpp`, over a `lfs_file_*` layer that is a
byte array with zero-filled gaps.

A page is read from the layer below when a write first touches it and stays cached until a
truncation drops it; a flush sends the dirty pages down in the order of their indices. `_file_size`
runs ahead of the size on disk until then. -/

namespace LittleFs

open ZeroFill

/-- `VFSFileObject::PAGE_SIZE`. -/
def pageSize : Nat := 4096

/-! ## The layer below -/

/-- An open `lfs_file_t` as a byte array. -/
structure LfsFile where
  content : List UInt8
  pos : Nat := 0
  append : Bool := false
  deriving Repr

namespace LfsFile

/-- `lfs_file_size`. -/
def size (f : LfsFile) : Nat := f.content.length

/-- `lfs_file_seek` with `LFS_SEEK_SET`. -/
def seek (f : LfsFile) (offset : Nat) : LfsFile := { f with pos := offset }

/-- `lfs_file_read`: the bytes it stores. -/
def read (f : LfsFile) (size : Nat) : List UInt8 × LfsFile :=
  let data := slice f.content f.pos size
  (data, { f with pos := f.pos + data.length })

/-- `lfs_file_write`: with `LFS_O_APPEND` a position before the end moves to the end. -/
def write (f : LfsFile) (data : List UInt8) : LfsFile :=
  let pos := if f.append ∧ f.pos < f.content.length then f.content.length else f.pos
  { f with content := writeAt 0 f.content pos data, pos := pos + data.length }

/-- `lfs_file_truncate`. -/
def truncate (f : LfsFile) (size : Nat) : Int × LfsFile :=
  if size > fileMax then (errInval, f) else (errOk, { f with content := resize 0 f.content size })

end LfsFile

/-- `VFSFileObject::Page`. A page is resized to `PAGE_SIZE` as soon as it is created, so a page
whose data is empty is one that is not there. -/
structure Page where
  data : List UInt8
  dirty : Bool := false
  length_data : data.length = pageSize

/-- A page of zeros, with what the layer below stored at its front. -/
def Page.ofBytes (bytes : List UInt8) : Page where
  data := resize 0 bytes pageSize
  length_data := length_resize

/-- `memcpy` into a page. -/
def Page.write (page : Page) (pageOff : Nat) (bytes : List UInt8)
    (h : pageOff + bytes.length ≤ pageSize) : Page where
  data := writeAt 0 page.data pageOff bytes
  dirty := true
  length_data := by rw [length_writeAt, page.length_data, Nat.max_eq_left h]

/-- `VFSFileObject`. -/
structure VFSFileObject where
  file : LfsFile
  pos : Nat := 0
  fileSize : Nat := 0
  isOpen : Bool := false
  pages : Std.TreeMap Nat Page := ∅

inductive SeekType where
  | seekSet
  | seekCur
  | seekEnd
  deriving DecidableEq, Repr

namespace VFSFileObject

/-! ## Opening -/

def kFileRead : BitVec 32 := 1
def kFileWrite : BitVec 32 := 2
def kFileCreateIfNotExists : BitVec 32 := 0x0100
def kFileCreateFailIfExists : BitVec 32 := 0x0200
def kFileTruncate : BitVec 32 := 0x0400
def kFileAppend : BitVec 32 := 0x0800

def lfsORdonly : BitVec 32 := 1
def lfsOWronly : BitVec 32 := 2
def lfsOCreat : BitVec 32 := 0x0100
def lfsOExcl : BitVec 32 := 0x0200
def lfsOTrunc : BitVec 32 := 0x0400
def lfsOAppend : BitVec 32 := 0x0800

/-- The flags that `lfsVFS::open` hands to `lfs_file_open`. -/
def lfsFlags (flags : BitVec 32) : BitVec 32 :=
  let add (flag lfsFlag acc : BitVec 32) := if flags &&& flag ≠ 0 then acc ||| lfsFlag else acc
  add kFileAppend lfsOAppend <| add kFileTruncate lfsOTrunc <|
    add kFileCreateFailIfExists lfsOExcl <| add kFileCreateIfNotExists lfsOCreat <|
    add kFileWrite lfsOWronly <| add kFileRead lfsORdonly 0

/-- `init_file_state`. -/
def initFileState (file : LfsFile) : VFSFileObject :=
  { file, pos := 0, fileSize := file.size, isOpen := true }

/-- `lfsVFS::open` of a file that exists with the given content. -/
def openFile (flags : BitVec 32) (content : List UInt8) : VFSFileObject :=
  initFileState {
    content := if lfsFlags flags &&& lfsOTrunc ≠ 0 then [] else content
    append := lfsFlags flags &&& lfsOAppend ≠ 0 }

/-! ## Pages -/

/-- `load_page_if_needed`, with the page. -/
def loadPageIfNeeded (s : VFSFileObject) (pageIdx : Nat) : Page × VFSFileObject :=
  match s.pages[pageIdx]? with
  | some page => (page, s)
  | none =>
    let pageStart := pageIdx * pageSize
    let diskSz := s.file.size
    let (page, file) :=
      if 0 < diskSz ∧ pageStart < diskSz then
        let (bytes, file) := (s.file.seek pageStart).read (min pageSize (diskSz - pageStart))
        (Page.ofBytes bytes, file)
      else (Page.ofBytes [], s.file)
    (page, { s with file, pages := s.pages.insert pageIdx page })

/-- The indices of the dirty pages; a map lists its keys in order. -/
def dirtyPages (s : VFSFileObject) : List Nat :=
  (s.pages.toList.filter (·.2.dirty)).map (·.1)

/-- What a flush of page `pageIdx` sends to the layer below, and where. -/
def pageWrite (s : VFSFileObject) (pageIdx : Nat) (page : Page) : Option (Nat × List UInt8) :=
  let pageStart := pageIdx * pageSize
  if pageStart < s.fileSize then
    some (pageStart, slice page.data 0 (min pageSize (s.fileSize - pageStart)))
  else none

/-- One round of the loop of `flush_internal`. -/
def flushPage (s : VFSFileObject) (pageIdx : Nat) : VFSFileObject :=
  match s.pages[pageIdx]? with
  | none => s
  | some page =>
    let file :=
      match s.pageWrite pageIdx page with
      | some (pageStart, bytes) => (s.file.seek pageStart).write bytes
      | none => s.file
    { s with file, pages := s.pages.insert pageIdx { page with dirty := false } }

/-- `flush_internal`. -/
def flushInternal (s : VFSFileObject) : VFSFileObject :=
  if s.isOpen then s.dirtyPages.foldl flushPage s else s

/-! ## The calls -/

/-- The loop of `read`: the caller's buffer and the layer below after it. -/
def readPages (s : VFSFileObject) (bytesToRead bytesRead : Nat) (dst : List UInt8)
    (file : LfsFile) : Nat × List UInt8 × LfsFile :=
  if _ : bytesRead < bytesToRead then
    let currPos := s.pos + bytesRead
    let pageIdx := currPos / pageSize
    let pageOff := currPos % pageSize
    let chunk := min (bytesToRead - bytesRead) (pageSize - pageOff)
    match s.pages[pageIdx]? with
    | some page =>
      readPages s bytesToRead (bytesRead + chunk)
        (writeAt 0 dst bytesRead (slice page.data pageOff chunk)) file
    | none =>
      -- a short read stores fewer bytes, and the rest of the chunk is not touched
      let (bytes, file) := (file.seek currPos).read chunk
      readPages s bytesToRead (bytesRead + chunk) (writeAt 0 dst bytesRead bytes) file
  else (bytesRead, dst, file)
termination_by bytesToRead - bytesRead
decreasing_by all_goals
  have := Nat.mod_lt (s.pos + bytesRead) (show 0 < pageSize by decide)
  omega

/-- `read` into a buffer of `size` bytes: the result and the buffer. -/
def read (s : VFSFileObject) (buffer : List UInt8) : Nat × List UInt8 × VFSFileObject :=
  if ¬ s.isOpen ∨ buffer.length = 0 then (0, buffer, s)
  else if s.pos ≥ s.fileSize then (0, buffer, s)
  else
    let bytesToRead := min buffer.length (s.fileSize - s.pos)
    let (bytesRead, dst, file) := readPages s bytesToRead 0 buffer s.file
    (bytesRead, dst, { s with file, pos := s.pos + bytesRead })

/-- One round of the loop of `write`. -/
def writeChunk (s : VFSFileObject) (currPos : Nat) (bytes : List UInt8)
    (h : currPos % pageSize + bytes.length ≤ pageSize) : VFSFileObject :=
  let pageIdx := currPos / pageSize
  let (page, s) := s.loadPageIfNeeded pageIdx
  { s with
    pages := s.pages.insert pageIdx (page.write (currPos % pageSize) bytes h)
    fileSize := if currPos + bytes.length > s.fileSize then currPos + bytes.length else s.fileSize }

/-- The loop of `write`. -/
def writePages (data : List UInt8) (bytesWritten : Nat) (s : VFSFileObject) : VFSFileObject :=
  if _ : bytesWritten < data.length then
    let currPos := s.pos + bytesWritten
    let chunk := min (data.length - bytesWritten) (pageSize - currPos % pageSize)
    have hmod : currPos % pageSize < pageSize := Nat.mod_lt _ (by decide)
    writePages data (bytesWritten + chunk) <|
      s.writeChunk currPos (slice data bytesWritten chunk) (by rw [length_slice]; omega)
  else s
termination_by data.length - bytesWritten
decreasing_by
  have := Nat.mod_lt (s.pos + bytesWritten) (show 0 < pageSize by decide)
  omega

/-- `write`. -/
def write (s : VFSFileObject) (data : List UInt8) : Nat × VFSFileObject :=
  if ¬ s.isOpen ∨ data.length = 0 then (0, s)
  else
    let s' := writePages data 0 s
    (data.length, { s' with pos := s.pos + data.length })

/-- `truncate`. -/
def truncate (s : VFSFileObject) (size : Nat) : Int × VFSFileObject :=
  if ¬ s.isOpen then (errBadf, s)
  else
    let s := s.flushInternal
    let (err, file) := s.file.truncate size
    if err = errOk then
      let maxPage := (size + pageSize - 1) / pageSize
      (err, { s with
        file
        fileSize := size
        pos := if s.pos > size then size else s.pos
        pages := s.pages.filter fun pageIdx _ => ¬ pageIdx ≥ maxPage })
    else (err, { s with file })

/-- `new_pos`, in the two's complement arithmetic of `int64_t`. -/
def newPos (pos fileSize : Nat) (offset : BitVec 64) : SeekType → BitVec 64
  | .seekSet => offset
  | .seekCur => BitVec.ofNat 64 pos + offset
  | .seekEnd => BitVec.ofNat 64 fileSize + offset

/-- `seek`. -/
def seek (s : VFSFileObject) (offset : BitVec 64) (type : SeekType) : Int × VFSFileObject :=
  if ¬ s.isOpen then (errBadf, s)
  else
    let new := newPos s.pos s.fileSize offset type
    if new.toInt < 0 then (errInval, s) else (new.toInt, { s with pos := new.toNat })

/-- `size`. -/
def size (s : VFSFileObject) : Int := if s.isOpen then s.fileSize else errBadf

/-- `flush`. -/
def flush (s : VFSFileObject) : VFSFileObject := s.flushInternal

/-- A call on an open file. -/
inductive Call where
  | seek (offset : BitVec 64) (type : SeekType)
  | write (data : List UInt8)
  | read (buffer : List UInt8)
  | flush
  | truncate (size : Nat)
  deriving DecidableEq, Repr

def call (s : VFSFileObject) : Call → VFSFileObject
  | .seek offset type => (s.seek offset type).2
  | .write data => (s.write data).2
  | .read buffer => (s.read buffer).2.2
  | .flush => s.flush
  | .truncate size => (s.truncate size).2

end VFSFileObject

end LittleFs
