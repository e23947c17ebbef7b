import Mathlib.Data.Fin.Tuple.Basic
import Unics.Libc.CString

/-!
# The file system

`usr/drivers/fs.c`: a table of 64 slots, a flag for each slot that says whether it is free, and a
current directory. The module holds the functions as the source writes them, on one value that has
the driver's globals as its fields; what they keep is proved under `Laws/Fs`.

- A `File *` is a slot or null, and a function that returns one returns `Option Slot`.
- A file's block is the list of its bytes. `malloc` and `realloc` may fail, so the functions that
  call them take what the heap answers: nothing, or a block of arbitrary bytes.
- `memcpy` into a block writes the bytes that lie in it. Each copy is recorded with its slot, offset
  and length; what a copy beyond the block does elsewhere is outside this model.
- The scan of a lookup is over the slots below `file_count`. A count above 64 would read past the
  table; none of the driver's functions makes one.
-/

namespace Unics

abbrev maxFiles : Nat := 64

instance : NeZero maxFiles := ⟨Nat.succ_ne_zero 63⟩

/-- An index of the table, and a `File *` that is not null. -/
abbrev Slot := Fin maxFiles

def maxFilenameLen : Nat := 32

def maxFileSize : SizeT := 8192

/-- `PATH_MAX` of `sys/fs.h`. -/
def pathMax : Nat := 256

def fsBlockSize : SizeT := 512

/-- `FS_SUCCESS` and the error codes. -/
inductive FsCode where
  | success
  | errFull
  | errNameTooLong
  | errExists
  | errNotFound
  | errNoMemory
  | errFileOpen
  | errNotOpen
  | errNotEmpty
  | errInvalidPath
  | errSeekBounds
  deriving DecidableEq, Repr

/-- The value of a code. -/
def FsCode.toInt : FsCode → Int
  | .success => 0
  | .errFull => -1
  | .errNameTooLong => -2
  | .errExists => -3
  | .errNotFound => -4
  | .errNoMemory => -5
  | .errFileOpen => -6
  | .errNotOpen => -7
  | .errNotEmpty => -8
  | .errInvalidPath => -9
  | .errSeekBounds => -10

def fsPermRead : UInt8 := 0x01
def fsPermWrite : UInt8 := 0x02
def fsPermExec : UInt8 := 0x04
def fsPermDefault : UInt8 := fsPermRead ||| fsPermWrite

structure File where
  name : CString
  data : Option (List UInt8)
  size : SizeT
  allocatedSize : SizeT
  isOpen : Bool
  position : SizeT
  isDir : Bool
  permissions : UInt8
  inode : BitVec 32
  parent : Option Slot
  createdTime : BitVec 64
  modifiedTime : BitVec 64
  deriving DecidableEq

/-- A slot after `memset(file, 0, sizeof(File))`. -/
def File.zero : File where
  name := .empty
  data := none
  size := 0
  allocatedSize := 0
  isOpen := false
  position := 0
  isDir := false
  permissions := 0
  inode := 0
  parent := none
  createdTime := 0
  modifiedTime := 0

/-- `root_fs` and `current_dir`, and the counter that `time` returns. -/
structure Fs where
  files : Slot → File
  fileCount : Nat
  nextInode : BitVec 32
  freeList : Slot → Bool
  currentDir : Option Slot
  currentTime : BitVec 64

/-- The globals as the program starts. -/
def fsStart : Fs where
  files _ := .zero
  fileCount := 0
  nextInode := 0
  freeList _ := false
  currentDir := none
  currentTime := 0

/-- A store to a slot's file. -/
def Fs.setFile (s : Fs) (i : Slot) (f : File) : Fs :=
  { s with files := Function.update s.files i f }

/-- A store to a slot's flag. -/
def Fs.setFree (s : Fs) (i : Slot) (b : Bool) : Fs :=
  { s with freeList := Function.update s.freeList i b }

/-! ## Blocks -/

/-- A `memcpy` into or out of a file's block. -/
structure Memcpy where
  slot : Slot
  offset : SizeT
  count : SizeT
  deriving DecidableEq, Repr

/-- A block of `n` bytes from the heap. -/
def mallocBlock (heap : Heap) (n : SizeT) : Option (List UInt8) :=
  heap.map fun junk => (List.range n.toNat).map junk

/-- `realloc`: a new block that starts with the bytes of the old one. -/
def reallocBlock (heap : Heap) (old : Option (List UInt8)) (n : SizeT) : Option (List UInt8) :=
  heap.map fun junk => (List.range n.toNat).map fun i => (old.getD []).getD i (junk i)

/-- `memcpy(block + offset, source, count)`. -/
def copyIn (block : List UInt8) (offset count : SizeT) (source : Buffer) : List UInt8 :=
  block.mapIdx fun i b =>
    if offset.toNat ≤ i ∧ i < offset.toNat + count.toNat then source (i - offset.toNat) else b

/-- The bytes that `memcpy(dest, block + offset, count)` reads. -/
def copyOut (block : List UInt8) (offset count : SizeT) : List UInt8 :=
  (block.drop offset.toNat).take count.toNat

/-! ## Time, slots, permissions -/

/-- `fs_get_time`: the counter goes up first. -/
def fsGetTime (s : Fs) : Fs × BitVec 64 :=
  ({ s with currentTime := s.currentTime + 1 }, s.currentTime + 1)

def fsFindFreeSlot (s : Fs) : Option Slot := Fin.find? s.freeList

def fsHasPerm (file : File) (perm : UInt8) : Bool := file.permissions &&& perm == perm

def fsInit (s : Fs) : Fs :=
  let (s, now) := fsGetTime s
  let rootDir : File :=
    { File.zero with
      name := .slash
      isDir := true
      permissions := fsPermRead ||| fsPermWrite ||| fsPermExec
      inode := 1
      createdTime := now
      modifiedTime := now }
  { files := Function.update (fun _ => File.zero) 0 rootDir
    fileCount := 1
    nextInode := 2
    freeList := Function.update (fun _ => true) 0 false
    currentDir := some 0
    currentTime := s.currentTime }

/-! ## Names and lookup -/

def fsIsValidPathChar (c : UInt8) : Bool :=
  ('a'.toUInt8 ≤ c && c ≤ 'z'.toUInt8) || ('A'.toUInt8 ≤ c && c ≤ 'Z'.toUInt8) ||
    ('0'.toUInt8 ≤ c && c ≤ '9'.toUInt8) || (c == '-'.toUInt8 || c == '_'.toUInt8) ||
    c == '.'.toUInt8

def fsValidateFilename : Option CString → FsCode
  | none => .errInvalidPath
  | some filename =>
    if filename.strlen = 0 then .errInvalidPath
    else if filename.strlen ≥ maxFilenameLen then .errNameTooLong
    else if ¬ filename.bytes.all fsIsValidPathChar then .errInvalidPath
    -- "." and ".." are special
    else if filename = .dot ∨ filename = .dotdot then .errInvalidPath
    else .success

def fsFindFileInDir (s : Fs) : Option CString → Option Slot → Option Slot
  | some filename, some dir => Fin.find? fun i =>
      decide (i.val < s.fileCount) && !s.freeList i && (s.files i).parent == some dir &&
        (s.files i).name == filename
  | _, _ => none

def fsFindFile (s : Fs) (filename : Option CString) : Option Slot :=
  fsFindFileInDir s filename s.currentDir

/-! ## Resizing, creating, deleting -/

/-- The end of `fs_resize_file`: the file has room for the new size. -/
def resizeStamp (s : Fs) (i : Slot) (file : File) (newSize : SizeT) : Fs :=
  let (s, now) := fsGetTime s
  s.setFile i { file with size := newSize, modifiedTime := now }

def fsResizeFile (s : Fs) (file : Option Slot) (newSize : SizeT) (heap : Heap) : Fs × FsCode :=
  match file with
  | none => (s, .errInvalidPath)
  | some i =>
    let f := s.files i
    if f.isDir then (s, .errInvalidPath)
    else
      -- silently clamped: the caller is told success for the size it asked for
      let newSize := if newSize > maxFileSize then maxFileSize else newSize
      if newSize > f.allocatedSize then
        let newAllocated := (newSize + fsBlockSize - 1) / fsBlockSize * fsBlockSize
        match reallocBlock heap f.data newAllocated with
        | none => (s, .errNoMemory)
        | some block =>
          (resizeStamp s i { f with data := some block, allocatedSize := newAllocated } newSize,
            .success)
      else (resizeStamp s i f newSize, .success)

def fsCreateWithPerms (s : Fs) (filename : Option CString) (permissions : UInt8) (heap : Heap) :
    Fs × FsCode :=
  match filename, fsValidateFilename filename with
  | some name, .success =>
    if (fsFindFile s filename).isSome then (s, .errExists)
    else
      match fsFindFreeSlot s with
      | none => (s, .errFull)
      | some slot =>
        let file :=
          { s.files slot with
            name := name.strncpy (maxFilenameLen - 1)
            allocatedSize := fsBlockSize
            data := mallocBlock heap fsBlockSize }
        match file.data with
        -- the flag is put back, what was stored in the slot stays
        | none => (s.setFile slot file, .errNoMemory)
        | some _ =>
          let (s, now) := fsGetTime s
          let file :=
            { file with
              size := 0
              isOpen := false
              isDir := false
              parent := s.currentDir
              position := 0
              permissions
              inode := s.nextInode
              createdTime := now
              modifiedTime := now }
          ({ (s.setFree slot false).setFile slot file with
              nextInode := s.nextInode + 1
              fileCount := s.fileCount + 1 }, .success)
  | _, code => (s, code)

def fsCreate (s : Fs) (filename : Option CString) (heap : Heap) : Fs × FsCode :=
  fsCreateWithPerms s filename fsPermDefault heap

def fsDelete (s : Fs) (filename : Option CString) : Fs × FsCode :=
  match fsFindFile s filename with
  | none => (s, .errNotFound)
  | some i =>
    let f := s.files i
    if f.isOpen then (s, .errFileOpen)
    else if i = 0 then (s, .errInvalidPath)
    else if f.isDir ∧ ∃ j, s.freeList j = false ∧ (s.files j).parent = some i then
      (s, .errNotEmpty)
    else
      -- when the current directory goes, its parent becomes current
      let currentDir := if f.isDir ∧ s.currentDir = some i then f.parent else s.currentDir
      ({ (s.setFree i true).setFile i .zero with
          currentDir
          fileCount := s.fileCount - 1 }, .success)

/-! ## Open files -/

def fsOpen (s : Fs) (filename : Option CString) : Fs × FsCode :=
  match fsFindFile s filename with
  | none => (s, .errNotFound)
  | some i =>
    let f := s.files i
    if f.isDir then (s, .errInvalidPath)
    else if f.isOpen then (s, .errFileOpen)
    else (s.setFile i { f with isOpen := true, position := 0 }, .success)

def fsClose (s : Fs) (filename : Option CString) : Fs × FsCode :=
  match fsFindFile s filename with
  | none => (s, .errNotFound)
  | some i =>
    let f := s.files i
    if !f.isOpen then (s, .errNotOpen)
    else (s.setFile i { f with isOpen := false }, .success)

/-- What a transfer between a file and a caller's buffer comes to: the state, the count returned,
the bytes stored in the caller's buffer and the copies made. -/
structure FsTransfer where
  after : Fs
  count : SizeT
  stored : List UInt8
  copies : List Memcpy

/-- A transfer that returns 0 at once. -/
def noTransfer (s : Fs) : FsTransfer := { after := s, count := 0, stored := [], copies := [] }

def fsRead (s : Fs) (filename : Option CString) (buffer : UIntPtr) (size : SizeT) : FsTransfer :=
  if buffer = null ∨ size = 0 then noTransfer s
  else
    match fsFindFile s filename with
    | none => noTransfer s
    | some i =>
      let f := s.files i
      if !f.isOpen || f.isDir then noTransfer s
      else if f.permissions &&& fsPermRead == 0 then noTransfer s
      else
        let available := if f.size > f.position then f.size - f.position else 0
        let count := if size < available then size else available
        if count > 0 then
          { after := s.setFile i { f with position := f.position + count }
            count
            stored := copyOut (f.data.getD []) f.position count
            copies := [⟨i, f.position, count⟩] }
        else noTransfer s

/-- The end of `fs_write`: the copy, for a length that is taken to fit. -/
def fsWriteCopy (s : Fs) (i : Slot) (buffer : Buffer) (size : SizeT) : FsTransfer :=
  let f := s.files i
  let position := f.position + size
  let (s, now) := fsGetTime s
  { after := s.setFile i
      { f with
        data := f.data.map fun block => copyIn block f.position size buffer
        position
        size := if position > f.size then position else f.size
        modifiedTime := now }
    count := size
    stored := []
    copies := [⟨i, f.position, size⟩] }

def fsWrite (s : Fs) (filename : Option CString) (buffer : Option Buffer) (size : SizeT)
    (heap : Heap) : FsTransfer :=
  match buffer with
  | none => noTransfer s
  | some buffer =>
    if size = 0 then noTransfer s
    else
      match fsFindFile s filename with
      | none => noTransfer s
      | some i =>
        let f := s.files i
        if !f.isOpen || f.isDir then noTransfer s
        else if !fsHasPerm f fsPermWrite then noTransfer s
        else
          let requiredSize := f.position + size
          if requiredSize > f.size then
            match fsResizeFile s (some i) requiredSize heap with
            | (s, .success) => fsWriteCopy s i buffer size
            | (s, _) =>
              let f := s.files i
              let available :=
                if f.allocatedSize > f.position then f.allocatedSize - f.position else 0
              if available = 0 then noTransfer s
              else fsWriteCopy s i buffer (if size < available then size else available)
          else fsWriteCopy s i buffer size

def fsSeek (s : Fs) (filename : Option CString) (offset : SizeT) : Fs × FsCode :=
  match fsFindFile s filename with
  | none => (s, .errNotFound)
  | some i =>
    let f := s.files i
    if !f.isOpen then (s, .errNotOpen)
    else if offset > f.size then (s, .errSeekBounds)
    else (s.setFile i { f with position := offset }, .success)

/-! ## Directories -/

def fsMkdir (s : Fs) (dirname : Option CString) : Fs × FsCode :=
  match dirname, fsValidateFilename dirname with
  | some name, .success =>
    if (fsFindFile s dirname).isSome then (s, .errExists)
    else
      match fsFindFreeSlot s with
      | none => (s, .errFull)
      | some slot =>
        let (s, now) := fsGetTime s
        let dir : File :=
          { name := name.strncpy (maxFilenameLen - 1)
            data := none
            size := 0
            allocatedSize := 0
            isOpen := false
            position := 0
            isDir := true
            permissions := fsPermRead ||| fsPermWrite ||| fsPermExec
            inode := s.nextInode
            parent := s.currentDir
            createdTime := now
            modifiedTime := now }
        ({ (s.setFree slot false).setFile slot dir with
            nextInode := s.nextInode + 1
            fileCount := s.fileCount + 1 }, .success)
  | _, code => (s, code)

def fsChdir (s : Fs) (dirname : CString) : Fs × FsCode :=
  if dirname = .dotdot then
    -- A null `current_dir` (before `fs_init`, or after `cd /`) is taken for one without a parent:
    -- what the code reads of it is not modelled.
    match s.currentDir.bind fun d => (s.files d).parent with
    | some parent => ({ s with currentDir := some parent }, .success)
    | none => (s, .errInvalidPath)
  else
    match fsFindFile s (some dirname) with
    | none => (s, .errNotFound)
    | some i =>
      if !(s.files i).isDir then (s, .errInvalidPath)
      else ({ s with currentDir := some i }, .success)

/-! ## Paths and listings -/

/-- What `fs_getcwd` stores from the start of its buffer on, and whether it returns the buffer or
null. -/
structure Getcwd where
  stored : List UInt8
  returned : Bool
  deriving DecidableEq, Repr

/-- The loop up the tree: the directories from `dir` on, at most `n` of them. -/
def cwdDirs (files : Slot → File) : Nat → Option Slot → List Slot
  | 0, _ => []
  | _ + 1, none => []
  | n + 1, some d => d :: cwdDirs files n (files d).parent

/-- The loop that builds the path, over the directories that are left. Indices into the buffer stay
far below 2^32. -/
def cwdLoop (files : Slot → File) (size : SizeT) : List Slot → List UInt8 → Getcwd
  | [], stored => { stored := stored ++ [0], returned := true }
  | d :: dirs, stored =>
    match (files d).parent with
    | none =>
      -- root directory: the loop is left
      let stored := if stored.length = 0 then stored ++ [47] else stored
      { stored := stored ++ [0], returned := true }
    | some _ =>
      if stored.length + 1 + (files d).name.strlen ≥ size.toNat then
        { stored, returned := false }
      else cwdLoop files size dirs (stored ++ 47 :: (files d).name.bytes)

/-- The two loops of `fs_getcwd`, the second over what the first has found, from the last on. -/
def cwdBuild (s : Fs) (size : SizeT) : Getcwd :=
  cwdLoop s.files size (cwdDirs s.files maxFiles s.currentDir).reverse []

def fsGetcwd (s : Fs) (buffer : UIntPtr) (size : SizeT) : Getcwd :=
  if buffer = null ∨ size = 0 then { stored := [], returned := false } else cwdBuild s size

/-- What a line of `fs_list` shows of a file. -/
structure FsListRow where
  name : CString
  isDir : Bool
  size : SizeT
  permissions : List UInt8
  modifiedTime : BitVec 64
  deriving DecidableEq

/-- `"rwx"`, with a dash for what is not permitted. -/
def permText (permissions : UInt8) : List UInt8 :=
  [if permissions &&& fsPermRead = 0 then 45 else 114,
    if permissions &&& fsPermWrite = 0 then 45 else 119,
    if permissions &&& fsPermExec = 0 then 45 else 120]

/-- The slots that `fs_list` shows. -/
def fsListed (s : Fs) : List Slot :=
  (List.finRange maxFiles).filter fun i => !s.freeList i && (s.files i).parent == s.currentDir

/-- What `fs_list` prints: the path of the directory, unless it is unknown, and a line for each
file. -/
structure FsListing where
  path : Option (List UInt8)
  rows : List FsListRow

def fsList (s : Fs) : FsListing :=
  -- into an array of its own
  let cwd := cwdBuild s (BitVec.ofNat 32 pathMax)
  { path := if cwd.returned then some (cwd.stored.takeWhile (· ≠ 0)) else none
    rows := (fsListed s).map fun i =>
      let f := s.files i
      { name := f.name
        isDir := f.isDir
        size := f.size
        permissions := permText f.permissions
        modifiedTime := f.modifiedTime } }

end Unics
