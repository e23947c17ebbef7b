import Unics.Drivers.Fs

/-!
# File descriptors

`lib/libc/unistd.c`: a table of 32 descriptors over the file system. An `int fd` is an integer, and
`fdIndex` is the range check that `get_file` makes. `ssize_t` is 32 bits wide and `off_t` 64.
-/

namespace Unics

abbrev maxFds : Nat := 32

/-- An index of `fd_table`. -/
abbrev Fd := Fin maxFds

/-- `fd_table` and the file system. -/
structure Unistd where
  fs : Fs
  fdTable : Fd → Option Slot

def oCreat : BitVec 32 := 0x04
def oTrunc : BitVec 32 := 0x08

/-- A store to a file through its pointer. -/
def Unistd.setFile (u : Unistd) (i : Slot) (f : File) : Unistd :=
  { u with fs := u.fs.setFile i f }

/-- The range check of `get_file`. -/
def fdIndex (fd : Int) : Option Fd :=
  if h : 0 ≤ fd ∧ fd < maxFds then some ⟨fd.toNat, by omega⟩ else none

def getFile (u : Unistd) (fd : Int) : Option Slot := (fdIndex fd).bind u.fdTable

/-- `alloc_fd`: descriptors 0, 1 and 2 are reserved. -/
def allocFd (u : Unistd) (file : Slot) : Unistd × Option Fd :=
  match Fin.find? fun i : Fd => decide (3 ≤ i.val) && (u.fdTable i).isNone with
  | some i =>
    ({ u.setFile file { u.fs.files file with isOpen := true, position := 0 } with
        fdTable := Function.update u.fdTable i (some file) }, some i)
  | none => (u, none)

/-- The first half of `open`: the file of that name, created if the flags ask for it. -/
def openLookup (s : Fs) (pathname : Option CString) (flags : BitVec 32) (heap : Heap) :
    Fs × Option Slot :=
  match fsFindFile s pathname with
  | some file => (s, some file)
  | none =>
    if flags &&& oCreat = 0 then (s, none)
    else
      match fsCreate s pathname heap with
      | (s, .success) => (s, fsFindFile s pathname)
      | (s, _) => (s, none)

/-- `open`. -/
def unistdOpen (u : Unistd) (pathname : Option CString) (flags : BitVec 32) (heap : Heap) :
    Unistd × Int :=
  match openLookup u.fs pathname flags heap with
  | (s, none) => ({ u with fs := s }, -1)
  | (s, some file) =>
    match allocFd { u with fs := s } file with
    | (u, none) => (u, -1)
    | (u, some fd) =>
      let f := u.fs.files file
      if flags &&& oTrunc = 0 then (u, fd.val)
      else
        match f.data with
        | none => (u, fd.val)
        | some block =>
          (u.setFile file
            { f with
              data := some (copyIn block 0 f.allocatedSize fun _ => 0)
              size := 0
              position := 0 }, fd.val)

/-- `close`. -/
def unistdClose (u : Unistd) (fd : Int) : Unistd × Int :=
  match fdIndex fd with
  | none => (u, -1)
  | some i =>
    match u.fdTable i with
    | none => (u, -1)
    | some file =>
      ({ u.setFile file { u.fs.files file with isOpen := false } with
          fdTable := Function.update u.fdTable i none }, 0)

/-- What a transfer through a descriptor comes to. -/
structure UnistdTransfer where
  after : Unistd
  ret : Int
  stored : List UInt8
  copies : List Memcpy

/-- A transfer that returns at once. -/
def noUnistdTransfer (u : Unistd) (ret : Int) : UnistdTransfer :=
  { after := u, ret, stored := [], copies := [] }

/-- `read`. -/
def unistdRead (u : Unistd) (fd : Int) (count : SizeT) : UnistdTransfer :=
  match getFile u fd with
  | none => noUnistdTransfer u (-1)
  | some file =>
    let f := u.fs.files file
    if !f.isOpen then noUnistdTransfer u (-1)
    else if f.position ≥ f.size then noUnistdTransfer u 0
    else
      let bytesToRead := if f.position + count > f.size then f.size - f.position else count
      { after := u.setFile file { f with position := f.position + bytesToRead }
        ret := bytesToRead.toInt
        stored := copyOut (f.data.getD []) f.position bytesToRead
        copies := [⟨file, f.position, bytesToRead⟩] }

/-- The end of `write`: the copy. -/
def unistdWriteCopy (u : Unistd) (file : Slot) (buf : Buffer) (count : SizeT) : UnistdTransfer :=
  let f := u.fs.files file
  let position := f.position + count
  { after := u.setFile file
      { f with
        data := f.data.map fun block => copyIn block f.position count buf
        position
        size := if position > f.size then position else f.size }
    ret := count.toInt
    stored := []
    copies := [⟨file, f.position, count⟩] }

/-- `write`. -/
def unistdWrite (u : Unistd) (fd : Int) (buf : Buffer) (count : SizeT) (heap : Heap) :
    UnistdTransfer :=
  match getFile u fd with
  | none => noUnistdTransfer u (-1)
  | some file =>
    let f := u.fs.files file
    if !f.isOpen then noUnistdTransfer u (-1)
    else
      let neededSize := f.position + count
      if neededSize > f.allocatedSize then
        match fsResizeFile u.fs (some file) neededSize heap with
        | (s, .success) => unistdWriteCopy { u with fs := s } file buf count
        | (s, _) => noUnistdTransfer { u with fs := s } (-1)
      else unistdWriteCopy u file buf count

/-- The target of `lseek`: `SEEK_SET`, `SEEK_CUR` and `SEEK_END` are 0, 1 and 2. -/
def seekTarget (f : File) (offset : BitVec 64) (whence : Int) : Option (BitVec 64) :=
  if whence = 0 then some offset
  else if whence = 1 then some (f.position.setWidth 64 + offset)
  else if whence = 2 then some (f.size.setWidth 64 + offset)
  else none

/-- `lseek`. -/
def unistdLseek (u : Unistd) (fd : Int) (offset : BitVec 64) (whence : Int) : Unistd × Int :=
  match getFile u fd with
  | none => (u, -1)
  | some file =>
    let f := u.fs.files file
    if !f.isOpen then (u, -1)
    else
      match seekTarget f offset whence with
      | none => (u, -1)
      | some newPos =>
        -- the comparison with the size sees the low 32 bits of the target
        if newPos.slt 0 || newPos.setWidth 32 > f.size then (u, -1)
        else (u.setFile file { f with position := newPos.setWidth 32 }, newPos.toInt)

/-- `unlink`. -/
def unistdUnlink (u : Unistd) (pathname : Option CString) : Unistd × Int :=
  match fsDelete u.fs pathname with
  | (s, code) => ({ u with fs := s }, code.toInt)

/-- `chdir`. -/
def unistdChdir (u : Unistd) (path : CString) : Unistd × Int :=
  match fsChdir u.fs path with
  | (s, code) => ({ u with fs := s }, code.toInt)

end Unics
