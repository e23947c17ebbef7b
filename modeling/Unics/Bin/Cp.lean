import Unics.Bin.Files

/-!
# cp

`bin/cp.c`. The array of the copy loop is on the stack: a read stores its bytes from the start of
the array on and leaves the others. `argc` is the length of `argv`.

The loop has no bound. A turn that is not the last moves the position of the source on, so `2 ^ 32`
turns are more than there can be.
-/

namespace Unics

/-- `BUFFER_SIZE` of `cp.c`. -/
def cpBufferSize : SizeT := 512

/-- `EXIT_SUCCESS` and `EXIT_FAILURE` of `stdlib.h`. -/
def exitSuccess : Int := 0
def exitFailure : Int := 1

/-- What the command meets outside the file system: the array, with the bytes that are in it, and
what the heap answers to the create and to the write of each turn. -/
structure CpMemory where
  array : UIntPtr
  notNull : array ≠ null
  bytes : Buffer
  createHeap : Heap
  writeHeap : Nat → Heap

/-- The array after a read. -/
def readInto (buffer : Buffer) (stored : List UInt8) : Buffer := fun k => stored.getD k (buffer k)

/-- The copy loop, from a turn on. It ends at the end of the file, or with a write error. -/
def cpLoop (src dst : CString) (mem : CpMemory) :
    Nat → Nat → Fs → Buffer → Option (Fs × Bool)
  | 0, _, _, _ => none
  | fuel + 1, turn, s, buffer =>
    let read := fsRead s (some src) mem.array cpBufferSize
    -- EOF
    if read.count = 0 then some (read.after, true)
    else
      let buffer := readInto buffer read.stored
      let written := fsWrite read.after (some dst) (some buffer) read.count (mem.writeHeap turn)
      if written.count ≠ read.count then some (written.after, false)
      else cpLoop src dst mem fuel (turn + 1) written.after buffer

/-- What comes after the loop: both files are closed, whether or not all was written. -/
def cpEnd (src dst : CString) (s : Fs) (copied : Bool) : Exit :=
  let s := (fsClose s (some src)).1
  let s := (fsClose s (some dst)).1
  if copied then ⟨s, exitSuccess, []⟩
  else ⟨s, exitFailure, text "cp: write error to '" ++ dst.bytes ++ text "'\n"⟩

end Unics
