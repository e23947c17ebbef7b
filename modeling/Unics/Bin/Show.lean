import Unics.Bin.Files
import Unics.Bin.Numbers

/-!
# Commands that show

`bin/cat.c` and `bin/pwd.c`. `argc` is the length of `argv`. The array of `cat` is on the stack, and
what is read into it is printed at once.
-/

namespace Unics

/-!
## cat

The loop has no bound. A turn that prints moves the position of the file on, so `2 ^ 32` turns are
more than there can be.
-/

/-- `BUFFER_SIZE` of `cat.c`. -/
def catBufferSize : SizeT := 1024

/-- The loop, with what is printed already: the state, what is printed, and the last
`bytes_read`. -/
def catLoop (filename : CString) (buffer : UIntPtr) :
    Nat → Fs → List UInt8 → Option (Fs × List UInt8 × BitVec 32)
  | 0, _, _ => none
  | fuel + 1, s, printed =>
    let read := fsRead s (some filename) buffer catBufferSize
    if 0 < read.count.toInt then
      catLoop filename buffer fuel read.after (printed ++ read.stored)
    else some (read.after, printed, read.count)

/-- A message that names the file and the code. -/
def catMessage (front : String) (filename : CString) (code : BitVec 32) : List UInt8 :=
  text front ++ filename.bytes ++ text " (code: " ++ percentD code ++ text ")\n"

def catMain (s : Fs) (argv : List CString) (buffer : UIntPtr) : Option Exit :=
  match argv with
  | _ :: filename :: _ =>
    let (s, rc) := fsOpen s (some filename)
    if rc ≠ .success then
      some ⟨s, 1, catMessage "Error opening file " filename (BitVec.ofInt 32 rc.toInt)⟩
    else do
      let (s, printed, bytesRead) ← catLoop filename buffer (2 ^ 32) s []
      let (printed, retval) :=
        if bytesRead.toInt < 0 then
          (printed ++ catMessage "Error reading file " filename bytesRead, 1)
        else (printed, 0)
      let (s, rc) := fsClose s (some filename)
      if rc ≠ .success then
        some ⟨s, 1, printed ++
          catMessage "Error closing file " filename (BitVec.ofInt 32 rc.toInt)⟩
      else some ⟨s, retval, printed⟩
  | _ => some ⟨s, 1, text "Usage: cat <filename>\n"⟩

/-!
## pwd

The directories from the current one up are collected in an array of 64 pointers, and printed in the
other order, without the root and without those that have no name.
-/

/-- `max_depth`. -/
def pwdMaxDepth : Nat := 64

/-- The loop up the tree, with room for so many: the array, and the directory it stops at. -/
def pwdClimb (files : Slot → File) : Nat → Option Slot → List Slot → List Slot × Option Slot
  | 0, dir, stack => (stack, dir)
  | _ + 1, none, stack => (stack, none)
  | room + 1, some d, stack => pwdClimb files room (files d).parent (stack ++ [d])

/-- `printf("%s/", name)`, for a name that is not empty. -/
def pwdPart (name : CString) : List UInt8 :=
  if name.strlen = 0 then [] else name.bytes ++ text "/"

/-- The exit status, and what is printed. -/
def pwdMain (s : Fs) : Int × List UInt8 :=
  match s.currentDir with
  | none => (0, text "/\n")
  | some d =>
    let (stack, dir) := pwdClimb s.files pwdMaxDepth (some d) []
    if dir ≠ none ∧ stack.length = pwdMaxDepth then (1, text "pwd: path too deep\n")
    else
      let printed := text "/" ++ stack.dropLast.reverse.flatMap fun i => pwdPart (s.files i).name
      -- Remove trailing slash if not root
      let printed := if 1 < stack.length then printed ++ [8, 32, 8] else printed
      (0, printed ++ text "\n")

end Unics
