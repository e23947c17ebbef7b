import Unics.Drivers.Fs
import Unics.Libc.String

/-!
# ed

`bin/ed.c`, without what it prints. The editor's variables are static, so they outlive a session,
and `free` does nothing. The array that `buffer` points to is a `Buffer`, and stores to it are
checked against `buf_size`.

`ed_main` waits for a character in `read_line` only. So its session is a machine that goes on with
each answer of `getchar`, and stands between two answers in one of the states of `EdPhase`.
-/

namespace Unics

/-! ## Saving -/

/-- `write_to_file`, once the file is there. -/
def writeCreated (s : Fs) (buffer : Option Buffer) (contentLen : SizeT) (filename : CString)
    (heap : Heap) : Fs × Int :=
  let (s, rc) := fsOpen s (some filename)
  if rc.toInt ≠ 0 then (s, -1)
  else
    let written := fsWrite s (some filename) buffer contentLen heap
    -- Always close
    let s := (fsClose written.after (some filename)).1
    if written.count ≠ contentLen then (s, -1) else (s, 0)

/-- `write_to_file`, with what the heap answers to the create and to the write. -/
def writeToFile (s : Fs) (buffer : Option Buffer) (contentLen : SizeT) (filename : Option CString)
    (createHeap writeHeap : Heap) : Fs × Int :=
  match filename with
  | none => (s, -1)
  | some filename =>
    if filename = .empty then (s, -1)
    else
      let (s, rc) := fsCreate s (some filename) createHeap
      if rc.toInt ≠ 0 ∧ rc.toInt ≠ -3 then (s, -1)
      else writeCreated s buffer contentLen filename writeHeap

/-! ## The buffer -/

/-- The static variables. -/
structure Ed where
  buffer : Option Buffer
  bufSize : SizeT
  contentLen : SizeT
  insertMode : Bool

/-- The variables as the program starts. -/
def edStart : Ed := { buffer := none, bufSize := 0, contentLen := 0, insertMode := false }

/-- `BUFFER_INCREMENT`. -/
def bufferIncrement : SizeT := 1024

/-- `grow_buffer`, which ends in `exit(1)` when there is no memory. -/
def growBuffer (e : Ed) (minSize : SizeT) (heap : Heap) : Option Ed :=
  if e.bufSize ≥ minSize then some e
  else
    let newSize := (minSize / bufferIncrement + 1) * bufferIncrement
    -- `realloc` has no block of size 0
    if newSize = 0 then none
    else
      heap.map fun junk =>
        { e with
          buffer := some fun i => if i < e.bufSize.toNat then e.buffer.getD junk i else junk i
          bufSize := newSize }

/-- How a function ends that may exit: a store outside of the buffer is undefined. -/
inductive EdEnd where
  | returned (e : Ed)
  | exited
  | outside

/-- `insert_text`. -/
def insertText (e : Ed) (text : CString) (heap : Heap) : EdEnd :=
  -- Skip empty lines
  if text.strlen = 0 then .returned e
  else
    let len : SizeT := BitVec.ofNat 32 text.strlen
    match growBuffer e (e.contentLen + len + 2) heap with
    | none => .exited
    | some e =>
      -- the text, the newline and the terminator
      match e.buffer.bind fun buffer =>
        storeChars e.bufSize.toNat buffer e.contentLen.toNat (text.bytes ++ [10, 0]) with
      | none => .outside
      | some buffer =>
        .returned { e with buffer := some buffer, contentLen := e.contentLen + len + 1 }

/-! ## Lines -/

/-- Where `read_line` is after a character: it reads on, it returns a line, or it returns -1. -/
inductive ReadLine where
  | more (line : List UInt8)
  | line (line : List UInt8)
  | eof

/-- The loop of `read_line`, with what it has read. `none` is `EOF`. -/
def readLine (maxLen : Nat) (line : List UInt8) (c : Option UInt8) : ReadLine :=
  match c with
  | none => if line.length = 0 then .eof else .line line
  | some c =>
    if c = 10 then .line line
    else if line.length + 1 < maxLen - 1 then .more (line ++ [c])
    else .line (line ++ [c])

/-- The string in the array `line`. -/
def lineText (line : List UInt8) : CString where
  bytes := line.takeWhile (· ≠ 0)
  noNul := by
    intro h
    have taken := List.mem_takeWhile_imp (p := fun c : UInt8 => decide (c ≠ 0)) h
    exact of_decide_eq_true taken rfl

/-- The size of the array `line`. -/
def lineSize : Nat := 512

/-! ## Sessions -/

/-- Where the editor is: not running, in `read_line`, or ended for good. -/
inductive EdPhase where
  | idle
  | reading (line : List UInt8)
  | exited
  | outside
  deriving DecidableEq, Repr

/-- The file system, the variables, and where the editor is. -/
structure EdState where
  fs : Fs
  ed : Ed
  phase : EdPhase

/-- What the heap answers. -/
structure EdHeaps where
  grow : Heap
  create : Heap
  write : Heap

/-- `ed_main`, up to its first `read_line`. -/
def edMain (s : EdState) (heap : Heap) : EdState :=
  match growBuffer s.ed bufferIncrement heap with
  | none => { s with phase := .exited }
  | some e =>
    match e.buffer.bind fun buffer => storeChar e.bufSize.toNat buffer 0 0 with
    | none => { s with ed := e, phase := .outside }
    | some buffer => { s with ed := { e with buffer := some buffer }, phase := .reading [] }

/-- `":w "` in front of a line, and the rest of the line behind it. -/
def writeCommand (line : CString) : Option CString :=
  if line.bytes.take 3 = [58, 119, 32] then
    some ⟨line.bytes.drop 3, fun h => line.noNul (List.mem_of_mem_drop h)⟩
  else none

/-- A turn of the loop of `ed_main`, with the line that was read. The newline that the source trims
is never there. -/
def edTurn (s : EdState) (line : CString) (heaps : EdHeaps) : EdState :=
  if s.ed.insertMode then
    if line = .dot then { s with ed := { s.ed with insertMode := false }, phase := .reading [] }
    else
      match insertText s.ed line heaps.grow with
      | .returned e => { s with ed := e, phase := .reading [] }
      | .exited => { s with phase := .exited }
      | .outside => { s with phase := .outside }
  else if line = .char 113 then { s with phase := .idle }
  else if line = .char 119 then
    { s with ed := { s.ed with insertMode := true }, phase := .reading [] }
  else
    match writeCommand line with
    | some filename =>
      { s with
        fs := (writeToFile s.fs s.ed.buffer s.ed.contentLen (some filename) heaps.create
          heaps.write).1
        phase := .reading [] }
    -- the help, or an unknown command
    | none => { s with phase := .reading [] }

/-- The shell calls the editor, and `getchar` answers it. -/
inductive EdCall where
  | main (heap : Heap)
  | getchar (c : Option UInt8) (heaps : EdHeaps)

def edStep (s : EdState) (c : EdCall) : EdState :=
  match s.phase, c with
  | .idle, .main heap => edMain s heap
  | .reading line, .getchar c heaps =>
    match readLine lineSize line c with
    | .more line => { s with phase := .reading line }
    | .line line => edTurn s (lineText line) heaps
    | .eof => { s with phase := .idle }
  | _, _ => s

end Unics
