import Unics.Libc.String

/-!
# Console input

`getchar` of `lib/libc/stdio.c`, which reads a line into a buffer and hands it out one character
after the other. The characters come from `kb_getchar`, one for each turn of the loop; a call that
waits for one is in `GetcharTurn.reading`. What the loop echoes is left out.

A `char` is signed, and `EOF` is -1, so 0xFF is its byte. Accesses to `input_buffer` are checked:
one outside it answers `none`.
-/

namespace Unics

/-- `INPUT_BUFFER_SIZE`. -/
abbrev inputBufferSize : Nat := 256

/-- `EOF`, as a character. -/
def eof : UInt8 := 0xFF

/-- The statics. There is no pushed-back character where `unget_char` is `EOF`. -/
structure Stdin where
  ungetChar : Option UInt8
  inputBuffer : Buffer
  inputBufferPos : Nat
  inputBufferLen : Nat
  inputBufferValid : Bool

/-- The statics as the program starts. -/
def stdinStart : Stdin where
  ungetChar := none
  inputBuffer _ := 0
  inputBufferPos := 0
  inputBufferLen := 0
  inputBufferValid := false

/-- Where a call of `getchar` stands: it waits for a character, or has returned one, or `EOF`. -/
inductive GetcharTurn where
  | reading
  | returned (c : Option UInt8)
  deriving DecidableEq, Repr

/-- `return input_buffer[input_buffer_pos++]`. -/
def getcharNext (s : Stdin) : Option (GetcharTurn × Stdin) := do
  let c ← loadChar inputBufferSize s.inputBuffer s.inputBufferPos
  some (.returned (some c), { s with inputBufferPos := s.inputBufferPos + 1 })

/-- `getchar`, up to its loop. -/
def getcharCall (s : Stdin) : Option (GetcharTurn × Stdin) :=
  match s.ungetChar with
  | some c => some (.returned (some c), { s with ungetChar := none })
  | none =>
    if s.inputBufferValid ∧ s.inputBufferPos < s.inputBufferLen then getcharNext s
    else
      some (.reading,
        { s with inputBufferPos := 0, inputBufferLen := 0, inputBufferValid := false })

/-- `getchar`, from the end of its loop on, which `c` has ended. -/
def getcharEnd (s : Stdin) (c : UInt8) : Option (GetcharTurn × Stdin) := do
  let s ←
    if c = 10 then do
      let buffer ← storeChar inputBufferSize s.inputBuffer s.inputBufferLen 10
      some { s with inputBuffer := buffer, inputBufferLen := s.inputBufferLen + 1 }
    else some s
  let buffer ← storeChar inputBufferSize s.inputBuffer s.inputBufferLen 0
  let s := { s with inputBuffer := buffer, inputBufferValid := true }
  if s.inputBufferPos < s.inputBufferLen then getcharNext s else some (.returned none, s)

/-- Backspace, or `DEL`. -/
def isErase (c : UInt8) : Bool := c == 8 || c == 127

/-- The characters that are kept. -/
def isKept (c : UInt8) : Bool := 32 ≤ c && c ≤ 126

/-- A turn of the loop, for a character from `kb_getchar`. -/
def getcharTurn (s : Stdin) (c : UInt8) : Option (GetcharTurn × Stdin) :=
  if c ≠ 10 ∧ c ≠ eof ∧ s.inputBufferLen < inputBufferSize - 1 then
    if isErase c then
      if 0 < s.inputBufferLen then
        some (.reading, { s with inputBufferLen := s.inputBufferLen - 1 })
      else some (.reading, s)
    else if isKept c then do
      let buffer ← storeChar inputBufferSize s.inputBuffer s.inputBufferLen c
      some (.reading, { s with inputBuffer := buffer, inputBufferLen := s.inputBufferLen + 1 })
    else some (.reading, s)
  -- also a character that finds the buffer full gets here, and is gone
  else getcharEnd s c

/-! ## Runs -/

/-- The program calls `getchar`, or `kb_getchar` returns a character. -/
inductive GetcharEvent where
  | call
  | key (c : UInt8)
  deriving DecidableEq, Repr

/-- The statics, whether a call waits for a character, and what has been taken from `kb_getchar` and
returned so far. -/
structure GetcharRun where
  stdin : Stdin
  reading : Bool
  consumed : List UInt8
  returned : List (Option UInt8)

def GetcharRun.put (r : GetcharRun) : GetcharTurn × Stdin → GetcharRun
  | (.reading, s) => { r with stdin := s, reading := true }
  | (.returned c, s) => { r with stdin := s, reading := false, returned := r.returned ++ [c] }

/-- Nothing is called while a call waits, and no character is taken while none does. -/
def getcharStep (r : Option GetcharRun) (e : GetcharEvent) : Option GetcharRun := do
  let r ← r
  match e with
  | .call =>
    if r.reading then some r
    else do
      let turn ← getcharCall r.stdin
      some (r.put turn)
  | .key c =>
    if r.reading then do
      let turn ← getcharTurn r.stdin c
      some ({ r with consumed := r.consumed ++ [c] }.put turn)
    else some r

/-- The program starts. -/
def getcharRunStart : Option GetcharRun :=
  some { stdin := stdinStart, reading := false, consumed := [], returned := [] }

end Unics
