import Unics.Drivers.Vga
import Unics.Libc.Stdio

/-!
# The terminal

What `getchar` echoes, and a run of a program at the console: it prints, and it reads with `getchar`
and `ungetc` of `lib/libc/stdio.c`, while keys are pressed. All output goes through `vga_putchar`.
-/

namespace Unics

/-- What a turn of the loop of `getchar` passes to `vga_putchar`, and what its end does. -/
def getcharEcho (s : Stdin) (c : UInt8) : List UInt8 :=
  if c ≠ 10 ∧ c ≠ eof ∧ s.inputBufferLen < inputBufferSize - 1 then
    if isErase c then if 0 < s.inputBufferLen then [8, 32, 8] else []
    else if isKept c then [c] else []
  else if c = 10 then [10] else []

/-- `ungetc`. There is nothing for `EOF`. -/
def ungetc (c : Option UInt8) (s : Stdin) : Option UInt8 × Stdin :=
  match s.ungetChar with
  | some _ => (none, s)
  | none => (c, { s with ungetChar := c })

/-! ## Runs -/

inductive TerminalEvent where
  /-- The program prints. -/
  | print (text : List UInt8)
  /-- It calls `getchar`. -/
  | call
  /-- It calls `ungetc`. -/
  | unget (c : Option UInt8)
  /-- `kb_getchar` returns a character. -/
  | key (c : UInt8)
  deriving DecidableEq, Repr

/-- The statics, the screen, whether a call waits for a character, and what the calls have returned
so far. -/
structure Terminal where
  stdin : Stdin
  vga : Vga
  reading : Bool
  returned : List (Option UInt8)

def Terminal.put (t : Terminal) : GetcharTurn × Stdin → Terminal
  | (.reading, s) => { t with stdin := s, reading := true }
  | (.returned c, s) => { t with stdin := s, reading := false, returned := t.returned ++ [c] }

/-- The program does nothing while a call waits, and no character is taken while none does. -/
def terminalStep (t : Option Terminal) (e : TerminalEvent) : Option Terminal := do
  let t ← t
  match e with
  | .print text =>
    if t.reading then some t
    else do
      let vga ← text.foldlM vgaPutchar t.vga
      some { t with vga := vga }
  | .call =>
    if t.reading then some t
    else do
      let turn ← getcharCall t.stdin
      some (t.put turn)
  | .unget c =>
    if t.reading then some t
    else
      let (c, s) := ungetc c t.stdin
      some { t with stdin := s, returned := t.returned ++ [c] }
  | .key c =>
    if t.reading then do
      let vga ← (getcharEcho t.stdin c).foldlM vgaPutchar t.vga
      let turn ← getcharTurn t.stdin c
      some ({ t with vga := vga }.put turn)
    else some t

/-- The program starts on a screen that is cleared. -/
def terminalStart (vga : Vga) : Option Terminal := do
  let vga ← vgaClear vga
  some { stdin := stdinStart, vga := vga, reading := false, returned := [] }

end Unics
