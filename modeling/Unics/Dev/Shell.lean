import Unics.Drivers.Vga
import Unics.Libc.String
import Unics.Lib.TailQueue
import Unics.Libc.Strings

/-!
# The shell
-/

namespace Unics

open Unics.Lib

/-!
## The line editor of the shell

`dev/shell/shell.c`: the inner loop of `shell_run`, which reads the keys of one command line, and
`shell_navigate_history`. The context is together with the screen that it draws on.

Counts are `size_t`, and a decrement of zero, which would wrap around, answers `none`, as does an
access outside an array. `history_head` is the list of its entries' commands, the oldest first, and
`history_current` an index into it.
-/

/-- `SHELL_MAX_INPUT_LENGTH`. -/
abbrev shellMaxInputLength : Nat := 256

/-- What the line editor uses of `shell_context_t`, and the screen. -/
structure Shell where
  inputBuffer : Buffer
  inputLength : Nat
  cursorPos : Nat
  history : List Buffer
  historyCurrent : Option Nat
  running : Bool
  vga : Vga

/-- `n - 1`. -/
def decrement : Nat → Option Nat
  | 0 => none
  | n + 1 => some n

namespace Shell

/-- `ctx->input_buffer[i] = c`. -/
def write (shell : Shell) (i : Nat) (c : UInt8) : Option Shell := do
  let buffer ← storeChar shellMaxInputLength shell.inputBuffer i c
  some { shell with inputBuffer := buffer }

/-- `ctx->input_buffer[dest] = ctx->input_buffer[src]`. -/
def copyChar (shell : Shell) (dest src : Nat) : Option Shell := do
  let c ← loadChar shellMaxInputLength shell.inputBuffer src
  shell.write dest c

def putchar (shell : Shell) (c : UInt8) : Option Shell := do
  let vga ← vgaPutchar shell.vga c
  some { shell with vga := vga }

def puts (shell : Shell) (str : CString) : Option Shell := do
  let vga ← vgaPuts shell.vga str
  some { shell with vga := vga }

/-- `n` times `vga_putchar(c)`. -/
def putMany (shell : Shell) (n : Nat) (c : UInt8) : Option Shell :=
  (List.range' 0 n).foldlM (fun shell _ => shell.putchar c) shell

/-- `vga_putchar(ctx->input_buffer[i])` -/
def drawChar (shell : Shell) (i : Nat) : Option Shell := do
  let c ← loadChar shellMaxInputLength shell.inputBuffer i
  shell.putchar c

/-- `for (i = start; i < stop; i++) vga_putchar(ctx->input_buffer[i]);` -/
def draw (shell : Shell) (start stop : Nat) : Option Shell :=
  (List.range' start (stop - start)).foldlM Shell.drawChar shell

end Shell

/-! ### History -/

/-- The entry that `shell_navigate_history` selects among `n`: `TAILQ_LAST`, `TAILQ_PREV` or
`TAILQ_NEXT`. -/
def shellSelect (n : Nat) (direction : Int) : Option Nat → Option Nat
  | none => if 0 < direction then some (n - 1) else none
  | some i =>
    if 0 < direction then some (i - 1)
    else if i + 1 < n then some (i + 1)
    else none

/-- The loops that erase the line on the screen. -/
def shellEraseInput (shell : Shell) : Option Shell := do
  let shell ← (List.range' 0 shell.cursorPos).foldlM
    (fun shell _ => do
      let shell ← shell.putchar 8
      let cursorPos ← decrement shell.cursorPos
      some { shell with cursorPos := cursorPos })
    shell
  let shell ← shell.putMany shell.inputLength 32
  shell.putMany shell.inputLength 8

def shellNavigateHistory (shell : Shell) (direction : Int) : Option Shell :=
  if shell.history = [] then some shell
  else do
    let current := shellSelect shell.history.length direction shell.historyCurrent
    let shell ← shellEraseInput { shell with historyCurrent := current }
    let shell ←
      (match current with
      | some i => do
        let command ← shell.history[i]?
        let buffer ← strncpy shellMaxInputLength shell.inputBuffer command (shellMaxInputLength - 1)
        let buffer ← storeChar shellMaxInputLength buffer (shellMaxInputLength - 1) 0
        let str ← CString.ofBuffer shellMaxInputLength buffer
        some { shell with inputBuffer := buffer, inputLength := str.strlen }
      | none => do
        let shell ← shell.write 0 0
        some { shell with inputLength := 0 })
    let shell := { shell with cursorPos := shell.inputLength }
    let str ← CString.ofBuffer shellMaxInputLength shell.inputBuffer
    shell.puts str

/-! ### Keys -/

/-- What a turn of the loop reads: a character, or an escape and the two after it. -/
inductive ShellKey where
  | char (c : UInt8)
  | escape (next1 next2 : UInt8)
  deriving DecidableEq, Repr

/-- The keys that the characters of `kb_getchar` make. An escape waits for the two characters after
it. -/
def shellKeys : List UInt8 → List ShellKey
  | [] => []
  | c :: rest =>
    if c = 27 then
      match rest with
      | next1 :: next2 :: rest => .escape next1 next2 :: shellKeys rest
      | _ => []
    else .char c :: shellKeys rest

/-- How a turn ends: with the loop going on, or out of it. -/
inductive ShellTurn where
  | reading
  | entered
  | cancelled
  | exited
  deriving DecidableEq, Repr

/-- The branch of the backspace. -/
def shellBackspace (shell : Shell) : Option Shell := do
  let start ← decrement shell.cursorPos
  let stop ← decrement shell.inputLength
  let shell ← (List.range' start (stop - start)).foldlM
    (fun shell i => shell.copyChar i (i + 1)) shell
  let inputLength ← decrement shell.inputLength
  let cursorPos ← decrement shell.cursorPos
  let shell := { shell with inputLength := inputLength, cursorPos := cursorPos }
  let shell ← shell.putchar 8
  let shell ← shell.draw shell.cursorPos shell.inputLength
  let shell ← shell.putchar 32
  shell.putMany (shell.inputLength + 1 - shell.cursorPos) 8

/-- The branch of a printable character. -/
def shellInsert (shell : Shell) (c : UInt8) : Option Shell := do
  let shell ← (List.range' (shell.cursorPos + 1)
    (shell.inputLength - shell.cursorPos)).reverse.foldlM
      (fun shell i => shell.copyChar i (i - 1)) shell
  let shell ← shell.write shell.cursorPos c
  let shell :=
    { shell with inputLength := shell.inputLength + 1, cursorPos := shell.cursorPos + 1 }
  let shell ← shell.draw (shell.cursorPos - 1) shell.inputLength
  shell.putMany (shell.inputLength - shell.cursorPos) 8

/-- The branch of an escape sequence. -/
def shellEscape (shell : Shell) (next1 next2 : UInt8) : Option Shell :=
  if next1 = 91 then
    if next2 = 65 then shellNavigateHistory shell 1
    else if next2 = 66 then shellNavigateHistory shell (-1)
    else if next2 = 67 then
      if shell.cursorPos < shell.inputLength then do
        let shell ← shell.drawChar shell.cursorPos
        some { shell with cursorPos := shell.cursorPos + 1 }
      else some shell
    else if next2 = 68 then
      if 0 < shell.cursorPos then do
        let shell ← shell.putchar 8
        let cursorPos ← decrement shell.cursorPos
        some { shell with cursorPos := cursorPos }
      else some shell
    else some shell
  else some shell

/-- `"^C\n"`. -/
def shellCancelText : CString := ⟨[94, 67, 10], by decide⟩

/-- A turn of the loop that reads a line. -/
def shellTurn (shell : Shell) : ShellKey → Option (Shell × ShellTurn)
  | .escape next1 next2 => do
    let shell ← shellEscape shell next1 next2
    some (shell, .reading)
  | .char c =>
    if c = 10 then do
      let shell ← shell.putchar 10
      some (shell, .entered)
    else if c = 4 then
      if shell.inputLength = 0 then do
        let shell ← Shell.puts { shell with running := false } (CString.char 10)
        some (shell, .exited)
      else some (shell, .reading)
    else if c = 3 then do
      let shell ← shell.puts shellCancelText
      some ({ shell with inputLength := 0, cursorPos := 0 }, .cancelled)
    else if c = 8 ∧ 0 < shell.cursorPos then do
      let shell ← shellBackspace shell
      some (shell, .reading)
    else if c = 9 then some (shell, .reading)
    else if 32 ≤ c ∧ c ≤ 126 ∧ shell.inputLength < shellMaxInputLength - 1 then do
      let shell ← shellInsert shell c
      some (shell, .reading)
    else some (shell, .reading)

/-! ### A line -/

/-- The shell while it reads a line. -/
structure ShellLine where
  shell : Shell
  turn : ShellTurn

/-- What `shell_run` does between the prompt and the first key. -/
def shellStart (shell : Shell) : Option ShellLine := do
  let shell ← Shell.write
    { shell with inputLength := 0, cursorPos := 0, historyCurrent := none } 0 0
  some ⟨shell, .reading⟩

/-- The keys of a line: none follows an access outside an array, and those after the line's end
belong to the next one. -/
def shellStep (line : Option ShellLine) (key : ShellKey) : Option ShellLine := do
  let line ← line
  if line.turn = .reading then
    let (shell, turn) ← shellTurn line.shell key
    some ⟨shell, turn⟩
  else some line

/-!
## The history of the shell

`dev/shell/shell.c`: `shell_init` as far as it is about the history, and `shell_add_to_history`. An
entry of the queue is a block of the heap, and its command an array beside the links. Accesses are
checked: one to an entry that is not in memory, or outside an array, answers `none`.
-/

/-- A `history_entry_t *` that is not null. -/
abbrev HistoryEntry := Nat

/-- `SHELL_HISTORY_SIZE`. -/
abbrev shellHistorySize : Nat := 16

/-- What `shell_context_t` has of the history, and the commands of the entries. -/
structure ShellHistory where
  historyHead : TailQueue HistoryEntry
  command : HistoryEntry → Buffer
  historyCount : Int

/-- The history after `shell_init`. -/
def shellInit (history : ShellHistory) : ShellHistory :=
  { history with historyHead := history.historyHead.init, historyCount := 0 }

/-- Whether the last entry holds the command already. -/
def historyRepeats (history : ShellHistory) (command : CString) : Option Bool :=
  if history.historyHead.first.isNone then some false
  else do
    let last ← history.historyHead.lastElement
    -- a null pointer would be no entry
    let last ← last
    let _ ← history.historyHead.entries last
    let held ← CString.ofBuffer shellMaxInputLength (history.command last)
    some (strcmp held command = 0)

/-- The oldest entry makes room where there is none. -/
def historyEvict (history : ShellHistory) : Option ShellHistory :=
  if history.historyCount ≥ shellHistorySize then do
    let oldest ← history.historyHead.first
    let head ← history.historyHead.remove oldest
    some { history with
      historyHead := head.free oldest
      historyCount := history.historyCount - 1 }
  else some history

/-- The command goes into a new entry at the end. What the entry's links are before is not read. -/
def historyInsert (history : ShellHistory) (command : CString) (entry : HistoryEntry) :
    Option ShellHistory := do
  let buffer ← strncpy shellMaxInputLength (history.command entry) command.buffer
    (shellMaxInputLength - 1)
  let buffer ← storeChar shellMaxInputLength buffer (shellMaxInputLength - 1) 0
  let head ← (history.historyHead.alloc entry ⟨none, .first⟩).insertTail entry
  some
    { historyHead := head
      command := Function.update history.command entry buffer
      historyCount := history.historyCount + 1 }

/-- `shell_add_to_history`, where `block` is what `malloc` answers. -/
def shellAddToHistory (history : ShellHistory) (command : CString) (block : Option HistoryEntry) :
    Option ShellHistory :=
  if command.strlen = 0 then some history
  else do
    let repeats ← historyRepeats history command
    if repeats then some history
    else do
      let history ← historyEvict history
      match block with
      | none => some history
      | some entry => historyInsert history command entry

/-- One call after the other: none follows an access to what is not there. -/
def historyStep (history : Option ShellHistory) (call : CString × Option HistoryEntry) :
    Option ShellHistory := do
  let history ← history
  shellAddToHistory history call.1 call.2

/-!
## From a line to its arguments

`dev/shell/shell.c`: the two tokenizers. `shell_run` has one of its own, and `shell_process_input`
calls `strtok`. Both store terminators into the line, and the arguments are places in it.
-/

/-- `SHELL_MAX_ARGS`. -/
abbrev shellMaxArgs : Nat := 32

/-- `c == ' ' || c == '\t'`. -/
def isBlank (c : UInt8) : Bool := c = 32 || c = 9

/-- `" \t"`. -/
def blanks : CString := ⟨[32, 9], by decide⟩

/-- The loop of `shell_run` from `p` on, with room for so many arguments: the line and the arguments
that it adds. -/
def shellTokenize (size : Nat) : Nat → Buffer → Nat → Option (Buffer × List Nat)
  | 0, buf, p => do
    let _ ← loadChar size buf p
    some (buf, [])
  | room + 1, buf, p => do
    let c ← loadChar size buf p
    if c = 0 then some (buf, [])
    else do
      let p ← skipWhile size buf isBlank p
      let c ← loadChar size buf p
      if c = 0 then some (buf, [])
      else do
        let stop ← skipWhile size buf (fun c => c ≠ 0 && !isBlank c) p
        let c ← loadChar size buf stop
        if c = 0 then do
          let (buf, argv) ← shellTokenize size room buf stop
          some (buf, p :: argv)
        else do
          let buf ← storeChar size buf stop 0
          let (buf, argv) ← shellTokenize size room buf (stop + 1)
          some (buf, p :: argv)

/-- The arguments that `shell_run` makes of a line. -/
def shellRunArgv (size : Nat) (buf : Buffer) : Option (Buffer × List Nat) :=
  shellTokenize size (shellMaxArgs - 1) buf 0

/-- The loop of `shell_process_input`, which has fetched its next token already. -/
def shellTokens (size : Nat) : Nat → Strtok → Option (Strtok × List Nat)
  | 0, call => some (call, [])
  | room + 1, call =>
    match call.token with
    | none => some (call, [])
    | some token => do
      let next ← strtok size call.buf call.last none blanks
      let (call, argv) ← shellTokens size room next
      some (call, token :: argv)

/-- The arguments that `shell_process_input` makes of a line, whatever `strtok` was left with. -/
def shellProcessArgv (size : Nat) (buf : Buffer) (last : Option Nat) :
    Option (Buffer × List Nat) := do
  let call ← strtok size buf last (some 0) blanks
  let (call, argv) ← shellTokens size (shellMaxArgs - 1) call
  some (call.buf, argv)

/-- The string that an argument is. -/
def argument (size : Nat) (buf : Buffer) (p : Nat) : List UInt8 :=
  textOf (fun i => buf (p + i)) (size - p)

end Unics
