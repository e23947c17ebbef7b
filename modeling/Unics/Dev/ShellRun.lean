import Unics.Dev.Shell
import Unics.Libc.Numbers

/-!
# The loop of the shell

`dev/shell/shell.c`: the prompt, the search for a command, and the outer loop of `shell_run` around
the line editor, the history and the tokenizer of `Dev/Shell`.

- A command is any function of what commands work on: the screen, `running`, which `exit_main`
  clears through `g_shell_ctx`, and the rest of the machine. It sees the history as
  `history_main` does, one command of the queue after the other.
- The characters that the shell reads at its prompt come one key at a time, each with what `malloc`
  answers if the key makes the shell call it. What a command reads is its own affair.
- A `return` of the loop is `reading := false`, and keys after it are not read.
-/

namespace Unics

open Unics.Lib

/-! ## Numbers -/

/-- The loop over the digits, the last one first, with room for so many. -/
def intToStrDigits : Nat → Int → List UInt8
  | 0, _ => []
  | room + 1, value =>
    UInt8.ofNat (48 + value.tmod 10).toNat ::
      if 0 < value.tdiv 10 then intToStrDigits room (value.tdiv 10) else []

/-- What `int_to_str` stores before the terminator. The least value is its own opposite. -/
def intToStr (value : BitVec 32) (bufSize : Nat) : List UInt8 :=
  let negative := value.toInt < 0
  let value := if negative then -value else value
  let str := intToStrDigits (bufSize - 1) value.toInt
  let str := if negative ∧ str.length < bufSize - 1 then str ++ [45] else str
  str.reverse

/-! ## The prompt -/

/-- `"["` -/
def shellStatusText : CString := ⟨[91], by decide⟩

/-- `"] "` -/
def shellStatusEnd : CString := ⟨[93, 32], by decide⟩

theorem shellUser_noNul : (0 : UInt8) ∉ ([114, 111, 111, 116] : List UInt8) := by decide

/-- `"root"` -/
def shellUserText : CString := ⟨[114, 111, 111, 116], shellUser_noNul⟩

/-- `"@unics:"` -/
def shellHostText : CString := ⟨[64, 117, 110, 105, 99, 115, 58], by decide⟩

/-- `" # "` -/
def shellPromptEnd : CString := ⟨[32, 35, 32], by decide⟩

/-- `VGA_COLOR_BRIGHT_ORANGE`, which is the light red. -/
def shellUserColor : UInt32 := 12

/-- `VGA_COLOR_WHITE`. -/
def shellTextColor : UInt32 := 15

/-- `VGA_COLOR_BLACK`. -/
def shellBackground : UInt32 := 0

def Shell.setColor (shell : Shell) (fg bg : UInt32) : Shell :=
  { shell with vga := vgaSetColor shell.vga fg bg }

/-- The branch for the status of a command that failed. -/
def shellPrintStatus (shell : Shell) (lastExitStatus : BitVec 32) : Option Shell :=
  if lastExitStatus ≠ 0 then do
    let shell ← shell.puts shellStatusText
    let shell ← shell.puts (.ofBytes (intToStr lastExitStatus 12))
    shell.puts shellStatusEnd
  else some shell

def shellPrintPrompt (shell : Shell) (lastExitStatus : BitVec 32) (cwd : CString) :
    Option Shell := do
  let shell ← shellPrintStatus shell lastExitStatus
  let shell := shell.setColor shellUserColor shellBackground
  let shell ← shell.puts shellUserText
  let shell := shell.setColor shellTextColor shellBackground
  let shell ← shell.puts shellHostText
  let shell ← shell.puts cwd
  shell.puts shellPromptEnd

/-! ## Commands -/

/-- What a command works on. -/
structure CommandState (W : Type) where
  vga : Vga
  running : Bool
  world : W

/-- `shell_command_t`. -/
structure ShellCommand (W : Type) where
  name : CString
  description : CString
  func : List CString → CommandState W → List CString → Option (CommandState W × BitVec 32)

/-- `"shell: "` -/
def shellErrorText : CString := ⟨[115, 104, 101, 108, 108, 58, 32], by decide⟩

/-- `": command not found\n"` -/
def shellNotFoundText : CString :=
  ⟨[58, 32, 99, 111, 109, 109, 97, 110, 100, 32, 110, 111, 116, 32, 102, 111, 117, 110, 100, 10],
    by decide⟩

def shellPrintNotFound (vga : Vga) (command : CString) : Option Vga := do
  let vga ← vgaPuts vga shellErrorText
  let vga ← vgaPuts vga command
  vgaPuts vga shellNotFoundText

/-- `shell_execute`, which calls the first command of that name. -/
def shellExecute {W : Type} (commands : List (ShellCommand W)) (history : List CString)
    (state : CommandState W) : List CString → Option (CommandState W × BitVec 32)
  | [] => some (state, 0)
  | name :: args =>
    match commands.find? fun command => strcmp name command.name = 0 with
    | some command => command.func history state (name :: args)
    | none => do
      let vga ← shellPrintNotFound state.vga name
      some ({ state with vga := vga }, 127)

/-! ## Two commands of the shell itself -/

/-- `"exit"` -/
def exitName : CString := ⟨[101, 120, 105, 116], by decide⟩

/-- `"history"` -/
def historyName : CString := ⟨[104, 105, 115, 116, 111, 114, 121], by decide⟩

/-- `"Goodbye!\n"` -/
def exitText : CString := ⟨[71, 111, 111, 100, 98, 121, 101, 33, 10], by decide⟩

/-- The digits of `exit_main`. -/
def exitDigits (exitCode : BitVec 32) : List UInt8 → BitVec 32
  | [] => exitCode
  | c :: str =>
    if 48 ≤ c ∧ c ≤ 57 then exitDigits (exitCode * 10 + BitVec.ofNat 32 (c.toNat - 48)) str
    else exitCode

/-- The status that `exit_main` answers: 0 without an argument, else the decimal number that the
argument begins with, modulo 2^32, and its opposite behind a minus sign. -/
def exitStatus (args : List CString) : BitVec 32 :=
  match args with
  | _ :: str :: _ =>
    match str.bytes with
    | c :: rest => if c = 45 then -exitDigits 0 rest else exitDigits 0 (c :: rest)
    | [] => 0
  | _ => 0

section Builtin

variable {W : Type}

def exitMain (state : CommandState W) (args : List CString) :
    Option (CommandState W × BitVec 32) := do
  let vga ← vgaPuts state.vga exitText
  some ({ state with vga := vga, running := false }, exitStatus args)

/-- `{ "exit", "Exit the shell", exit_main }` -/
def exitCommand : ShellCommand W where
  name := exitName
  description :=
    ⟨[69, 120, 105, 116, 32, 116, 104, 101, 32, 115, 104, 101, 108, 108], by decide⟩
  func _ state args := exitMain state args

/-- `"Command history:\n"` -/
def historyText : CString :=
  ⟨[67, 111, 109, 109, 97, 110, 100, 32, 104, 105, 115, 116, 111, 114, 121, 58, 10], by decide⟩

/-- `"  "` -/
def historyGap : CString := ⟨[32, 32], by decide⟩

/-- The loop that counts the digits. -/
def historyDigits (temp : Nat) : Nat := if 0 < temp then historyDigits (temp / 10) + 1 else 0

/-- The number of an entry, in an array of eight whose last digit is written first. For zero the
loop writes what its branch does. -/
def historyNumber (numStr : Buffer) (num : Nat) : Option CString := do
  let digits := if num = 0 then 1 else historyDigits num
  let (numStr, _) ←
    (List.range digits).reverse.foldlM (fun (numStr, temp) j => do
      let numStr ← storeChar 8 numStr j (UInt8.ofNat (48 + temp % 10))
      some (numStr, temp / 10)) (numStr, num)
  let numStr ← storeChar 8 numStr digits 0
  CString.ofBuffer 8 numStr

/-- The loop over the queue, from an index on. What is in the array before is not read. -/
def historyLines (vga : Vga) : Nat → List CString → Option Vga
  | _, [] => some vga
  | index, command :: history => do
    let vga ← vgaPuts vga historyGap
    let numStr ← historyNumber (fun _ => 0) index
    let vga ← vgaPuts vga numStr
    let vga ← vgaPuts vga historyGap
    let vga ← vgaPuts vga command
    let vga ← vgaPutchar vga 10
    historyLines vga (index + 1) history

def historyMain (history : List CString) (state : CommandState W) :
    Option (CommandState W × BitVec 32) := do
  let vga ← vgaPuts state.vga historyText
  let vga ← historyLines vga 1 history
  some ({ state with vga := vga }, 0)

/-- `{ "history", "Show command history", history_main }` -/
def historyCommand : ShellCommand W where
  name := historyName
  description :=
    ⟨[83, 104, 111, 119, 32, 99, 111, 109, 109, 97, 110, 100, 32, 104, 105, 115, 116, 111, 114,
      121], by decide⟩
  func history state _ := historyMain history state

end Builtin

/-! ## The loop -/

/-- The context with its screen, the queue of its history, and the rest of the machine. -/
structure ShellSession (W : Type) where
  shell : Shell
  history : ShellHistory
  lastExitStatus : BitVec 32
  world : W
  reading : Bool

/-- `"Type 'help' for available commands, 'exit' to quit.\n\n"` -/
def shellWelcomeText : CString :=
  ⟨[84, 121, 112, 101, 32, 39, 104, 101, 108, 112, 39, 32, 102, 111, 114, 32, 97, 118, 97, 105,
    108, 97, 98, 108, 101, 32, 99, 111, 109, 109, 97, 110, 100, 115, 44, 32, 39, 101, 120, 105,
    116, 39, 32, 116, 111, 32, 113, 117, 105, 116, 46, 10, 10],
    by decide⟩

/-- `shell_init`, on a cleared context. -/
def ShellSession.init {W : Type} (vga : Vga) (history : ShellHistory) (world : W) :
    Option (ShellSession W) := do
  let vga ← vgaPuts (vgaSetColor vga shellTextColor shellBackground) shellWelcomeText
  some
    { shell :=
        { inputBuffer := fun _ => 0
          inputLength := 0
          cursorPos := 0
          history := []
          historyCurrent := none
          running := true
          vga := vga }
      history := shellInit history
      lastExitStatus := 0
      world := world
      reading := false }

/-- The entries of the queue. -/
def historyEntries (history : ShellHistory) : Option (List HistoryEntry) :=
  history.historyHead.walk history.historyCount.toNat history.historyHead.first

/-- What the commands see of the history. -/
def historyTexts (history : ShellHistory) : Option (List CString) := do
  let entries ← historyEntries history
  entries.mapM fun entry => CString.ofBuffer shellMaxInputLength (history.command entry)

section Loop

variable {W : Type} (commands : List (ShellCommand W)) (cwd : W → CString)

/-- The head of the loop: the shell prints its prompt and clears the line, or returns. -/
def ShellSession.prompt (session : ShellSession W) : Option (ShellSession W) :=
  if ¬ session.shell.running then some { session with reading := false }
  else do
    let shell ← shellPrintPrompt session.shell session.lastExitStatus (cwd session.world)
    let entries ← historyEntries session.history
    let line ← shellStart { shell with history := entries.map session.history.command }
    some { session with shell := line.shell, reading := true }

/-- What comes after the line: it is terminated, and one that is not empty is remembered, cut into
arguments and executed. -/
def ShellSession.execute (session : ShellSession W) (block : Option HistoryEntry) :
    Option (ShellSession W) := do
  let shell ← session.shell.write session.shell.inputLength 0
  if 0 < shell.inputLength then do
    let line ← CString.ofBuffer shellMaxInputLength shell.inputBuffer
    let history ← shellAddToHistory session.history line block
    let (buf, argv) ← shellRunArgv shellMaxInputLength shell.inputBuffer
    let shell := { shell with inputBuffer := buf }
    let args ← argv.mapM fun p =>
      CString.ofBuffer (shellMaxInputLength - p) fun i => buf (p + i)
    if args = [] then some { session with shell := shell, history := history }
    else do
      let texts ← historyTexts history
      let (state, status) ←
        shellExecute commands texts ⟨shell.vga, shell.running, session.world⟩ args
      some { session with
        shell := { shell with vga := state.vga, running := state.running }
        history := history
        lastExitStatus := status
        world := state.world }
  else some { session with shell := shell }

/-- A key at the prompt. None follows an access to what is not there. -/
def shellRunStep (session : Option (ShellSession W)) (call : ShellKey × Option HistoryEntry) :
    Option (ShellSession W) := do
  let session ← session
  if ¬ session.reading then some session
  else do
    let (shell, turn) ← shellTurn session.shell call.1
    let session := { session with shell := shell }
    match turn with
    | .reading => some session
    | .exited => some { session with reading := false }
    | .entered | .cancelled => do
      let session ← session.execute commands call.2
      session.prompt cwd

end Loop

end Unics
