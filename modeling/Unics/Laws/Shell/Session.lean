import Unics.Lib.Simulation
import Unics.Laws.Shell.Commands
import Unics.Laws.Shell.Display

/-!
# A session

What the user meets: a prompt that shows the status of the last command, a line editor over the
lines that were entered before, and for a line the command that its first word names, with the
words as arguments. `UserSession` has no buffers, no queue and no places in arrays.

`shell_session` is the refinement, over whole sessions: whatever is typed, as long as the commands
leave the screen in order and `malloc` no block that is in use, the shell accesses nothing out of
bounds and keeps the user's session. The proof follows a key: a turn of the line editor, the
command of the line (`MachineIs.execute`), the next prompt (`MachineIs.prompt`).
-/

namespace Unics

open Unics.Lib

/-! ## The screen -/

/-- The screen gets these bytes. -/
def Vga.prints (vga : Vga) (bytes : List UInt8) : Option Vga := bytes.foldlM vgaPutchar vga

theorem Vga.prints_append (vga : Vga) (before after : List UInt8) :
    vga.prints (before ++ after) = (vga.prints before).bind fun vga => vga.prints after :=
  List.foldlM_append ..

theorem Vga.prints_ends {vga : Vga} (h : vga.Within) (bytes : List UInt8) :
    Ends (vga.prints bytes) Vga.Within :=
  Ends.foldlM (fun c _ _ hs => vgaPutchar_ends hs c) h

theorem Vga.Within.setColor {vga : Vga} (h : vga.Within) (fg bg : UInt32) :
    (vgaSetColor vga fg bg).Within :=
  ⟨⟨h.buffer, h.row, h.column⟩, h.cursor⟩

/-! ## The prompt -/

/-- The decimal text of a status. The least one has no opposite, and only its last digit is shown,
below `'0'`. -/
def statusText (status : BitVec 32) : List UInt8 :=
  if status = BitVec.intMin 32 then [45, 40]
  else signed (decide (status.toInt < 0)) (numeral 10 status.toInt.natAbs)

/-- `"[status] "`, for a command that failed. -/
def statusPrompt (status : BitVec 32) : List UInt8 :=
  if status = 0 then [] else shellStatusText.bytes ++ (statusText status ++ shellStatusEnd.bytes)

theorem intToStr_bytes (status : BitVec 32) :
    (CString.ofBytes (intToStr status 12)).bytes = statusText status := by
  unfold statusText
  by_cases hmin : status = BitVec.intMin 32
  · rw [if_pos hmin, hmin]
    decide
  · rw [if_neg hmin, intToStr_eq hmin]
    refine bytes_ofBytes fun c hc => ?_
    have digits : c ∈ numeral 10 status.toInt.natAbs → c ≠ 0 :=
      numeral_noNul (by decide) (by decide) c
    unfold signed at hc
    split at hc
    · rcases List.mem_cons.mp hc with rfl | hc
      · decide
      · exact digits hc
    · exact digits hc

/-- The prompt, with the name of the user in a colour of its own. -/
def Vga.prompt (vga : Vga) (status : BitVec 32) (cwd : CString) : Option Vga := do
  let vga ← vga.prints (statusPrompt status)
  let vga ← (vgaSetColor vga shellUserColor shellBackground).prints shellUserText.bytes
  (vgaSetColor vga shellTextColor shellBackground).prints
    (shellHostText.bytes ++ (cwd.bytes ++ shellPromptEnd.bytes))

theorem shellPrintStatus_eq (shell : Shell) (status : BitVec 32) :
    shellPrintStatus shell status = shell.print (statusPrompt status) := by
  unfold shellPrintStatus statusPrompt
  by_cases hzero : status = 0
  · rw [if_pos hzero, if_neg (not_not_intro hzero)]
    rfl
  · rw [if_neg hzero, if_pos hzero, Shell.puts_eq]
    refine Shell.print_then fun vga => ?_
    rw [Shell.puts_eq, intToStr_bytes]
    exact Shell.print_then fun vga => Shell.puts_eq _ _

/-- What follows the bytes meets the same context with the screen that shows them. -/
theorem Shell.print_bind_eq (shell : Shell) (bytes : List UInt8) (f : Shell → Option Shell)
    {g : Vga → Option Vga}
    (h : ∀ vga, f { shell with vga := vga } = (g vga).map fun vga => { shell with vga := vga }) :
    (shell.print bytes).bind f =
      ((shell.vga.prints bytes).bind g).map fun vga => { shell with vga := vga } := by
  unfold Shell.print Vga.prints
  cases bytes.foldlM vgaPutchar shell.vga with
  | none => rfl
  | some vga => exact h vga

theorem shellPrintPrompt_eq (shell : Shell) (status : BitVec 32) (cwd : CString) :
    shellPrintPrompt shell status cwd =
      (shell.vga.prompt status cwd).map fun vga => { shell with vga := vga } := by
  unfold shellPrintPrompt
  rw [shellPrintStatus_eq]
  refine Shell.print_bind_eq shell _ _ fun vga => ?_
  show (Shell.puts _ shellUserText).bind _ = _
  rw [Shell.puts_eq]
  refine Shell.print_bind_eq (Shell.setColor { shell with vga := vga } _ _) _ _ fun vga => ?_
  show (Shell.puts _ shellHostText).bind _ = _
  rw [Shell.puts_eq]
  refine Shell.print_then fun vga => ?_
  rw [Shell.puts_eq]
  exact Shell.print_then fun vga => Shell.puts_eq _ _

theorem Vga.prompt_ends {vga : Vga} (h : vga.Within) (status : BitVec 32) (cwd : CString) :
    Ends (vga.prompt status cwd) Vga.Within :=
  (Vga.prints_ends h _).bind fun _ h => (Vga.prints_ends (h.setColor _ _) _).bind fun _ h =>
    Vga.prints_ends (h.setColor _ _) _

/-! ## The user's session -/

/-- A command and its arguments are words of the line, and the history holds lines. -/
structure UserSession (W : Type) where
  editor : Editor
  history : List CString
  status : BitVec 32
  machine : CommandState W
  reading : Bool

/-- The history once a line was entered. Where there is no memory for it, it only makes room. -/
def record (history : List CString) (line : CString) (allocated : Bool) : List CString :=
  if allocated then remember shellHistorySize history line
  else if history.getLast? = some line then history
  else if shellHistorySize ≤ history.length then history.tail
  else history

section User

variable {W : Type} (commands : List (ShellCommand W)) (cwd : W → CString)

def CommandState.prints (machine : CommandState W) (bytes : List UInt8) :
    Option (CommandState W) :=
  (machine.vga.prints bytes).map fun vga => { machine with vga := vga }

/-- The command of that name, or the complaint that there is none. -/
def dispatch (history : List CString) (machine : CommandState W) (name : CString)
    (args : List CString) : Option (CommandState W × BitVec 32) :=
  match commands.find? fun command => command.name = name with
  | some command => command.func history machine (name :: args)
  | none =>
    (machine.prints (shellErrorText.bytes ++ (name.bytes ++ shellNotFoundText.bytes))).map
      fun machine => (machine, 127)

namespace UserSession

/-- The texts that up and down go through. -/
def texts (u : UserSession W) : List (List UInt8) := u.history.map CString.bytes

/-- The words of the line, as many as there are arguments. -/
def words (u : UserSession W) : List CString :=
  ((fields isBlank u.editor.line.text).take (shellMaxArgs - 1)).map .ofBytes

/-- The prompt comes, with an empty line, unless a command has ended the session. -/
def prompt (u : UserSession W) : Option (UserSession W) :=
  if u.machine.running then do
    let vga ← u.machine.vga.prompt u.status (cwd u.machine.world)
    some { u with machine := { u.machine with vga := vga }, editor := .start, reading := true }
  else some { u with reading := false }

/-- A line is entered. -/
def enter (u : UserSession W) (allocated : Bool) : Option (UserSession W) :=
  if u.editor.line.text = [] then some u
  else
    let history := record u.history (.ofBytes u.editor.line.text) allocated
    match u.words with
    | [] => some { u with history := history }
    | name :: args => do
      let (machine, status) ← dispatch commands history u.machine name args
      some { u with history := history, machine := machine, status := status }

/-- A key, and whether there is memory for a line. -/
def key (u : UserSession W) (key : ShellKey) (allocated : Bool) : Option (UserSession W) := do
  let (editor, turn) := u.editor.press u.texts key
  let machine ← u.machine.prints (u.editor.output u.texts key)
  let u := { u with editor := editor, machine := machine }
  match turn with
  | .reading => some u
  | .exited => some { u with machine := { machine with running := false }, reading := false }
  | .entered | .cancelled => do
    let u ← u.enter commands allocated
    u.prompt cwd

/-- The first prompt. -/
def boot (vga : Vga) (world : W) : Option (UserSession W) := do
  let vga ← (vgaSetColor vga shellTextColor shellBackground).prints shellWelcomeText.bytes
  prompt cwd
    { editor := .start
      history := []
      status := 0
      machine := ⟨vga, true, world⟩
      reading := false }

/-- A session that has ended ignores the keys. -/
def step (u : Option (UserSession W)) (call : ShellKey × Bool) : Option (UserSession W) := do
  let u ← u
  if u.reading then u.key commands cwd call.1 call.2 else some u

end UserSession

end User

/-! ## What the shell holds of it -/

/-- The screen and the rest of the machine, the status, and the lines. -/
structure MachineIs {W : Type} (s : ShellSession W) (u : UserSession W) : Prop where
  machine : u.machine = ⟨s.shell.vga, s.shell.running, s.world⟩
  within : s.shell.vga.Within
  status : s.lastExitStatus = u.status
  history : HistoryIs s.history u.history
  bound : u.history.length ≤ shellHistorySize
  printable : ∀ command ∈ u.history, ∀ c ∈ command.bytes, Printable c

/-- The line editor, while the shell reads. -/
structure LineIs {W : Type} (s : ShellSession W) (u : UserSession W) : Prop where
  edits : Edits s.shell u.editor
  texts : s.shell.texts = u.texts
  printable : ∀ c ∈ u.editor.line.text, Printable c

/-- The shell keeps the user's session. -/
structure SessionIs {W : Type} (s : ShellSession W) (u : UserSession W) : Prop
    extends MachineIs s u where
  reading : s.reading = u.reading
  running : u.reading = true → s.shell.running = true
  line : u.reading = true → LineIs s u

/-- `malloc` returns no block that is in use. -/
def FreshBlock (history : ShellHistory) (block : Option HistoryEntry) : Prop :=
  ∀ t entry, historyEvict history = some t → block = some entry →
    t.historyHead.entries entry = none

/-- The commands end, and leave the screen in order. -/
def SafeCommands {W : Type} (commands : List (ShellCommand W)) : Prop :=
  ∀ command ∈ commands, ∀ (history : List CString) state args,
    history.length ≤ shellHistorySize → state.vga.Within →
    Ends (command.func history state args) fun result => result.1.vga.Within

/-! ## The history -/

theorem HistoryIs.record {history : ShellHistory} {commands : List CString}
    (h : HistoryIs history commands) {line : CString} (hline : Recordable line)
    {block : Option HistoryEntry} (hfresh : FreshBlock history block) :
    ∃ t, shellAddToHistory history line block = some t ∧
      HistoryIs t (record commands line block.isSome) := by
  cases block with
  | some entry =>
    refine h.step hline fun history' t hsame _ hevict => ⟨entry, rfl, ?_⟩
    obtain rfl := Option.some.inj hsame
    exact hfresh t entry hevict rfl
  | none =>
    unfold shellAddToHistory
    rw [if_neg (Nat.ne_of_gt hline.1), h.repeats]
    show ∃ t, _ ∧ HistoryIs t (if commands.getLast? = some line then _ else _)
    by_cases hlast : commands.getLast? = some line
    · rw [if_pos hlast, decide_eq_true hlast]
      exact ⟨history, rfl, h⟩
    · obtain ⟨t, hevict, ht⟩ := h.evict
      rw [if_neg hlast, decide_eq_false hlast]
      refine ⟨t, ?_, ht⟩
      show (historyEvict history >>= _) = _
      rw [hevict]
      rfl

/-- Only the line that was entered is new. -/
theorem mem_record {history : List CString} {line command : CString} {allocated : Bool}
    (h : command ∈ record history line allocated) : command ∈ history ∨ command = line := by
  have behind {kept : List CString} (hkept : ∀ c ∈ kept, c ∈ history)
      (h : command ∈ kept ++ [line]) : command ∈ history ∨ command = line :=
    (List.mem_append.mp h).imp (hkept command) List.mem_singleton.mp
  unfold record remember at h
  split_ifs at h with hallocated hlast hfull
  · exact .inl h
  · exact behind (fun _ => List.mem_of_mem_tail) h
  · exact behind (fun _ => id) h
  · exact .inl h
  · exact .inl (List.mem_of_mem_tail h)
  · exact .inl h

theorem length_record {history : List CString} (h : history.length ≤ shellHistorySize)
    (line : CString) (allocated : Bool) :
    (record history line allocated).length ≤ shellHistorySize := by
  have evicted : history.tail.length ≤ shellHistorySize := by
    rw [List.length_tail]
    exact Nat.le_trans (Nat.sub_le _ _) h
  unfold record remember
  split_ifs with hallocated hlast hfull
  · exact h
  · have size : shellHistorySize = 16 := rfl
    rw [List.length_append, List.length_tail, List.length_singleton]
    omega
  · rw [List.length_append, List.length_singleton]
    omega
  · exact h
  · exact evicted
  · exact h

/-- The line editor gets the lines. -/
theorem HistoryIs.editorTexts {history : ShellHistory} {commands : List CString}
    (h : HistoryIs history commands) :
    ∃ es, historyEntries history = some es ∧
      (es.map history.command).map (fun command => textOf command 255) =
        commands.map CString.bytes := by
  obtain ⟨es, hwalk, hcommands⟩ := h.walk
  refine ⟨es, hwalk, ?_⟩
  rw [List.map_map]
  refine List.ext_getElem? fun i => ?_
  have here := congrArg (fun l : List (Option CString) => l[i]?) hcommands
  simp only [List.getElem?_map] at here ⊢
  cases he : es[i]? with
  | none =>
    rw [he] at here
    cases hc : commands[i]? with
    | none => rfl
    | some command => rw [hc] at here; cases here
  | some entry =>
    rw [he] at here
    cases hc : commands[i]? with
    | none => rw [hc] at here; cases here
    | some command =>
      rw [hc] at here
      have held := Option.some.inj here
      have short := (CString.ofBuffer_end held).1
      exact congrArg some (textOf_of_ofBuffer held (Nat.le_of_lt_succ short))

/-! ## A line -/

theorem shellStart_eq (shell : Shell) :
    shellStart shell = some
      ⟨{ shell with
          inputBuffer := Function.update shell.inputBuffer 0 0
          inputLength := 0
          cursorPos := 0
          historyCurrent := none }, .reading⟩ := by
  unfold shellStart
  rw [Shell.write_eq _ (by decide)]
  rfl

/-- The terminator makes a string of the line. -/
theorem Edits.ofBuffer {shell : Shell} {e : Editor} (h : Edits shell e)
    (htext : ∀ c ∈ e.line.text, Printable c) :
    CString.ofBuffer shellMaxInputLength
        (Function.update shell.inputBuffer shell.inputLength 0) = some (.ofBytes e.line.text) := by
  have bytes : (CString.ofBytes e.line.text).bytes = e.line.text := by
    refine bytes_ofBytes fun c hc hzero => ?_
    have printable := (htext c hc).1
    rw [hzero] at printable
    exact absurd printable (by decide)
  have length : (CString.ofBytes e.line.text).strlen = shell.inputLength := by
    rw [CString.strlen, bytes, h.length]
  refine CString.ofBuffer_eq ?_ ?_ ?_
  · rw [length]
    exact Nat.lt_succ_of_le h.short
  · rw [length, bytes, ← h.bytes]
    exact bytesAt_congr fun i hi => Function.update_of_ne (by omega) ..
  · rw [length, Function.update_self]

theorem shellExecute_eq {W : Type} (commands : List (ShellCommand W)) (history : List CString)
    (machine : CommandState W) (name : CString) (args : List CString) :
    shellExecute commands history machine (name :: args) =
      dispatch commands history machine name args := by
  have same : (fun command : ShellCommand W => decide (strcmp name command.name = 0)) =
      fun command => decide (command.name = name) := by
    funext command
    exact decide_eq_decide.mpr ((strcmp_eq_zero_iff _ _).trans eq_comm)
  have message : shellPrintNotFound machine.vga name =
      machine.vga.prints (shellErrorText.bytes ++ (name.bytes ++ shellNotFoundText.bytes)) := by
    rw [Vga.prints_append]
    refine congrArg (Option.bind _) (funext fun vga => ?_)
    exact (Vga.prints_append vga _ _).symm
  unfold shellExecute dispatch
  dsimp only
  rw [same]
  cases commands.find? fun command => decide (command.name = name) with
  | some command => rfl
  | none =>
    dsimp only
    rw [message]
    unfold CommandState.prints
    cases machine.vga.prints _ with
    | none => rfl
    | some vga => rfl

theorem CommandState.prints_ends {W : Type} {machine : CommandState W} (h : machine.vga.Within)
    (bytes : List UInt8) : Ends (machine.prints bytes) fun next => next.vga.Within :=
  (Vga.prints_ends h bytes).map fun _ hvga => hvga

theorem dispatch_ends {W : Type} {commands : List (ShellCommand W)} (hsafe : SafeCommands commands)
    {history : List CString} (hbound : history.length ≤ shellHistorySize)
    {machine : CommandState W} (h : machine.vga.Within) (name : CString) (args : List CString) :
    Ends (dispatch commands history machine name args) fun result => result.1.vga.Within := by
  unfold dispatch
  split
  · next command hfind =>
    exact hsafe command (List.mem_of_find?_eq_some hfind) history machine _ hbound h
  · exact (CommandState.prints_ends h _).map fun _ hmachine => hmachine

section Steps

variable {W : Type} {commands : List (ShellCommand W)} {cwd : W → CString} {s : ShellSession W}
  {u : UserSession W}

/-- The command of the line. -/
theorem MachineIs.execute (h : MachineIs s u) (hline : LineIs s u) (hsafe : SafeCommands commands)
    {block : Option HistoryEntry} (hfresh : FreshBlock s.history block) :
    BothEnd (s.execute commands block) (u.enter commands block.isSome) MachineIs := by
  have short := hline.edits.short
  have length := hline.edits.length
  unfold ShellSession.execute UserSession.enter
  rw [Shell.write_eq _ (Nat.lt_succ_of_le short)]
  simp only [Option.bind_eq_bind, Option.bind_some]
  by_cases hempty : u.editor.line.text = []
  · rw [hempty] at length
    rw [if_neg (by rw [length]; decide), if_pos hempty]
    exact bothEnd_some.mpr ⟨h.machine, h.within, h.status, h.history, h.bound, h.printable⟩
  · have pos : 0 < s.shell.inputLength := by
      rw [length]
      exact List.length_pos_of_ne_nil hempty
    have ends := hline.edits.ofBuffer hline.printable
    have bytes : (CString.ofBytes u.editor.line.text).bytes = u.editor.line.text := by
      refine bytes_ofBytes fun c hc hzero => ?_
      have printable := (hline.printable c hc).1
      rw [hzero] at printable
      exact absurd printable (by decide)
    have recordable : Recordable (.ofBytes u.editor.line.text) := by
      unfold Recordable CString.strlen
      rw [bytes, ← length]
      exact ⟨pos, short⟩
    obtain ⟨t, hadd, ht⟩ := h.history.record recordable hfresh
    obtain ⟨buf, argv, hargv, hstrings⟩ := shellRunArgv_strings ends
    have hwords : (argv.mapM fun p =>
        CString.ofBuffer (shellMaxInputLength - p) fun i => buf (p + i)) = some u.words := by
      rw [hstrings, bytes]
      rfl
    have printable : ∀ command ∈ record u.history (.ofBytes u.editor.line.text) block.isSome,
        ∀ c ∈ command.bytes, Printable c := by
      intro command hcommand
      rcases mem_record hcommand with hold | rfl
      · exact h.printable command hold
      · rw [bytes]
        exact hline.printable
    have bound := length_record h.bound (.ofBytes u.editor.line.text) block.isSome
    rw [if_pos pos, if_neg hempty, ends]
    simp only [Option.bind_some, hadd, hargv, hwords]
    cases u.words with
    | nil =>
      rw [if_pos rfl]
      exact bothEnd_some.mpr ⟨h.machine, h.within, h.status, ht, bound, printable⟩
    | cons name args =>
      rw [if_neg (List.cons_ne_nil name args), ht.texts]
      simp only [Option.bind_some]
      rw [shellExecute_eq, h.machine]
      have within : (⟨s.shell.vga, s.shell.running, s.world⟩ : CommandState W).vga.Within :=
        h.within
      obtain ⟨⟨machine, status⟩, hrun, hvga⟩ := dispatch_ends hsafe bound within name args
      rw [hrun]
      exact bothEnd_some.mpr ⟨rfl, hvga, rfl, ht, bound, printable⟩

/-- The next prompt, or the end. -/
theorem MachineIs.prompt (h : MachineIs s u) :
    BothEnd (s.prompt cwd) (u.prompt cwd) SessionIs := by
  have running : u.machine.running = s.shell.running := by rw [h.machine]
  have vga : u.machine.vga = s.shell.vga := by rw [h.machine]
  have world : u.machine.world = s.world := by rw [h.machine]
  unfold ShellSession.prompt UserSession.prompt
  rw [running]
  by_cases hrunning : s.shell.running = true
  · rw [if_neg (not_not_intro hrunning), if_pos hrunning, shellPrintPrompt_eq, vga, world,
      h.status]
    obtain ⟨next, hprompt, hnext⟩ := Vga.prompt_ends h.within u.status (cwd s.world)
    obtain ⟨es, hentries, htexts⟩ := h.history.editorTexts
    rw [hprompt, hentries]
    simp only [Option.map_some, Option.bind_eq_bind, Option.bind_some, shellStart_eq]
    refine bothEnd_some.mpr ⟨⟨?_, hnext, rfl, h.history, h.bound, h.printable⟩, rfl,
      fun _ => hrunning, fun _ => ?_⟩
    · rw [h.machine]
    · exact ⟨⟨rfl, rfl, Nat.zero_le 255, rfl, fun i hi => nomatch hi⟩, htexts,
        fun c hc => absurd hc List.not_mem_nil⟩
  · rw [if_pos hrunning, if_neg hrunning]
    have ended {P : Prop} (hreading : false = true) : P := absurd hreading Bool.false_ne_true
    exact bothEnd_some.mpr
      ⟨⟨h.machine, h.within, h.status, h.history, h.bound, h.printable⟩, rfl, ended, ended⟩

/-- A turn of the line editor, before what comes of it. -/
theorem SessionIs.turn (h : SessionIs s u) (hreading : u.reading = true) (key : ShellKey) :
    ∃ shell, shellTurn s.shell key = some (shell, (u.editor.press u.texts key).2) ∧
      u.machine.prints (u.editor.output u.texts key) =
        some { u.machine with vga := shell.vga } ∧
      shell.vga.Within ∧
      shell.running = (s.shell.running && (u.editor.press u.texts key).2 != .exited) ∧
      LineIs { s with shell := shell } { u with editor := (u.editor.press u.texts key).1 } := by
  have line := h.line hreading
  obtain ⟨shell, hturn, hvga, hhistory, hedits⟩ := shellTurn_eq line.edits key
  rw [line.texts] at hturn hedits
  obtain ⟨vga, hprint, hwithin⟩ := Vga.prints_ends h.within (u.editor.output u.texts key)
  have printed : shell.print (u.editor.output u.texts key) = some { shell with vga := vga } := by
    unfold Shell.print
    rw [hvga]
    unfold Vga.prints at hprint
    rw [hprint]
    rfl
  rw [printed] at hturn
  have history : ∀ text ∈ u.texts, ∀ c ∈ text, Printable c := by
    intro text htext
    obtain ⟨command, hcommand, rfl⟩ := List.mem_map.mp htext
    exact h.printable command hcommand
  refine ⟨_, hturn, ?_, hwithin, shellTurn_running hturn, ?_⟩
  · unfold CommandState.prints
    rw [h.machine, hprint]
    rfl
  · refine ⟨⟨hedits.bytes, hedits.cursor, hedits.short, hedits.recalled, hedits.entry⟩, ?_,
      (u.editor.effect u.texts key).printable line.printable history⟩
    show shell.history.map _ = _
    rw [hhistory]
    exact line.texts

/-- A key. -/
theorem SessionIs.step (h : SessionIs s u) (hsafe : SafeCommands commands)
    {call : ShellKey × Option HistoryEntry} (hfresh : FreshBlock s.history call.2) :
    BothEnd (shellRunStep commands cwd (some s) call)
      (UserSession.step commands cwd (some u) (call.1, call.2.isSome)) SessionIs := by
  show BothEnd (if ¬ s.reading = true then _ else _) (if u.reading = true then _ else _) _
  by_cases hreading : u.reading = true
  · rw [if_neg (not_not_intro (h.reading.trans hreading)), if_pos hreading]
    obtain ⟨shell, hturn, hprints, hwithin, hrunning, hline⟩ := h.turn hreading call.1
    unfold UserSession.key
    dsimp only
    rw [hturn, hprints]
    generalize u.editor.press u.texts call.1 = pressed at hrunning hline ⊢
    obtain ⟨editor, turn⟩ := pressed
    have kept : turn ≠ .exited → MachineIs { s with shell := shell }
        { u with editor := editor, machine := { u.machine with vga := shell.vga } } := by
      intro hturn
      refine ⟨?_, hwithin, h.status, h.history, h.bound, h.printable⟩
      rw [h.machine, hrunning, bne_iff_ne.mpr hturn, Bool.and_true]
    have line : LineIs { s with shell := shell }
        { u with editor := editor, machine := { u.machine with vga := shell.vga } } :=
      ⟨hline.edits, hline.texts, hline.printable⟩
    cases turn with
    | reading =>
      have running : shell.running = true := by
        rw [hrunning, h.running hreading]
        rfl
      exact bothEnd_some.mpr ⟨kept (by decide), h.reading, fun _ => running, fun _ => line⟩
    | exited =>
      have ended {P : Prop} (hreading : false = true) : P := absurd hreading Bool.false_ne_true
      refine bothEnd_some.mpr
        ⟨⟨?_, hwithin, h.status, h.history, h.bound, h.printable⟩, rfl, ended, ended⟩
      have stopped : shell.running = false := hrunning.trans (Bool.and_false _)
      show (⟨shell.vga, false, u.machine.world⟩ : CommandState W) =
        ⟨shell.vga, shell.running, s.world⟩
      rw [stopped, h.machine]
    | entered =>
      exact ((kept (by decide)).execute line hsafe hfresh).bind fun _ _ h => h.prompt
    | cancelled =>
      exact ((kept (by decide)).execute line hsafe hfresh).bind fun _ _ h => h.prompt
  · have ended : ¬ s.reading = true := by rwa [h.reading]
    rw [if_pos ended, if_neg hreading]
    exact bothEnd_some.mpr h

end Steps

/-! ## Sessions -/

section Sessions

variable {W : Type}

section Blocks

variable {commands : List (ShellCommand W)} {cwd : W → CString} {session next : ShellSession W}
  {n : ℕ}

theorem ShellSession.prompt_history (h : session.prompt cwd = some next) :
    next.history = session.history := by
  unfold ShellSession.prompt at h
  split at h
  · obtain rfl := Option.some.inj h
    rfl
  · obtain ⟨_, -, hrest⟩ := Option.bind_eq_some_iff.mp h
    obtain ⟨_, -, hrest⟩ := Option.bind_eq_some_iff.mp hrest
    obtain ⟨_, -, hline⟩ := Option.bind_eq_some_iff.mp hrest
    obtain rfl := Option.some.inj hline
    rfl

/-- A line is added to the history, or leaves it alone. -/
theorem ShellSession.execute_history {block : Option HistoryEntry}
    (h : session.execute commands block = some next) :
    next.history = session.history ∨
      ∃ line, shellAddToHistory session.history line block = some next.history := by
  obtain ⟨shell, -, hrest⟩ := Option.bind_eq_some_iff.mp h
  split at hrest
  · obtain ⟨line, -, hrest⟩ := Option.bind_eq_some_iff.mp hrest
    obtain ⟨history, hadd, hrest⟩ := Option.bind_eq_some_iff.mp hrest
    obtain ⟨_, -, hrest⟩ := Option.bind_eq_some_iff.mp hrest
    obtain ⟨args, -, hrest⟩ := Option.bind_eq_some_iff.mp hrest
    refine .inr ⟨line, ?_⟩
    split at hrest
    · obtain rfl := Option.some.inj hrest
      exact hadd
    · obtain ⟨_, -, hrest⟩ := Option.bind_eq_some_iff.mp hrest
      obtain ⟨_, -, hdone⟩ := Option.bind_eq_some_iff.mp hrest
      obtain rfl := Option.some.inj hdone
      exact hadd
  · obtain rfl := Option.some.inj hrest
    exact .inl rfl

theorem FreeFrom.block {history : ShellHistory} {entry : HistoryEntry} (h : FreeFrom history n)
    (hentry : n ≤ entry) : FreshBlock history (some entry) := by
  intro t e hevict hblock
  obtain rfl := Option.some.inj hblock
  exact h.evict hevict _ hentry

theorem FreeFrom.key (h : FreeFrom session.history n) {key : ShellKey}
    (hstep : shellRunStep commands cwd (some session) (key, some n) = some next) :
    FreeFrom next.history (n + 1) := by
  have entered {shell : Shell}
      (hline : (ShellSession.execute commands { session with shell := shell } (some n)).bind
        (ShellSession.prompt cwd) = some next) : FreeFrom next.history (n + 1) := by
    obtain ⟨done, hexecute, hprompt⟩ := Option.bind_eq_some_iff.mp hline
    rw [ShellSession.prompt_history hprompt]
    rcases ShellSession.execute_history hexecute with hsame | ⟨line, hadd⟩
    · rw [hsame]
      exact h.succ
    · exact h.add hadd
  unfold shellRunStep at hstep
  rw [Option.bind_eq_bind, Option.bind_some] at hstep
  split at hstep
  · obtain rfl := Option.some.inj hstep
    exact h.succ
  · obtain ⟨⟨shell, turn⟩, -, hturn⟩ := Option.bind_eq_some_iff.mp hstep
    cases turn with
    | reading =>
      obtain rfl := Option.some.inj hturn
      exact h.succ
    | exited =>
      obtain rfl := Option.some.inj hturn
      exact h.succ
    | entered => exact entered hturn
    | cancelled => exact entered hturn

end Blocks

end Sessions

/-- The root directory, for a machine without more. -/
def rootCwd (_ : Unit) : CString := .slash

end Unics
