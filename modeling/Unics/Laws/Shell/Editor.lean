import Unics.Lib.Run
import Unics.Laws.Vga.Invariant
import Unics.Laws.Shell.Turns

/-!
# The shell's line editor is a line editor

`Editor` is what a user sees: a line with a cursor, and the history entry that it was recalled from.
`Editor.press` says what each key does to it. The shell holds the editor's line in the first bytes
of `input_buffer` (`Edits`), and a turn of the shell is a key of the editor (`shellTurn_eq`).
-/

namespace Unics

open Unics.Lib

/-! ## The editor -/

structure Editor where
  line : EditLine UInt8
  recalled : Option Nat

namespace Editor

/-- An empty line. -/
def start : Editor := ⟨EditLine.ofText [], none⟩

/-- The entry above the one that is recalled, among `n`. -/
def older (n : Nat) : Option Nat → Nat
  | none => n - 1
  | some i => i - 1

/-- The entry below the one that is recalled. -/
def newer (n : Nat) : Option Nat → Option Nat
  | none => none
  | some i => if i + 1 < n then some (i + 1) else none

/-- An entry, or the empty line below the newest, with the cursor at its end. -/
def fromEntry (history : List (List UInt8)) : Option Nat → Editor
  | none => ⟨EditLine.ofText [], none⟩
  | some i => ⟨EditLine.ofText (history.getD i []), some i⟩

/-- A printable character that fits. -/
def Accepts (e : Editor) (c : UInt8) : Prop := 32 ≤ c ∧ c ≤ 126 ∧ e.line.text.length < 255

instance (e : Editor) (c : UInt8) : Decidable (e.Accepts c) :=
  inferInstanceAs (Decidable (_ ∧ _))

/-- What a key does, and whether it ends the line. Without a history, up and down do nothing. -/
def press (history : List (List UInt8)) (e : Editor) : ShellKey → Editor × ShellTurn
  | .escape next1 next2 =>
    if next1 = 91 then
      if next2 = 65 then
        (if history = [] then e else fromEntry history (some (older history.length e.recalled)),
          .reading)
      else if next2 = 66 then
        (if history = [] then e else fromEntry history (newer history.length e.recalled), .reading)
      else if next2 = 67 then ({ e with line := e.line.moveRight }, .reading)
      else if next2 = 68 then ({ e with line := e.line.moveLeft }, .reading)
      else (e, .reading)
    else (e, .reading)
  | .char c =>
    if c = 10 then (e, .entered)
    else if c = 4 then (e, if e.line.text = [] then .exited else .reading)
    else if c = 3 then ({ e with line := EditLine.ofText [] }, .cancelled)
    else if c = 8 then ({ e with line := e.line.erase }, .reading)
    else if e.Accepts c then ({ e with line := e.line.insert c }, .reading)
    else (e, .reading)

/-- The bytes that erase the line on the screen. -/
def eraseOutput (e : Editor) : List UInt8 :=
  List.replicate e.line.cursor 8 ++
    (List.replicate e.line.text.length 32 ++ List.replicate e.line.text.length 8)

/-- What the shell sends to the screen for a key. -/
def output (history : List (List UInt8)) (e : Editor) : ShellKey → List UInt8
  | .escape next1 next2 =>
    if next1 = 91 then
      if next2 = 65 then
        if history = [] then []
        else
          e.eraseOutput ++ (fromEntry history (some (older history.length e.recalled))).line.text
      else if next2 = 66 then
        if history = [] then []
        else e.eraseOutput ++ (fromEntry history (newer history.length e.recalled)).line.text
      else if next2 = 67 then e.line.after.take 1
      else if next2 = 68 then if 0 < e.line.cursor then [8] else []
      else []
    else []
  | .char c =>
    if c = 10 then [10]
    else if c = 4 then if e.line.text = [] then [10] else []
    else if c = 3 then shellCancelText.bytes
    else if c = 8 then
      if 0 < e.line.cursor then
        8 :: (e.line.after ++ 32 :: List.replicate (e.line.after.length + 1) 8)
      else []
    else if e.Accepts c then c :: e.line.after ++ List.replicate e.line.after.length 8
    else []

end Editor

/-! ## What the shell holds -/

/-- The texts of the history's entries. -/
def Shell.texts (shell : Shell) : List (List UInt8) :=
  shell.history.map fun command => textOf command 255

/-- The shell holds the editor's line. -/
structure Edits (shell : Shell) (e : Editor) : Prop where
  bytes : bytesAt shell.inputBuffer 0 shell.inputLength = e.line.text
  cursor : shell.cursorPos = e.line.cursor
  short : shell.inputLength ≤ 255
  recalled : shell.historyCurrent = e.recalled
  entry : ∀ i, e.recalled = some i → i < shell.history.length

section Edits

variable {shell : Shell} {e : Editor}

theorem Edits.length (h : Edits shell e) : shell.inputLength = e.line.text.length := by
  rw [← h.bytes, length_bytesAt]

theorem Edits.le (h : Edits shell e) : shell.cursorPos ≤ shell.inputLength := by
  rw [h.cursor, h.length]
  exact e.line.le

/-- The line is cut at the cursor. -/
theorem Edits.cut (h : Edits shell e) {n : Nat} (hn : shell.inputLength = shell.cursorPos + n) :
    e.line.before = bytesAt shell.inputBuffer 0 shell.cursorPos ∧
      e.line.after = bytesAt shell.inputBuffer shell.cursorPos n := by
  have bytes := h.bytes
  rw [hn, bytesAt_add, Nat.zero_add] at bytes
  have len : (bytesAt shell.inputBuffer 0 shell.cursorPos).length = e.line.cursor := by
    rw [length_bytesAt, h.cursor]
  constructor
  · rw [EditLine.before, ← bytes, List.take_left' len]
  · rw [EditLine.after, ← bytes, List.drop_left' len]

/-! ## The branches -/

/-- What a branch leaves: the editor's next line, on a screen that got these bytes. -/
def Shell.Turns (shell : Shell) (result : Option Shell) (e : Editor) (bytes : List UInt8) : Prop :=
  ∃ shell', result = Shell.print shell' bytes ∧ shell'.vga = shell.vga ∧
    shell'.history = shell.history ∧ Edits shell' e

theorem Edits.stay (h : Edits shell e) : shell.Turns (some shell) e [] :=
  ⟨shell, rfl, rfl, rfl, h⟩

theorem Edits.backspace (h : Edits shell e) (hpos : 0 < shell.cursorPos) :
    shell.Turns (shellBackspace shell) { e with line := e.line.erase }
      (8 :: (e.line.after ++ 32 :: List.replicate (e.line.after.length + 1) 8)) := by
  obtain ⟨c, hcursor⟩ : ∃ c, shell.cursorPos = c + 1 :=
    Nat.exists_eq_succ_of_ne_zero (Nat.ne_of_gt hpos)
  obtain ⟨n, hlength⟩ := Nat.exists_eq_add_of_le h.le
  have short := h.short
  obtain ⟨-, after⟩ := h.cut hlength
  have erased : e.line.cursor - 1 = c := by
    rw [← h.cursor, hcursor]
    rfl
  rw [hcursor] at hlength after
  rw [Shell.backspace_eq hcursor hlength (by omega), after, length_bytesAt]
  refine ⟨_, rfl, rfl, rfl, ?_, erased.symm, by show c + n ≤ 255; omega, h.recalled, h.entry⟩
  have kept : bytesAt (fun i =>
      if c ≤ i ∧ i < c + n then shell.inputBuffer (i + 1) else shell.inputBuffer i) 0 c =
        bytesAt shell.inputBuffer 0 c :=
    bytesAt_congr fun i hi => if_neg (by omega)
  have first : e.line.text.take c = bytesAt shell.inputBuffer 0 c := by
    rw [← h.bytes, hlength, Nat.add_assoc, bytesAt_add,
      List.take_left' (length_bytesAt shell.inputBuffer 0 c)]
  show bytesAt _ 0 (c + n) = e.line.text.take (e.line.cursor - 1) ++ e.line.after
  rw [erased, first, after, bytesAt_add, Nat.zero_add, kept, bytesAt_erased]

theorem Edits.insert (h : Edits shell e) {a : UInt8} (hshort : shell.inputLength < 255) :
    shell.Turns (shellInsert shell a) { e with line := e.line.insert a }
      (a :: e.line.after ++ List.replicate e.line.after.length 8) := by
  obtain ⟨n, hlength⟩ := Nat.exists_eq_add_of_le h.le
  obtain ⟨before, after⟩ := h.cut hlength
  rw [Shell.insert_eq a rfl hlength (by omega), after, length_bytesAt]
  refine ⟨_, rfl, rfl, rfl, ?_, congrArg (· + 1) h.cursor, by
    show shell.cursorPos + n + 1 ≤ 255
    omega, h.recalled, h.entry⟩
  generalize shell.cursorPos = c at before after
  show bytesAt _ 0 (c + n + 1) = e.line.before ++ a :: e.line.after
  rw [before, after, Nat.add_assoc, bytesAt_add, Nat.zero_add, bytesAt_inserted]
  refine congrArg (· ++ _) (bytesAt_congr fun i hi => ?_)
  dsimp only
  rw [if_neg (by omega), if_neg (by omega)]

theorem Edits.moveLeft (h : Edits shell e) :
    shell.Turns
      (if 0 < shell.cursorPos then do
        let shell ← shell.putchar 8
        let cursorPos ← decrement shell.cursorPos
        some { shell with cursorPos := cursorPos }
      else some shell)
      { e with line := e.line.moveLeft } (if 0 < e.line.cursor then [8] else []) := by
  rw [← h.cursor]
  split
  · next hpos =>
    obtain ⟨c, hcursor⟩ : ∃ c, shell.cursorPos = c + 1 :=
      Nat.exists_eq_succ_of_ne_zero (Nat.ne_of_gt hpos)
    have moved : e.line.cursor - 1 = c := by
      rw [← h.cursor, hcursor]
      rfl
    refine ⟨{ shell with cursorPos := c }, ?_, rfl, rfl, h.bytes, moved.symm, h.short, h.recalled,
      h.entry⟩
    rw [Shell.putchar_eq]
    refine Shell.print_change fun vga => ?_
    rw [hcursor]
    rfl
  · next hzero =>
    rw [EditLine.moveLeft_of_start (h.cursor ▸ Nat.eq_zero_of_not_pos hzero)]
    exact h.stay

theorem Edits.moveRight (h : Edits shell e) :
    shell.Turns
      (if shell.cursorPos < shell.inputLength then do
        let shell ← shell.drawChar shell.cursorPos
        some { shell with cursorPos := shell.cursorPos + 1 }
      else some shell)
      { e with line := e.line.moveRight } (e.line.after.take 1) := by
  split
  · next hlt =>
    obtain ⟨n, hlength⟩ := Nat.exists_eq_add_of_lt hlt
    have short := h.short
    obtain ⟨-, after⟩ := h.cut (n := n + 1) hlength
    have inside : e.line.cursor < e.line.text.length := by
      rw [← h.cursor, ← h.length]
      exact hlt
    have moved : e.line.moveRight = ⟨e.line.text, e.line.cursor + 1, inside⟩ := dif_pos inside
    rw [Shell.drawChar_eq _ (by omega), after, bytesAt_succ, List.take_succ_cons, List.take_zero,
      moved]
    refine ⟨{ shell with cursorPos := shell.cursorPos + 1 }, ?_, rfl, rfl, h.bytes,
      congrArg (· + 1) h.cursor, h.short, h.recalled, h.entry⟩
    exact Shell.print_change fun vga => rfl
  · next hend =>
    have atEnd : e.line.cursor = e.line.text.length := by
      rw [← h.cursor, ← h.length]
      exact Nat.le_antisymm h.le (Nat.le_of_not_lt hend)
    rw [EditLine.moveRight_of_end atEnd, EditLine.after_of_end atEnd]
    exact h.stay

theorem Edits.erased (h : Edits shell e) : shell.eraseBytes = e.eraseOutput := by
  rw [Shell.eraseBytes, Editor.eraseOutput, h.cursor, h.length]

theorem length_textOf_le (buf : Buffer) (n : Nat) : (textOf buf n).length ≤ n := by
  have taken := (List.takeWhile_prefix (p := fun c : UInt8 => decide (c ≠ 0))
    (l := (List.range n).map buf)).length_le
  rwa [List.length_map, List.length_range] at taken

/-- Whatever entry is selected, it replaces the line, unless there is no history. -/
theorem Edits.navigate (h : Edits shell e) {direction : Int} {r : Option Nat}
    (hselect : shellSelect shell.history.length direction e.recalled = r)
    (hr : shell.history ≠ [] → ∀ i, r = some i → i < shell.history.length) :
    shell.Turns (shellNavigateHistory shell direction)
      (if shell.texts = [] then e else Editor.fromEntry shell.texts r)
      (if shell.texts = [] then []
        else e.eraseOutput ++ (Editor.fromEntry shell.texts r).line.text) := by
  have nothing : shell.texts = [] ↔ shell.history = [] := List.map_eq_nil_iff
  by_cases hne : shell.history = []
  · rw [if_pos (nothing.mpr hne), if_pos (nothing.mpr hne), shellNavigateHistory, if_pos hne]
    exact h.stay
  rw [if_neg (mt nothing.mp hne), if_neg (mt nothing.mp hne)]
  rw [← h.recalled] at hselect
  cases r with
  | none =>
    rw [Shell.navigate_empty hne hselect, h.erased]
    show shell.Turns _ _ (e.eraseOutput ++ [])
    rw [List.append_nil]
    exact ⟨_, rfl, rfl, rfl, rfl, rfl, Nat.zero_le 255, rfl, fun i hi => nomatch hi⟩
  | some i =>
    have hlt := hr hne i rfl
    have entry : shell.history[i]? = some (shell.history[i]) := List.getElem?_eq_getElem hlt
    have text : shell.texts.getD i [] = textOf shell.history[i] 255 := by
      rw [Shell.texts, List.getD_eq_getElem?_getD, List.getElem?_map, entry]
      rfl
    obtain ⟨buffer, hbytes, hturn⟩ := Shell.navigate_entry hne hselect entry
    have recalled : Editor.fromEntry shell.texts (some i) =
        ⟨EditLine.ofText (textOf shell.history[i] 255), some i⟩ := by
      rw [Editor.fromEntry, text]
    rw [hturn, recalled, h.erased]
    refine ⟨_, rfl, rfl, rfl, hbytes, rfl, length_textOf_le _ _, rfl, ?_⟩
    rintro j ⟨⟩
    exact hlt

theorem shellSelect_older (n : Nat) (r : Option Nat) :
    shellSelect n 1 r = some (Editor.older n r) := by
  cases r with
  | none => rfl
  | some i => rfl

theorem shellSelect_newer (n : Nat) (r : Option Nat) :
    shellSelect n (-1) r = Editor.newer n r := by
  cases r with
  | none => rfl
  | some i => rfl

theorem Edits.older_lt (h : Edits shell e) (hne : shell.history ≠ []) :
    Editor.older shell.history.length e.recalled < shell.history.length := by
  have pos := List.length_pos_of_ne_nil hne
  cases hrec : e.recalled with
  | none => exact Nat.sub_lt pos Nat.one_pos
  | some i => exact Nat.lt_of_le_of_lt (Nat.sub_le i 1) (h.entry i hrec)

theorem newer_lt {n i : Nat} {r : Option Nat} (h : Editor.newer n r = some i) : i < n := by
  cases r with
  | none => cases h
  | some j =>
    rw [Editor.newer] at h
    by_cases hlt : j + 1 < n
    · rw [if_pos hlt] at h
      exact Option.some.inj h ▸ hlt
    · rw [if_neg hlt] at h
      cases h

/-! ## A turn -/

/-- The branch of an escape sequence. -/
theorem Edits.escape (h : Edits shell e) (next1 next2 : UInt8) :
    shell.Turns (shellEscape shell next1 next2) (e.press shell.texts (.escape next1 next2)).1
      (e.output shell.texts (.escape next1 next2)) := by
  have count : shell.texts.length = shell.history.length := List.length_map _
  unfold shellEscape Editor.press Editor.output
  dsimp only
  by_cases bracket : next1 = 91
  swap
  · rw [if_neg bracket, if_neg bracket, if_neg bracket]
    exact h.stay
  rw [if_pos bracket, if_pos bracket, if_pos bracket]
  by_cases up : next2 = 65
  · rw [if_pos up, if_pos up, if_pos up, count]
    refine h.navigate (shellSelect_older _ _) fun hne i hi => ?_
    exact Option.some.inj hi ▸ h.older_lt hne
  rw [if_neg up, if_neg up, if_neg up]
  by_cases down : next2 = 66
  · rw [if_pos down, if_pos down, if_pos down, count]
    exact h.navigate (shellSelect_newer _ _) fun _ _ hi => newer_lt hi
  rw [if_neg down, if_neg down, if_neg down]
  by_cases right : next2 = 67
  · rw [if_pos right, if_pos right, if_pos right]
    exact h.moveRight
  rw [if_neg right, if_neg right, if_neg right]
  by_cases left : next2 = 68
  · rw [if_pos left, if_pos left, if_pos left]
    exact h.moveLeft
  · rw [if_neg left, if_neg left, if_neg left]
    exact h.stay

/-- A branch in its turn. -/
theorem Shell.Turns.turn {result : Option Shell} {bytes : List UInt8}
    (h : shell.Turns result e bytes) (t : ShellTurn) :
    ∃ shell', (result.bind fun shell => some (shell, t)) =
        (Shell.print shell' bytes).map (fun shell => (shell, t)) ∧
      shell'.vga = shell.vga ∧ shell'.history = shell.history ∧ Edits shell' e := by
  obtain ⟨shell', rfl, rest⟩ := h
  exact ⟨shell', Option.map_eq_bind.symm, rest⟩

/-- The branches of a character. -/
theorem Edits.char (h : Edits shell e) (c : UInt8) :
    ∃ shell', shellTurn shell (.char c) =
        ((Shell.print shell' (e.output shell.texts (.char c))).map
          fun next => (next, (e.press shell.texts (.char c)).2)) ∧
      shell'.vga = shell.vga ∧ shell'.history = shell.history ∧
      Edits shell' (e.press shell.texts (.char c)).1 := by
  have length := h.length
  have cursor := h.cursor
  unfold shellTurn Editor.press Editor.output
  dsimp only
  by_cases enter : c = 10
  · rw [if_pos enter, if_pos enter, if_pos enter, Shell.putchar_eq]
    exact Shell.Turns.turn ⟨shell, rfl, rfl, rfl, h⟩ .entered
  rw [if_neg enter, if_neg enter, if_neg enter]
  by_cases ctrlD : c = 4
  · rw [if_pos ctrlD, if_pos ctrlD, if_pos ctrlD]
    by_cases empty : e.line.text = []
    · have zero : shell.inputLength = 0 := by rw [length, empty, List.length_nil]
      rw [if_pos zero, if_pos empty, if_pos empty, Shell.puts_eq]
      have turns : shell.Turns (Shell.print { shell with running := false } [10]) e [10] :=
        ⟨_, rfl, rfl, rfl, h.bytes, h.cursor, h.short, h.recalled, h.entry⟩
      exact turns.turn .exited
    · have some : shell.inputLength ≠ 0 := by
        rw [length]
        exact fun hzero => empty (List.eq_nil_of_length_eq_zero hzero)
      rw [if_neg some, if_neg empty, if_neg empty]
      exact h.stay.turn .reading
  rw [if_neg ctrlD, if_neg ctrlD, if_neg ctrlD]
  by_cases ctrlC : c = 3
  · rw [if_pos ctrlC, if_pos ctrlC, if_pos ctrlC, Shell.puts_eq]
    refine ⟨{ shell with inputLength := 0, cursorPos := 0 }, ?_, rfl, rfl,
      rfl, rfl, Nat.zero_le 255, h.recalled, h.entry⟩
    unfold Shell.print
    cases shellCancelText.bytes.foldlM vgaPutchar shell.vga with
    | none => rfl
    | some vga => rfl
  rw [if_neg ctrlC, if_neg ctrlC, if_neg ctrlC]
  by_cases back : c = 8
  · rw [if_pos back, if_pos back]
    by_cases hpos : 0 < shell.cursorPos
    · rw [if_pos ⟨back, hpos⟩, if_pos (cursor ▸ hpos)]
      exact (h.backspace hpos).turn .reading
    · have hzero : e.line.cursor = 0 := cursor ▸ Nat.eq_zero_of_not_pos hpos
      obtain rfl := back
      rw [if_neg (fun hback => hpos hback.2), if_neg (by decide),
        if_neg (fun printable => absurd printable.1 (by decide)),
        if_neg (Nat.not_lt_of_le (Nat.le_of_eq hzero)), EditLine.erase_of_start hzero]
      exact h.stay.turn .reading
  rw [if_neg (fun hback => back hback.1), if_neg back, if_neg back]
  by_cases accepted : e.Accepts c
  · have notTab : c ≠ 9 := by
      rintro rfl
      exact absurd accepted.1 (by decide)
    have room : shell.inputLength < 255 := length ▸ accepted.2.2
    rw [if_neg notTab, if_pos accepted, if_pos accepted,
      if_pos ⟨accepted.1, accepted.2.1, room⟩]
    exact (h.insert room).turn .reading
  · have refused : ¬ (32 ≤ c ∧ c ≤ 126 ∧ shell.inputLength < shellMaxInputLength - 1) := by
      rw [length]
      exact accepted
    rw [if_neg accepted, if_neg accepted, if_neg refused, ite_self]
    exact h.stay.turn .reading

/-- A turn of the shell is a key of the editor. -/
theorem shellTurn_eq (h : Edits shell e) (key : ShellKey) :
    ∃ shell', shellTurn shell key =
        ((Shell.print shell' (e.output shell.texts key)).map
          fun next => (next, (e.press shell.texts key).2)) ∧
      shell'.vga = shell.vga ∧ shell'.history = shell.history ∧
      Edits shell' (e.press shell.texts key).1 := by
  cases key with
  | escape next1 next2 =>
    have reading : (e.press shell.texts (.escape next1 next2)).2 = .reading := by
      unfold Editor.press
      dsimp only
      split_ifs <;> rfl
    rw [reading]
    exact (h.escape next1 next2).turn .reading
  | char c => exact h.char c

end Edits

/-! ## A line -/

/-- The editor does nothing once the line has ended. -/
def editorStep (history : List (List UInt8)) (t : Editor × ShellTurn) (key : ShellKey) :
    Editor × ShellTurn :=
  if t.2 = .reading then t.1.press history key else t

/-- The shell and the editor get the same keys. -/
def sessionStep (history : List (List UInt8)) (t : Option ShellLine × (Editor × ShellTurn))
    (key : ShellKey) : Option ShellLine × (Editor × ShellTurn) :=
  (shellStep t.1 key, editorStep history t.2 key)

/-- No access was outside an array or the screen, the counts are in range, and the first bytes of
the buffer are the editor's line, with the cursor where the editor has it. -/
def EditorAgrees (t : Option ShellLine × (Editor × ShellTurn)) : Prop :=
  Ends t.1 fun line =>
    line.shell.cursorPos ≤ line.shell.inputLength ∧
      line.shell.inputLength ≤ shellMaxInputLength - 1 ∧
      (List.range line.shell.inputLength).map line.shell.inputBuffer = t.2.1.line.text ∧
      line.shell.cursorPos = t.2.1.line.cursor ∧ line.turn = t.2.2

/-- What every key keeps. -/
structure Session (history : List Buffer) (line : ShellLine) (t : Editor × ShellTurn) : Prop where
  edits : Edits line.shell t.1
  vga : line.shell.vga.Within
  history : line.shell.history = history
  turn : line.turn = t.2

theorem Shell.print_ends {shell : Shell} (h : shell.vga.Within) (bytes : List UInt8) :
    Ends (shell.print bytes) fun shell' =>
      ∃ vga : Vga, vga.Within ∧ shell' = { shell with vga := vga } :=
  (Ends.foldlM (fun c _ _ hs => vgaPutchar_ends hs c) h).map fun vga hvga => ⟨vga, hvga, rfl⟩

theorem Session.step {history : List Buffer} {line : ShellLine} {t : Editor × ShellTurn}
    (h : Session history line t) (key : ShellKey) :
    Ends (shellStep (some line) key) fun line' =>
      Session history line' (editorStep (history.map fun command => textOf command 255) t key) := by
  unfold editorStep
  show Ends (if line.turn = .reading then _ else _) _
  rw [← h.turn]
  split
  · obtain ⟨shell', hturn, hvga, hhistory, edits⟩ := shellTurn_eq h.edits key
    have texts : line.shell.texts = history.map fun command => textOf command 255 := by
      rw [Shell.texts, h.history]
    rw [texts] at hturn edits
    rw [hturn]
    have shown := Shell.print_ends (hvga ▸ h.vga)
      (t.1.output (history.map fun command => textOf command 255) key)
    refine (shown.map (Q := fun next => Session history ⟨next.1, next.2⟩ _) ?_).bind
      fun next hnext => ends_some.mpr hnext
    rintro _ ⟨vga, within, rfl⟩
    exact ⟨⟨edits.bytes, edits.cursor, edits.short, edits.recalled, edits.entry⟩, within,
      hhistory.trans h.history, rfl⟩
  · exact ends_some.mpr h

theorem session_start {shell : Shell} (h : shell.vga.Within) :
    Ends (shellStart shell) fun line =>
      Session shell.history line (Editor.start, .reading) := by
  unfold shellStart
  rw [Shell.write_eq _ (by decide)]
  exact ends_some.mpr ⟨⟨rfl, rfl, Nat.zero_le 255, rfl, fun i hi => nomatch hi⟩, h, rfl, rfl⟩

theorem Session.agrees {history : List Buffer} {line : ShellLine} {t : Editor × ShellTurn}
    (h : Session history line t) : EditorAgrees (some line, t) := by
  refine ends_some.mpr ⟨h.edits.le, h.edits.short, ?_, h.edits.cursor, h.turn⟩
  rw [List.range_eq_range']
  exact h.edits.bytes

/-- For every stream of characters, every history and every screen, after every key the shell holds
what the editor holds. -/
theorem shell_line_editor (shell : Shell) (hvga : shell.vga.Within) (stream : List UInt8) :
    EveryState (sessionStep shell.texts) EditorAgrees
      (shellStart shell, (Editor.start, .reading)) (shellKeys stream) := by
  refine (everyStep_true _ _ _).everyState
    (I := fun t => Ends t.1 fun line => Session shell.history line t.2) ?_ ?_ (session_start hvga)
  · rintro ⟨_, t⟩ key ⟨line, rfl, h⟩ _
    exact h.step key
  · rintro ⟨_, t⟩ ⟨line, rfl, h⟩
    exact h.agrees

/-- An empty screen. -/
def blankScreen : Vga := ⟨0, 0, 7, true, fun _ => 0x720, 0⟩

theorem blankScreen_within : blankScreen.Within := ⟨⟨rfl, by decide, by decide⟩, rfl⟩

/-- `a`, up, left, `b` and a backspace, with one command in the history. -/
theorem shell_line_editor_recall :
    let shell : Shell :=
      ⟨fun _ => 0, 0, 0, [fun i => if i < 2 then 108 else 0], none, true, blankScreen⟩
    EveryState (sessionStep shell.texts) EditorAgrees
      (shellStart shell, (Editor.start, .reading))
      (shellKeys [97, 27, 91, 65, 27, 91, 68, 98, 8]) :=
  shell_line_editor _ blankScreen_within _

end Unics
