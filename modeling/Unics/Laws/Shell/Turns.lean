import Unics.Lib.EditLine
import Unics.Dev.Shell

/-!
# A turn, without its loops

Every loop of the line editor either moves bytes of the buffer or sends bytes to the screen. A turn
is then a change of the context and a list of bytes for `vga_putchar` (`Shell.print`): the loops are
gone, and no access was outside the buffer.
-/

namespace Unics

open Unics.Lib

/-- The bytes of a buffer in which one is gone and those behind it have moved. -/
theorem bytesAt_erased (buf : Buffer) (c n : Nat) :
    bytesAt (fun i => if c ≤ i ∧ i < c + n then buf (i + 1) else buf i) c n =
      bytesAt buf (c + 1) n :=
  bytesAt_congr fun i hi => by rw [if_pos (by omega), Nat.add_right_comm]

/-- The bytes of a buffer in which one is new and those behind it have moved. -/
theorem bytesAt_inserted (buf : Buffer) (a : UInt8) (c n : Nat) :
    bytesAt (fun i =>
      if i = c then a else if c < i ∧ i ≤ c + n then buf (i - 1) else buf i) c (n + 1) =
        a :: bytesAt buf c n := by
  rw [bytesAt_succ, if_pos rfl]
  refine congrArg (a :: ·) (bytesAt_congr fun i hi => ?_)
  have source : c + 1 + i - 1 = c + i := by omega
  rw [if_neg (by omega), if_pos (by omega), source]

namespace Shell

/-! ## What is sent to the screen -/

/-- The screen gets these bytes. -/
def print (shell : Shell) (bytes : List UInt8) : Option Shell :=
  (bytes.foldlM vgaPutchar shell.vga).map fun vga => { shell with vga := vga }

theorem print_append (shell : Shell) (before after : List UInt8) :
    shell.print (before ++ after) = (shell.print before).bind fun shell => shell.print after := by
  unfold print
  rw [List.foldlM_append]
  cases before.foldlM vgaPutchar shell.vga with
  | none => rfl
  | some vga => rfl

theorem putchar_eq (shell : Shell) (c : UInt8) : shell.putchar c = shell.print [c] := by
  unfold putchar print
  rw [List.foldlM_cons]
  cases vgaPutchar shell.vga c with
  | none => rfl
  | some vga => rfl

theorem puts_eq (shell : Shell) (str : CString) : shell.puts str = shell.print str.bytes := by
  unfold puts print
  show (str.bytes.foldlM vgaPutchar shell.vga >>= _) = _
  cases str.bytes.foldlM vgaPutchar shell.vga with
  | none => rfl
  | some vga => rfl

/-- What follows the bytes meets the same context with another screen. -/
theorem print_bind_congr {τ : Type} {shell : Shell} {bytes : List UInt8} {f g : Shell → Option τ}
    (h : ∀ vga, f { shell with vga := vga } = g { shell with vga := vga }) :
    (shell.print bytes).bind f = (shell.print bytes).bind g := by
  unfold print
  cases bytes.foldlM vgaPutchar shell.vga with
  | none => rfl
  | some vga => exact h vga

/-- Bytes, then a change of the context and more bytes. The change may come first. -/
theorem print_then {shell shell' : Shell} {before after : List UInt8} {f : Shell → Option Shell}
    (h : ∀ vga, f { shell with vga := vga } = Shell.print { shell' with vga := vga } after)
    (hvga : shell'.vga = shell.vga := by rfl) :
    (shell.print before).bind f = shell'.print (before ++ after) := by
  unfold print at h ⊢
  rw [hvga, List.foldlM_append]
  cases before.foldlM vgaPutchar shell.vga with
  | none => rfl
  | some vga => exact h vga

/-- Bytes, and then only a change of the context. -/
theorem print_change {shell shell' : Shell} {bytes : List UInt8} {f : Shell → Option Shell}
    (h : ∀ vga, f { shell with vga := vga } = some { shell' with vga := vga })
    (hvga : shell'.vga = shell.vga := by rfl) :
    (shell.print bytes).bind f = shell'.print bytes := by
  have all : (shell.print bytes).bind f = shell'.print (bytes ++ []) := print_then h hvga
  rwa [List.append_nil] at all

/-! ## Loops over the screen -/

theorem putMany_eq (shell : Shell) (n : Nat) (c : UInt8) :
    shell.putMany n c = shell.print (List.replicate n c) := by
  unfold putMany
  induction n with
  | zero => rfl
  | succ n ih =>
    rw [foldlM_range'_succ, ih, List.replicate_succ', print_append]
    exact print_bind_congr fun vga => putchar_eq _ c

theorem drawChar_eq (shell : Shell) {i : Nat} (h : i < 256) :
    shell.drawChar i = shell.print [shell.inputBuffer i] := by
  rw [← putchar_eq, drawChar, loadChar_of_lt _ h]
  rfl

theorem draw_eq (shell : Shell) {start stop : Nat} (h : stop ≤ 256) :
    shell.draw start stop =
      shell.print (bytesAt shell.inputBuffer start (stop - start)) := by
  unfold draw bytesAt
  have room : stop - start ≤ 256 - start := Nat.sub_le_sub_right h start
  generalize stop - start = n at room
  induction n with
  | zero => rfl
  | succ n ih =>
    rw [foldlM_range'_succ, ih (by omega), List.range'_concat, List.map_append, print_append,
      Nat.one_mul]
    exact print_bind_congr fun vga => drawChar_eq _ (by omega)

/-- The loop that takes the cursor to the start of the line. -/
theorem rewind_eq (shell : Shell) {n k : Nat} (h : shell.cursorPos = n + k) :
    (List.range' 0 n).foldlM
        (fun shell _ => do
          let shell ← shell.putchar 8
          let cursorPos ← decrement shell.cursorPos
          some { shell with cursorPos := cursorPos })
        shell =
      Shell.print { shell with cursorPos := k } (List.replicate n 8) := by
  induction n generalizing k with
  | zero =>
    rw [Nat.zero_add] at h
    rw [← h]
    rfl
  | succ n ih =>
    rw [foldlM_range'_succ, ih (by omega : shell.cursorPos = n + (k + 1)), List.replicate_succ']
    refine print_then fun vga => ?_
    rw [putchar_eq]
    exact print_change fun vga => rfl

/-! ## Loops over the buffer -/

theorem write_eq (shell : Shell) {i : Nat} (h : i < 256) (c : UInt8) :
    shell.write i c = some { shell with inputBuffer := Function.update shell.inputBuffer i c } := by
  rw [write, storeChar_of_lt _ _ h]
  rfl

theorem copyChar_eq (shell : Shell) {dest src : Nat} (hdest : dest < 256) (hsrc : src < 256) :
    shell.copyChar dest src =
      some { shell with
        inputBuffer := Function.update shell.inputBuffer dest (shell.inputBuffer src) } := by
  rw [copyChar, loadChar_of_lt _ hsrc]
  exact write_eq shell hdest _

/-- The bytes from `start + 1` on move one place to the left. -/
theorem shiftLeft_eq (shell : Shell) {start n : Nat} (h : start + n < 256) :
    (List.range' start n).foldlM (fun shell i => shell.copyChar i (i + 1)) shell =
      some { shell with
        inputBuffer := fun i =>
          if start ≤ i ∧ i < start + n then shell.inputBuffer (i + 1)
          else shell.inputBuffer i } := by
  induction n with
  | zero =>
    have none (i : Nat) : ¬ (start ≤ i ∧ i < start + 0) := by omega
    simp only [none, if_false]
    rfl
  | succ n ih =>
    rw [foldlM_range'_succ, ih (by omega)]
    refine (copyChar_eq _ (by omega) (by omega)).trans ?_
    congr 2
    funext i
    dsimp only
    by_cases here : i = start + n
    · rw [here, Function.update_self, if_neg (by omega), if_pos (by omega)]
    · rw [Function.update_of_ne here]
      refine if_congr ?_ rfl rfl
      omega

/-- The bytes behind place `c` move one place to the right, the last one first. -/
theorem shiftRight_eq (shell : Shell) {c n : Nat} (h : c + n < 256) :
    (List.range' (c + 1) n).reverse.foldlM (fun shell i => shell.copyChar i (i - 1)) shell =
      some { shell with
        inputBuffer := fun i =>
          if c < i ∧ i ≤ c + n then shell.inputBuffer (i - 1) else shell.inputBuffer i } := by
  induction n generalizing shell with
  | zero =>
    have none (i : Nat) : ¬ (c < i ∧ i ≤ c + 0) := by omega
    simp only [none, if_false]
    rfl
  | succ n ih =>
    rw [List.range'_concat, Nat.one_mul, List.reverse_append, List.reverse_singleton,
      List.singleton_append, List.foldlM_cons, copyChar_eq shell (by omega) (by omega)]
    refine (ih _ (by omega)).trans ?_
    congr 2
    funext i
    dsimp only
    by_cases last : i = c + 1 + n
    · rw [if_neg (by omega), if_pos (by omega), last, Function.update_self]
    · rw [Function.update_of_ne last]
      by_cases moved : c < i ∧ i ≤ c + n
      · rw [if_pos moved, if_pos (by omega), Function.update_of_ne (by omega)]
      · rw [if_neg moved, if_neg (by omega)]

/-! ## Branches -/

/-- The bytes that erase a line. -/
def eraseBytes (shell : Shell) : List UInt8 :=
  List.replicate shell.cursorPos 8 ++
    (List.replicate shell.inputLength 32 ++ List.replicate shell.inputLength 8)

/-- The cursor goes to the start of the line, and what was there is blank. -/
theorem eraseInput_eq (shell : Shell) :
    shellEraseInput shell = Shell.print { shell with cursorPos := 0 } shell.eraseBytes := by
  unfold shellEraseInput eraseBytes
  rw [rewind_eq shell (Nat.add_zero _).symm]
  refine print_then fun vga => ?_
  rw [putMany_eq]
  exact print_then fun vga => putMany_eq _ _ _

/-- A backspace behind `c` characters, with `n` characters after the cursor. -/
theorem backspace_eq {shell : Shell} {c n : Nat} (hcursor : shell.cursorPos = c + 1)
    (hlength : shell.inputLength = c + 1 + n) (hshort : c + 1 + n < 256) :
    shellBackspace shell = Shell.print
      { shell with
        inputBuffer := fun i =>
          if c ≤ i ∧ i < c + n then shell.inputBuffer (i + 1) else shell.inputBuffer i
        inputLength := c + n
        cursorPos := c }
      (8 :: (bytesAt shell.inputBuffer (c + 1) n ++ 32 :: List.replicate (n + 1) 8)) := by
  have count : c + 1 + n = c + n + 1 := by omega
  unfold shellBackspace
  simp only [hcursor, hlength, count, decrement, Option.bind_eq_bind, Option.bind_some,
    Nat.add_sub_cancel_left]
  rw [shiftLeft_eq shell (by omega)]
  simp only [hcursor, hlength, count, Option.bind_some]
  rw [putchar_eq]
  refine print_then fun vga => ?_
  simp only
  rw [draw_eq _ (by omega), Nat.add_sub_cancel_left, bytesAt_erased]
  refine print_then fun vga => ?_
  rw [putchar_eq]
  refine print_then fun vga => ?_
  have back : c + n + 1 - c = n + 1 := by omega
  simp only [back]
  exact putMany_eq _ _ _

/-- A character behind `c` characters, with `n` characters after the cursor. -/
theorem insert_eq {shell : Shell} {c n : Nat} (a : UInt8) (hcursor : shell.cursorPos = c)
    (hlength : shell.inputLength = c + n) (hshort : c + n < 255) :
    shellInsert shell a = Shell.print
      { shell with
        inputBuffer := fun i =>
          if i = c then a
          else if c < i ∧ i ≤ c + n then shell.inputBuffer (i - 1)
          else shell.inputBuffer i
        inputLength := c + n + 1
        cursorPos := c + 1 }
      ((a :: bytesAt shell.inputBuffer c n) ++ List.replicate n 8) := by
  unfold shellInsert
  simp only [hcursor, hlength, Option.bind_eq_bind, Nat.add_sub_cancel_left]
  rw [shiftRight_eq shell (by omega)]
  simp only [hcursor, hlength, Option.bind_some]
  rw [write_eq _ (by omega)]
  simp only [Option.bind_some]
  have buffer : (Function.update (fun i =>
      if c < i ∧ i ≤ c + n then shell.inputBuffer (i - 1) else shell.inputBuffer i) c a) = fun i =>
        if i = c then a
        else if c < i ∧ i ≤ c + n then shell.inputBuffer (i - 1)
        else shell.inputBuffer i := by
    funext i
    exact Function.update_apply _ _ _ _
  rw [buffer, draw_eq _ (by omega)]
  have count : c + n + 1 - c = n + 1 := by omega
  simp only [Nat.add_sub_cancel, count, bytesAt_inserted]
  refine print_then fun vga => ?_
  have back : c + n + 1 - (c + 1) = n := by omega
  simp only [back]
  exact putMany_eq _ _ _

/-- An entry that is selected replaces the line. -/
theorem navigate_entry {shell : Shell} {direction : Int} (hne : shell.history ≠ []) {i : Nat}
    (hselect : shellSelect shell.history.length direction shell.historyCurrent = some i)
    {command : Buffer} (hentry : shell.history[i]? = some command) :
    ∃ buffer, bytesAt buffer 0 (textOf command 255).length = textOf command 255 ∧
      shellNavigateHistory shell direction = Shell.print
        { shell with
          inputBuffer := buffer
          inputLength := (textOf command 255).length
          cursorPos := (textOf command 255).length
          historyCurrent := some i }
        (shell.eraseBytes ++ textOf command 255) := by
  obtain ⟨copied, hcopy, str, hstr, htext⟩ :=
    strncpy_terminated shell.inputBuffer command (by decide : 255 < 256)
  refine ⟨Function.update copied 255 0, ?_, ?_⟩
  · rw [← htext, bytesAt, ← List.range_eq_range']
    exact CString.ofBuffer_bytes hstr
  · unfold shellNavigateHistory
    rw [if_neg hne, hselect]
    dsimp only
    rw [eraseInput_eq]
    refine print_then fun vga => ?_
    have held : (textOf command 255).length = str.strlen := by rw [← htext, CString.strlen]
    have last : shellMaxInputLength - 1 = 255 := rfl
    simp only [hentry, last, Option.bind_eq_bind, Option.bind_some]
    rw [hcopy]
    simp only [Option.bind_some]
    rw [storeChar_of_lt _ _ (by decide)]
    simp only [Option.bind_some]
    rw [hstr]
    simp only [Option.bind_some, hstr]
    rw [puts_eq, htext, held]

/-- Below the newest entry the line is empty. -/
theorem navigate_empty {shell : Shell} {direction : Int} (hne : shell.history ≠ [])
    (hselect : shellSelect shell.history.length direction shell.historyCurrent = none) :
    shellNavigateHistory shell direction = Shell.print
      { shell with
        inputBuffer := Function.update shell.inputBuffer 0 0
        inputLength := 0
        cursorPos := 0
        historyCurrent := none }
      shell.eraseBytes := by
  unfold shellNavigateHistory
  rw [if_neg hne, hselect]
  dsimp only
  rw [eraseInput_eq]
  refine print_change fun vga => ?_
  rw [write_eq _ (by decide)]
  simp only [Option.bind_eq_bind, Option.bind_some]
  rw [CString.ofBuffer_empty (by decide) (Function.update_self _ _ _)]
  rfl

end Shell

end Unics
