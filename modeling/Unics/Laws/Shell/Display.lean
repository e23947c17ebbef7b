import Unics.Laws.Vga.Text
import Unics.Laws.Shell.Editor

/-!
# What the shell shows

The shell draws with `vga_putchar`, and moves the cursor back with `'\b'`, for which the driver also
writes a blank. A key that moves the cursor back over something else than blanks therefore leaves
the screen without it.

`Editor.Shows` is the condition on a key, and `Editor.Effect` says once what a key may do. By
`shell_display_iff`, in every state of a line the screen shows what the shell holds exactly when it
was blank behind the prompt and every key meets the condition.
-/

namespace Unics

open Unics.Lib

/-- The character before the cursor is a blank for a key that moves it left, and all after the
cursor are for one that inserts or deletes. -/
def Editor.Shows (e : Editor) : ShellKey → Prop
  | .escape next1 next2 =>
    next1 = 91 → next2 = 68 → 0 < e.line.cursor → e.line.text.getD (e.line.cursor - 1) 32 = 32
  | .char c => (c = 8 ∧ 0 < e.line.cursor) ∨ e.Accepts c → ∀ x ∈ e.line.after, x = 32

/-! ## The cells after a key -/

/-- The screen shows a line from place `start` on, with blanks behind it and the cursor in it. -/
def Vga.Displays (vga : Vga) (start : Nat) (l : EditLine UInt8) : Prop :=
  vga.Line start (fun i => l.text.getD i 32) l.cursor

/-- After these bytes the screen shows the line exactly if `P`. -/
def Vga.ShowsIff (vga : Vga) (bytes : List UInt8) (start : Nat) (l : EditLine UInt8) (P : Prop) :
    Prop :=
  Ends (bytes.foldlM vgaPutchar vga) fun vga' => vga'.Within ∧ (vga'.Displays start l ↔ P)

section Cells

variable {vga : Vga} {start : Nat} {l : EditLine UInt8}

theorem Vga.Line.displays_iff {cells : Nat → UInt8} (h : vga.Line start cells l.cursor) {P : Prop}
    (hcells : (∀ i, start + i < 2000 → cells i = l.text.getD i 32) ↔ P) :
    vga.Within ∧ (vga.Displays start l ↔ P) := by
  refine ⟨h.within, ?_⟩
  rw [← hcells]
  exact ⟨fun hd i hi => (h.cells i hi).symm.trans (hd.cells i hi), h.congr⟩

theorem Vga.Displays.nothing (h : vga.Displays start l) : vga.ShowsIff [] start l True :=
  ends_some.mpr (h.displays_iff (iff_true_intro fun _ _ => rfl))

theorem Vga.Displays.position (h : vga.Displays start l) : vga.position = start + l.cursor :=
  Vga.Line.position h

/-- A move to the left leaves a blank. -/
theorem Vga.Displays.moveLeft (h : vga.Displays start l) (hpos : 0 < l.cursor) :
    vga.ShowsIff [8] start l.moveLeft (l.text.getD (l.cursor - 1) 32 = 32) := by
  have place := h.within.toPlaced.position_lt
  rw [h.position] at place
  obtain ⟨k, hk⟩ : ∃ k, l.cursor = k + 1 := Nat.exists_eq_succ_of_ne_zero (Nat.ne_of_gt hpos)
  have moved : l.moveLeft.cursor = k := by
    show l.cursor - 1 = k
    rw [hk, Nat.add_sub_cancel]
  have back : vga.Line start (fun i => l.text.getD i 32) (k + 1) := hk ▸ h
  refine (Vga.Line.backspaces (n := 1) back).mono fun vga' h' => ?_
  rw [← moved] at h'
  refine h'.displays_iff ?_
  rw [moved, hk, Nat.add_sub_cancel]
  show (∀ i, start + i < 2000 → overwrite _ k [32] i = l.text.getD i 32) ↔ _
  rw [overwrite_cons, overwrite_nil]
  constructor
  · intro all
    have at_k := all k (by omega)
    rwa [Function.update_self, eq_comm] at at_k
  · intro blank i _
    by_cases here : i = k
    · rw [here, Function.update_self, blank]
    · rw [Function.update_of_ne here]

theorem EditLine.printable_after (htext : ∀ c ∈ l.text, Printable c) : ∀ c ∈ l.after, Printable c :=
  fun c hc => htext c (List.mem_of_mem_drop hc)

/-- A move to the right writes the character that is there. -/
theorem Vga.Displays.moveRight (h : vga.Displays start l) (htext : ∀ c ∈ l.text, Printable c)
    (hfits : start + l.text.length < 2000) :
    vga.ShowsIff (l.after.take 1) start l.moveRight True := by
  have len := l.length_after
  have le := l.le
  cases hafter : l.after with
  | nil =>
    rw [hafter, List.length_nil] at len
    rw [EditLine.moveRight_of_end (by omega)]
    exact h.nothing
  | cons x rest =>
    rw [hafter, List.length_cons] at len
    have inside : l.cursor < l.text.length := by omega
    have moved : l.moveRight = ⟨l.text, l.cursor + 1, inside⟩ := dif_pos inside
    have printable := EditLine.printable_after htext x (hafter ▸ List.mem_cons_self)
    have there : l.text.getD l.cursor 32 = x := by
      rw [EditLine.getD_of_le (Nat.le_refl _), hafter, Nat.sub_self, List.getD_cons_zero]
    rw [moved, List.take_succ_cons, List.take_zero]
    refine (@Vga.Line.puts _ _ _ _ h [x] ?_ ?_).mono fun vga' h' => ?_
    · intro c hc
      rwa [List.mem_singleton.mp hc]
    · rw [List.length_singleton]
      omega
    · refine Vga.Line.displays_iff h' (iff_true_intro fun i _ => ?_)
      rw [overwrite_cons, overwrite_nil]
      by_cases here : i = l.cursor
      · rw [here, Function.update_self, there]
      · rw [Function.update_of_ne here]

/-- The characters behind a new one are overwritten by blanks. -/
theorem Vga.Displays.insert (h : vga.Displays start l) (htext : ∀ c ∈ l.text, Printable c)
    {a : UInt8} (ha : Printable a) (hfits : start + (l.text.length + 1) < 2000) :
    vga.ShowsIff (a :: l.after ++ List.replicate l.after.length 8) start (l.insert a)
      (∀ x ∈ l.after, x = 32) := by
  have len := l.length_after
  have le := l.le
  have printable : ∀ c ∈ a :: l.after, Printable c := by
    intro c hc
    rcases List.mem_cons.mp hc with rfl | hc
    · exact ha
    · exact EditLine.printable_after htext c hc
  have count : l.cursor + (a :: l.after).length = l.cursor + 1 + l.after.length := by
    rw [List.length_cons]
    omega
  refine (Vga.Line.puts h printable (by rw [List.length_cons]; omega)).append fun t ht => ?_
  rw [count] at ht
  refine ht.backspaces.mono fun vga' h' => Vga.Line.displays_iff h' ?_
  have cells : ∀ i, overwrite (overwrite (fun i => l.text.getD i 32) l.cursor (a :: l.after))
      (l.cursor + 1) (List.replicate l.after.length 32) i =
        if i < l.cursor then l.text.getD i 32 else if i = l.cursor then a else 32 := by
    intro i
    rw [overwrite_blanks, overwrite, List.length_cons]
    rcases Nat.lt_trichotomy i l.cursor with hlt | here | hgt
    · rw [if_neg (by omega), if_neg (by omega), if_pos hlt]
    · rw [if_neg (by omega), if_pos (by omega), if_neg (by omega), if_pos here, here, Nat.sub_self,
        List.getD_cons_zero]
    · rw [if_neg (by omega : ¬ i < l.cursor), if_neg (by omega : ¬ i = l.cursor)]
      by_cases behind : i < l.cursor + 1 + l.after.length
      · rw [if_pos ⟨hgt, behind⟩]
      · rw [if_neg (by omega), if_neg (by omega)]
        exact List.getD_eq_default _ _ (by omega)
  rw [EditLine.forall_after_iff (p := fun x => x = 32) (d := 32) rfl]
  simp only [cells, EditLine.getD_insert]
  constructor
  · intro all j hj
    by_cases hlt : j < l.text.length
    · have next := all (j + 1) (by omega)
      rw [if_neg (by omega), if_neg (by omega), if_neg (by omega), if_neg (by omega),
        Nat.add_sub_cancel] at next
      exact next.symm
    · exact List.getD_eq_default _ _ (Nat.le_of_not_lt hlt)
  · intro blank i _
    split
    · rfl
    split
    · rfl
    · exact (blank (i - 1) (by omega)).symm

/-- So are those behind one that is deleted. -/
theorem Vga.Displays.erase (h : vga.Displays start l) (htext : ∀ c ∈ l.text, Printable c)
    (hfits : start + l.text.length < 2000) (hpos : 0 < l.cursor) :
    vga.ShowsIff (8 :: (l.after ++ 32 :: List.replicate (l.after.length + 1) 8)) start l.erase
      (∀ x ∈ l.after, x = 32) := by
  have len := l.length_after
  have le := l.le
  obtain ⟨k, hk⟩ : ∃ k, l.cursor = k + 1 := Nat.exists_eq_succ_of_ne_zero (Nat.ne_of_gt hpos)
  have erased : l.erase.cursor = k := by
    show l.cursor - 1 = k
    rw [hk, Nat.add_sub_cancel]
  have bytes : 8 :: (l.after ++ 32 :: List.replicate (l.after.length + 1) 8) =
      List.replicate 1 8 ++ ((l.after ++ [32]) ++ List.replicate (l.after.length + 1) 8) := by
    rw [List.append_assoc]
    rfl
  have printable : ∀ c ∈ l.after ++ [32], Printable c := by
    intro c hc
    rcases List.mem_append.mp hc with hc | hc
    · exact EditLine.printable_after htext c hc
    · rw [List.mem_singleton.mp hc]
      exact ⟨by decide, by decide⟩
  have back : vga.Line start (fun i => l.text.getD i 32) (k + 1) := hk ▸ h
  unfold Vga.ShowsIff
  rw [bytes]
  refine (Vga.Line.backspaces back).append fun s hs => ?_
  refine (hs.puts printable (by rw [List.length_append, List.length_singleton]; omega)).append
    fun t ht => ?_
  rw [List.length_append, List.length_singleton] at ht
  refine ht.backspaces.mono fun vga' h' => ?_
  rw [← erased] at h'
  refine h'.displays_iff ?_
  have cells : ∀ i, overwrite (overwrite (overwrite (fun i => l.text.getD i 32) k
      (List.replicate 1 32)) k (l.after ++ [32])) k (List.replicate (l.after.length + 1) 32) i =
        if i < k then l.text.getD i 32 else 32 := by
    intro i
    rw [overwrite_blanks, overwrite, overwrite_blanks, List.length_append, List.length_singleton]
    by_cases hlt : i < k
    · rw [if_neg (by omega), if_neg (by omega), if_neg (by omega), if_pos hlt]
    · rw [if_neg hlt]
      by_cases behind : i < k + (l.after.length + 1)
      · rw [if_pos (by omega)]
      · rw [if_neg (by omega), if_neg (by omega), if_neg (by omega)]
        exact List.getD_eq_default _ _ (by omega)
  rw [erased, EditLine.forall_after_iff (p := fun x => x = 32) (d := 32) rfl]
  simp only [cells, EditLine.getD_erase hpos, hk, Nat.add_sub_cancel]
  constructor
  · intro all j hj
    by_cases hlt : j < l.text.length
    · have there := all (j - 1) (by omega)
      have next : j - 1 + 1 = j := by omega
      rw [if_neg (by omega), if_neg (by omega), next] at there
      exact there.symm
    · exact List.getD_eq_default _ _ (Nat.le_of_not_lt hlt)
  · intro blank i _
    split
    · rfl
    · exact (blank (i + 1) (by omega)).symm

/-- A line that replaces another is drawn on blanks. -/
theorem Vga.Displays.recall (h : vga.Displays start l) (hfits : start + l.text.length < 2000)
    {text : List UInt8} (htext : ∀ c ∈ text, Printable c) (hnew : start + text.length < 2000) :
    vga.ShowsIff
      (List.replicate l.cursor 8 ++
        (List.replicate l.text.length 32 ++ List.replicate l.text.length 8) ++ text)
      start (EditLine.ofText text) True := by
  have blanks : ∀ c ∈ List.replicate l.text.length (32 : UInt8), Printable c := by
    intro c hc
    rw [List.eq_of_mem_replicate hc]
    exact ⟨by decide, by decide⟩
  have first : vga.Line start (fun i => l.text.getD i 32) (0 + l.cursor) := by
    rw [Nat.zero_add]
    exact h
  have erase := (Vga.Line.backspaces first).append fun s hs =>
    (hs.puts blanks (by rw [List.length_replicate]; omega)).append fun t ht => by
      rw [List.length_replicate] at ht
      exact ht.backspaces
  refine erase.append fun s hs => (hs.puts htext (by omega)).mono fun vga' h' => ?_
  rw [Nat.zero_add] at h'
  refine Vga.Line.displays_iff h' (iff_true_intro fun i _ => ?_)
  show overwrite _ 0 text i = text.getD i 32
  rw [overwrite]
  by_cases new : i < text.length
  · rw [if_pos (by omega), Nat.sub_zero]
  · rw [if_neg (by omega), overwrite_blanks, List.getD_eq_default text _ (Nat.le_of_not_lt new)]
    by_cases old : i < l.text.length
    · rw [if_pos (by omega)]
    · have le := l.le
      rw [if_neg (by omega), overwrite_blanks, if_neg (by omega), overwrite_blanks,
        if_neg (by omega)]
      exact List.getD_eq_default _ _ (Nat.le_of_not_lt old)

end Cells

/-! ## A key -/

/-- What a key may do: the editor after it, the bytes for the screen, and its condition. -/
inductive Editor.Effect (history : List (List UInt8)) (e : Editor) :
    Editor × ShellTurn → List UInt8 → Prop → Prop
  | nothing {P : Prop} (hP : P) : Effect history e (e, .reading) [] P
  | ended {e' : Editor} {t : ShellTurn} {bytes : List UInt8} {P : Prop} (ht : t ≠ .reading)
      (hline : e'.line = e.line ∨ e'.line = EditLine.ofText []) (hP : P) :
      Effect history e (e', t) bytes P
  | recalled (r : Option Nat) {P : Prop} (hP : P) :
      Effect history e (Editor.fromEntry history r, .reading)
        (e.eraseOutput ++ (Editor.fromEntry history r).line.text) P
  | right {P : Prop} (hP : P) :
      Effect history e ({ e with line := e.line.moveRight }, .reading) (e.line.after.take 1) P
  | left {P : Prop} (hpos : 0 < e.line.cursor)
      (hP : P ↔ e.line.text.getD (e.line.cursor - 1) 32 = 32) :
      Effect history e ({ e with line := e.line.moveLeft }, .reading) [8] P
  | erased {P : Prop} (hpos : 0 < e.line.cursor) (hP : P ↔ ∀ x ∈ e.line.after, x = 32) :
      Effect history e ({ e with line := e.line.erase }, .reading)
        (8 :: (e.line.after ++ 32 :: List.replicate (e.line.after.length + 1) 8)) P
  | inserted {c : UInt8} {P : Prop} (hc : e.Accepts c) (hP : P ↔ ∀ x ∈ e.line.after, x = 32) :
      Effect history e ({ e with line := e.line.insert c }, .reading)
        (c :: e.line.after ++ List.replicate e.line.after.length 8) P

section Press

variable {e : Editor} {history : List (List UInt8)}

theorem Editor.effect_escape (history : List (List UInt8)) (e : Editor) (next1 next2 : UInt8) :
    Editor.Effect history e (e.press history (.escape next1 next2))
      (e.output history (.escape next1 next2)) (e.Shows (.escape next1 next2)) := by
  have other : next2 ≠ 68 → e.Shows (.escape next1 next2) := fun h _ hleft => absurd hleft h
  unfold Editor.press Editor.output
  dsimp only
  by_cases bracket : next1 = 91
  swap
  · rw [if_neg bracket, if_neg bracket]
    exact .nothing fun h => absurd h bracket
  rw [if_pos bracket, if_pos bracket]
  by_cases up : next2 = 65
  · have other := other (by rw [up]; decide)
    rw [if_pos up, if_pos up]
    split
    · exact .nothing other
    · exact .recalled _ other
  rw [if_neg up, if_neg up]
  by_cases down : next2 = 66
  · have other := other (by rw [down]; decide)
    rw [if_pos down, if_pos down]
    split
    · exact .nothing other
    · exact .recalled _ other
  rw [if_neg down, if_neg down]
  by_cases right : next2 = 67
  · rw [if_pos right, if_pos right]
    exact .right (other (by rw [right]; decide))
  rw [if_neg right, if_neg right]
  by_cases left : next2 = 68
  · rw [if_pos left, if_pos left]
    by_cases hpos : 0 < e.line.cursor
    · rw [if_pos hpos]
      exact .left hpos ⟨fun h => h bracket left hpos, fun h _ _ _ => h⟩
    · rw [if_neg hpos, EditLine.moveLeft_of_start (Nat.eq_zero_of_not_pos hpos)]
      exact .nothing fun _ _ h => absurd h hpos
  · rw [if_neg left, if_neg left]
    exact .nothing (other left)

theorem Editor.effect_char (history : List (List UInt8)) (e : Editor) (c : UInt8) :
    Editor.Effect history e (e.press history (.char c)) (e.output history (.char c))
      (e.Shows (.char c)) := by
  have other : c ≠ 8 → ¬ e.Accepts c → e.Shows (.char c) := fun hback hnot h =>
    (h.elim (fun h => hback h.1) hnot).elim
  have control : ∀ d : UInt8, d < 32 → c = d → ¬ e.Accepts c := by
    rintro d hd rfl h
    exact absurd h.1 (UInt8.not_le.mpr hd)
  unfold Editor.press Editor.output
  dsimp only
  by_cases enter : c = 10
  · rw [if_pos enter, if_pos enter]
    exact .ended nofun (.inl rfl)
      (other (by rw [enter]; decide) (control 10 (by decide) enter))
  rw [if_neg enter, if_neg enter]
  by_cases ctrlD : c = 4
  · have other := other (by rw [ctrlD]; decide) (control 4 (by decide) ctrlD)
    rw [if_pos ctrlD, if_pos ctrlD]
    split
    · exact .ended nofun (.inl rfl) other
    · exact .nothing other
  rw [if_neg ctrlD, if_neg ctrlD]
  by_cases ctrlC : c = 3
  · rw [if_pos ctrlC, if_pos ctrlC]
    exact .ended nofun (.inr rfl)
      (other (by rw [ctrlC]; decide) (control 3 (by decide) ctrlC))
  rw [if_neg ctrlC, if_neg ctrlC]
  by_cases back : c = 8
  · have refused := control 8 (by decide) back
    rw [if_pos back, if_pos back]
    by_cases hpos : 0 < e.line.cursor
    · rw [if_pos hpos]
      exact .erased hpos ⟨fun h => h (.inl ⟨back, hpos⟩), fun h _ => h⟩
    · rw [if_neg hpos, EditLine.erase_of_start (Nat.eq_zero_of_not_pos hpos)]
      exact .nothing fun h => (h.elim (fun h => hpos h.2) refused).elim
  rw [if_neg back, if_neg back]
  by_cases accepted : e.Accepts c
  · rw [if_pos accepted, if_pos accepted]
    exact .inserted accepted ⟨fun h => h (.inr accepted), fun h _ => h⟩
  · rw [if_neg accepted, if_neg accepted]
    exact .nothing (other back accepted)

theorem Editor.effect (history : List (List UInt8)) (e : Editor) (key : ShellKey) :
    Editor.Effect history e (e.press history key) (e.output history key) (e.Shows key) := by
  cases key with
  | escape next1 next2 => exact e.effect_escape history next1 next2
  | char c => exact e.effect_char history c

/-- The line has printable characters only, if the history has. -/
theorem Editor.Effect.printable {r : Editor × ShellTurn} {bytes : List UInt8} {P : Prop}
    (h : Editor.Effect history e r bytes P) (htext : ∀ c ∈ e.line.text, Printable c)
    (hhistory : ∀ text ∈ history, ∀ c ∈ text, Printable c) :
    ∀ c ∈ r.1.line.text, Printable c := by
  cases h with
  | nothing => exact htext
  | ended _ hline =>
    rcases hline with hline | hline
    · rw [hline]
      exact htext
    · rw [hline]
      exact fun c hc => absurd hc List.not_mem_nil
  | recalled r =>
    cases r with
    | none => exact fun c hc => absurd hc List.not_mem_nil
    | some i =>
      intro c hc
      have hc : c ∈ history.getD i [] := hc
      by_cases hlt : i < history.length
      · rw [List.getD_eq_getElem _ _ hlt] at hc
        exact hhistory _ (List.getElem_mem hlt) c hc
      · rw [List.getD_eq_default _ _ (Nat.le_of_not_lt hlt)] at hc
        exact absurd hc List.not_mem_nil
  | right =>
    have same : e.line.moveRight.text = e.line.text := by
      unfold EditLine.moveRight
      split <;> rfl
    rw [same]
    exact htext
  | left => exact htext
  | erased =>
    intro c hc
    rcases List.mem_append.mp hc with hc | hc
    · exact htext c (List.mem_of_mem_take hc)
    · exact EditLine.printable_after htext c hc
  | @inserted a _ ha =>
    intro c hc
    rcases List.mem_append.mp hc with hc | hc
    · exact htext c (List.mem_of_mem_take hc)
    · rcases List.mem_cons.mp hc with rfl | hc
      · exact ⟨ha.1, ha.2.1⟩
      · exact EditLine.printable_after htext c hc

/-- A key that ends the line meets the condition. -/
theorem Editor.Effect.holds_of_ended {r : Editor × ShellTurn} {bytes : List UInt8} {P : Prop}
    (h : Editor.Effect history e r bytes P) (hturn : r.2 ≠ .reading) : P := by
  cases h with
  | ended _ _ hP => exact hP
  | nothing => exact absurd rfl hturn
  | recalled => exact absurd rfl hturn
  | right => exact absurd rfl hturn
  | left => exact absurd rfl hturn
  | erased => exact absurd rfl hturn
  | inserted => exact absurd rfl hturn

/-- After a key that does not end the line, the screen shows the line exactly if the key meets the
condition. -/
theorem Editor.Effect.displays {r : Editor × ShellTurn} {bytes : List UInt8} {P : Prop}
    (h : Editor.Effect history e r bytes P) {vga : Vga} {start : Nat}
    (hshown : vga.Displays start e.line) (htext : ∀ c ∈ e.line.text, Printable c)
    (hnext : ∀ c ∈ r.1.line.text, Printable c) (hfits : start + e.line.text.length < 2000)
    (hnew : start + r.1.line.text.length < 2000) (hturn : r.2 = .reading) :
    vga.ShowsIff bytes start r.1.line P := by
  have always : ∀ {bytes : List UInt8} {l : EditLine UInt8}, P → vga.ShowsIff bytes start l True →
      vga.ShowsIff bytes start l P := by
    intro bytes l hP shows
    rwa [iff_true_intro hP]
  cases h with
  | nothing hP => exact always hP hshown.nothing
  | ended ht => exact absurd hturn ht
  | recalled r hP =>
    refine always hP ?_
    cases r with
    | none => exact hshown.recall hfits hnext hnew
    | some i => exact hshown.recall hfits hnext hnew
  | right hP => exact always hP (hshown.moveRight htext hfits)
  | left hpos hP =>
    rw [hP]
    exact hshown.moveLeft hpos
  | erased hpos hP =>
    rw [hP]
    exact hshown.erase htext hfits hpos
  | inserted hc hP =>
    rw [hP]
    have room : start + (e.line.insert _).text.length < 2000 := hnew
    rw [EditLine.length_insert] at room
    exact hshown.insert htext ⟨hc.1, hc.2.1⟩ room

end Press

/-! ## A line -/

/-- The cells from place `start` on are the characters of the buffer and then blanks, and the cursor
is `cursorPos` cells after `start`. -/
def Shell.Shown (shell : Shell) (start : Nat) : Prop :=
  (∀ i, start + i < 2000 →
    shell.vga.char (start + i) = if i < shell.inputLength then shell.inputBuffer i else 32) ∧
  shell.vga.position = start + shell.cursorPos

/-- While the line is read, the screen shows it. -/
def ScreenShows (start : Nat) (t : Option ShellLine) : Prop :=
  Ends t fun line => line.turn = .reading → line.shell.Shown start

/-- The line fits on the screen after the key, without scrolling. -/
def LineFits (start : Nat) (t : Option ShellLine) (key : ShellKey) : Prop :=
  Ends (shellStep t key) fun line => start + line.shell.inputLength < 2000

/-- The condition on a key, in terms of the buffer. -/
def Shell.Shows (shell : Shell) : ShellKey → Prop
  | .escape next1 next2 =>
    next1 = 91 → next2 = 68 → 0 < shell.cursorPos → shell.inputBuffer (shell.cursorPos - 1) = 32
  | .char c =>
    (c = 8 ∧ 0 < shell.cursorPos) ∨ (Printable c ∧ shell.inputLength < 255) →
      ∀ i, shell.cursorPos ≤ i → i < shell.inputLength → shell.inputBuffer i = 32

def KeyShows (t : Option ShellLine) (key : ShellKey) : Prop :=
  ∀ line, t = some line → line.turn = .reading → line.shell.Shows key

section Buffer

variable {shell : Shell} {e : Editor}

theorem Edits.getD (h : Edits shell e) (i : Nat) :
    e.line.text.getD i 32 = if i < shell.inputLength then shell.inputBuffer i else 32 := by
  rw [← h.bytes]
  split
  · next hlt =>
    rw [List.getD_eq_getElem _ _ (by rw [length_bytesAt]; exact hlt)]
    unfold bytesAt
    rw [List.getElem_map, List.getElem_range', Nat.zero_add, Nat.one_mul]
  · next hge => exact List.getD_eq_default _ _ (by rw [length_bytesAt]; exact Nat.le_of_not_lt hge)

theorem Edits.shown_iff (h : Edits shell e) (hvga : shell.vga.Within) (start : Nat) :
    shell.Shown start ↔ shell.vga.Displays start e.line := by
  constructor
  · rintro ⟨cells, position⟩
    exact ⟨hvga, fun i hi => (cells i hi).trans (h.getD i).symm, position.trans (by rw [h.cursor])⟩
  · intro hd
    exact ⟨fun i hi => (hd.cells i hi).trans (h.getD i), hd.position.trans (by rw [h.cursor])⟩

theorem Edits.shows_iff (h : Edits shell e) (key : ShellKey) : shell.Shows key ↔ e.Shows key := by
  cases key with
  | escape next1 next2 =>
    unfold Shell.Shows Editor.Shows
    rw [← h.cursor, h.getD]
    refine imp_congr_right fun _ => imp_congr_right fun _ => imp_congr_right fun hpos => ?_
    have le := h.le
    rw [if_pos (by omega)]
  | char c =>
    unfold Shell.Shows Editor.Shows
    rw [← h.cursor, EditLine.forall_after_iff (p := fun x => x = 32) (d := 32) rfl, ← h.cursor]
    have accepts : Printable c ∧ shell.inputLength < 255 ↔ e.Accepts c := by
      rw [h.length]
      exact and_assoc
    refine imp_congr (or_congr_right accepts) (forall_congr' fun i => imp_congr_right fun _ => ?_)
    rw [h.getD]
    by_cases hlt : i < shell.inputLength
    · rw [if_pos hlt]
      exact ⟨fun blank => blank hlt, fun blank _ => blank⟩
    · rw [if_neg hlt]
      exact iff_of_true (fun h => absurd h hlt) rfl

end Buffer

/-- What holds of a line that is shown. -/
structure OnScreen (start : Nat) (history : List Buffer) (line : ShellLine) (e : Editor) :
    Prop where
  session : Session history line (e, line.turn)
  text : ∀ c ∈ e.line.text, Printable c
  fits : start + e.line.text.length < 2000

/-- All commands of the history have printable characters. -/
def PrintableHistory (history : List Buffer) : Prop :=
  ∀ command ∈ history, ∀ c ∈ textOf command 255, Printable c

section Step

variable {start : Nat} {history : List Buffer} {line : ShellLine} {e : Editor}

theorem OnScreen.shown_iff (h : OnScreen start history line e) :
    line.shell.Shown start ↔ line.shell.vga.Displays start e.line :=
  h.session.edits.shown_iff h.session.vga start

theorem OnScreen.step (h : OnScreen start history line e) (hhistory : PrintableHistory history)
    (hshown : line.turn = .reading → line.shell.vga.Displays start e.line) {key : ShellKey}
    (hfits : LineFits start (some line) key) :
    Ends (shellStep (some line) key) fun line' => ∃ e', OnScreen start history line' e' ∧
      (line.turn = .reading →
        ((line'.turn = .reading → line'.shell.vga.Displays start e'.line) ↔
          line.shell.Shows key)) ∧
      (line.turn ≠ .reading → line'.turn ≠ .reading) := by
  by_cases reading : line.turn = .reading
  swap
  · have same : shellStep (some line) key = some line := if_neg reading
    rw [same]
    exact ends_some.mpr ⟨e, h, fun hreading => absurd hreading reading, fun _ => reading⟩
  obtain ⟨shell', hturn, hvga, hhist, edits⟩ := shellTurn_eq h.session.edits key
  have effect := Editor.effect line.shell.texts e key
  have printable : ∀ text ∈ line.shell.texts, ∀ c ∈ text, Printable c := by
    intro text htext
    rw [Shell.texts, h.session.history] at htext
    obtain ⟨command, hcommand, rfl⟩ := List.mem_map.mp htext
    exact hhistory command hcommand
  have next := effect.printable h.text printable
  -- the bytes leave some screen
  obtain ⟨vga', hfold, within⟩ : Ends ((e.output line.shell.texts key).foldlM vgaPutchar shell'.vga)
      Vga.Within := Ends.foldlM (fun c _ _ hs => vgaPutchar_ends hs c) (hvga ▸ h.session.vga)
  have step : shellStep (some line) key =
      some ⟨{ shell' with vga := vga' }, (e.press line.shell.texts key).2⟩ := by
    show (if line.turn = .reading then _ else _) = _
    rw [if_pos reading, hturn, Shell.print, hfold]
    rfl
  have fits : start + (e.press line.shell.texts key).1.line.text.length < 2000 := by
    unfold LineFits at hfits
    rw [step, ends_some] at hfits
    rw [← edits.length]
    exact hfits
  have edits' : Edits { shell' with vga := vga' } (e.press line.shell.texts key).1 :=
    ⟨edits.bytes, edits.cursor, edits.short, edits.recalled, edits.entry⟩
  rw [step]
  refine ends_some.mpr ⟨(e.press line.shell.texts key).1,
    ⟨⟨edits', within, hhist.trans h.session.history, rfl⟩, next, fits⟩, fun _ => ?_,
    fun hnot => absurd reading hnot⟩
  rw [h.session.edits.shows_iff]
  by_cases goesOn : (e.press line.shell.texts key).2 = .reading
  · obtain ⟨vga'', hfold', _, hiff⟩ :=
      effect.displays (hshown reading) h.text next h.fits fits goesOn
    rw [← hvga, hfold] at hfold'
    obtain rfl := Option.some.inj hfold'
    rw [← hiff]
    exact ⟨fun shown => shown goesOn, fun shown _ => shown⟩
  · exact iff_of_true (fun hgoes => absurd hgoes goesOn) (effect.holds_of_ended goesOn)

end Step

theorem onScreen_start {shell : Shell} (hvga : shell.vga.Within)
    (hblank : ∀ i, shell.vga.position ≤ i → i < 2000 → shell.vga.char i = 32) :
    Ends (shellStart shell) fun line =>
      OnScreen shell.vga.position shell.history line Editor.start ∧ line.turn = .reading ∧
        line.shell.vga.Displays shell.vga.position Editor.start.line := by
  have place := hvga.toPlaced.position_lt
  unfold shellStart
  rw [Shell.write_eq _ (by decide)]
  refine ends_some.mpr ⟨⟨⟨⟨rfl, rfl, Nat.zero_le 255, rfl, fun i hi => nomatch hi⟩, hvga, rfl, rfl⟩,
    fun c hc => absurd hc List.not_mem_nil, place⟩, rfl, ?_⟩
  exact ⟨hvga, fun i hi => hblank _ (Nat.le_add_right _ _) hi, rfl⟩

/-- On a screen that is blank behind the prompt, the keys decide. -/
theorem display_iff_of_blank {shell : Shell} (hvga : shell.vga.Within)
    (hblank : ∀ i, shell.vga.position ≤ i → i < 2000 → shell.vga.char i = 32)
    (hhistory : PrintableHistory shell.history) {keys : List ShellKey}
    (hfits : EveryStep shellStep (LineFits shell.vga.position) (shellStart shell) keys) :
    EveryState shellStep (ScreenShows shell.vga.position) (shellStart shell) keys ↔
      EveryStep shellStep KeyShows (shellStart shell) keys := by
  refine everyState_iff_within
    (I := fun t => Ends t fun line => ∃ e, OnScreen shell.vga.position shell.history line e ∧
      (line.turn = .reading → line.shell.vga.Displays shell.vga.position e.line)) ?_ ?_ ?_ ?_ hfits
  · rintro _ key ⟨line, rfl, e, h, hshown⟩ hdom hkey
    refine (h.step hhistory hshown hdom).mono fun line' ⟨e', h', hiff, hended⟩ => ⟨e', h', ?_⟩
    intro goesOn
    by_cases reading : line.turn = .reading
    · exact (hiff reading).mpr (hkey line rfl reading) goesOn
    · exact absurd goesOn (hended reading)
  · rintro _ ⟨line, rfl, e, h, hshown⟩
    exact ends_some.mpr fun reading => h.shown_iff.mpr (hshown reading)
  · rintro _ key ⟨line, rfl, e, h, hshown⟩ hdom hkey hstate
    obtain ⟨line', hline', e', h', hiff, _⟩ := h.step hhistory hshown hdom
    rw [hline', ScreenShows, ends_some] at hstate
    refine hkey fun _ heq reading => ?_
    obtain rfl := Option.some.inj heq
    exact (hiff reading).mp fun goesOn => h'.shown_iff.mp (hstate goesOn)
  · exact (onScreen_start hvga hblank).mono fun line ⟨h, _, hshown⟩ => ⟨_, h, fun _ => hshown⟩

/-- An empty line is shown on blanks only. -/
theorem blank_of_shown {shell : Shell}
    (h : ScreenShows shell.vga.position (shellStart shell)) :
    ∀ i, shell.vga.position ≤ i → i < 2000 → shell.vga.char i = 32 := by
  unfold shellStart at h
  rw [Shell.write_eq _ (by decide)] at h
  have shown : Shell.Shown _ _ := (ends_some.mp h) rfl
  intro i hle hlt
  have cell := shown.1 (i - shell.vga.position) (by omega)
  rw [Nat.add_sub_cancel' hle, if_neg (Nat.not_lt_zero _)] at cell
  exact cell

/-- For every stream whose lines fit on the screen: in every state of the run the screen shows the
line exactly when it was blank behind the prompt and every key meets the condition. -/
theorem shell_display_iff (shell : Shell) (hvga : shell.vga.Within)
    (hhistory : PrintableHistory shell.history) (stream : List UInt8)
    (hfits : EveryStep shellStep (LineFits shell.vga.position) (shellStart shell)
      (shellKeys stream)) :
    EveryState shellStep (ScreenShows shell.vga.position) (shellStart shell) (shellKeys stream) ↔
      (∀ i, shell.vga.position ≤ i → i < 2000 → shell.vga.char i = 32) ∧
        EveryStep shellStep KeyShows (shellStart shell) (shellKeys stream) := by
  constructor
  · intro shows
    have blank := blank_of_shown shows.first
    exact ⟨blank, (display_iff_of_blank hvga blank hhistory hfits).mp shows⟩
  · rintro ⟨blank, keys⟩
    exact (display_iff_of_blank hvga blank hhistory hfits).mpr keys

/-- `"root@unics:/ # "` -/
def rootPrompt : List UInt8 := [114, 111, 111, 116, 64, 117, 110, 105, 99, 115, 58, 47, 32, 35, 32]

/-- The screen with a prompt in its first line, and the cursor behind it. -/
def promptScreen : Vga where
  row := 0
  column := 15
  color := 15
  buffer := true
  memory := fun i =>
    match rootPrompt[i]? with
    | some c => (if i < 4 then 0xC00 else 0xF00) ||| c.toUInt16
    | none => 0x720
  cursor := 15

theorem promptScreen_within : promptScreen.Within := ⟨⟨rfl, by decide, by decide⟩, rfl⟩

theorem promptScreen_blank {i : Nat} (hi : 15 ≤ i) : promptScreen.char i = 32 := by
  have behind : rootPrompt[i]? = none := List.getElem?_eq_none hi
  show (match rootPrompt[i]? with
    | some c => (if i < 4 then 0xC00 else 0xF00) ||| c.toUInt16
    | none => 0x720).toUInt8 = 32
  rw [behind]
  exact (by decide : (0x720 : UInt16).toUInt8 = 32)

/-- A shell at its prompt, with the command `ll` in its history. -/
def promptShell : Shell :=
  ⟨fun _ => 0, 0, 0, [fun i => if i < 2 then 108 else 0], none, true, promptScreen⟩

theorem promptShell_history : PrintableHistory promptShell.history := by
  intro command hcommand
  obtain rfl := List.mem_singleton.mp hcommand
  have letters : ∀ c ∈ textOf (fun i => if i < 2 then 108 else 0) 255, 32 ≤ c ∧ c ≤ 126 := by
    decide +kernel
  exact letters

theorem lineFits_of_length {start n : Nat} {t : Option ShellLine} {key : ShellKey}
    (h : (shellStep t key).map (fun line => line.shell.inputLength) = some n)
    (hn : start + n < 2000) : LineFits start t key := by
  obtain ⟨line, hline, rfl⟩ := Option.map_eq_some_iff.mp h
  exact ⟨line, hline, hn⟩

/-- Two letters, a move to the left, a letter between them, a backspace, and the last command. -/
theorem shell_display_iff_inserted :
    EveryState shellStep (ScreenShows 15) (shellStart promptShell)
        (shellKeys [97, 98, 27, 91, 68, 99, 8, 27, 91, 65]) ↔
      (∀ i, 15 ≤ i → i < 2000 → promptScreen.char i = 32) ∧
        EveryStep shellStep KeyShows (shellStart promptShell)
          (shellKeys [97, 98, 27, 91, 68, 99, 8, 27, 91, 65]) :=
  shell_display_iff promptShell promptScreen_within promptShell_history _
    ⟨lineFits_of_length (n := 1) (by decide +kernel) (by decide),
      lineFits_of_length (n := 2) (by decide +kernel) (by decide),
      lineFits_of_length (n := 2) (by decide +kernel) (by decide),
      lineFits_of_length (n := 3) (by decide +kernel) (by decide),
      lineFits_of_length (n := 2) (by decide +kernel) (by decide),
      lineFits_of_length (n := 2) (by decide +kernel) (by decide), trivial⟩

/-- A letter and a move to the left behind the prompt: the letter is still in the line, and gone
from the screen. -/
theorem shell_display_fails :
    ¬ ∀ (shell : Shell) (stream : List UInt8), shell.vga.Within →
      (∀ i, shell.vga.position ≤ i → i < 2000 → shell.vga.char i = 32) →
      PrintableHistory shell.history →
      EveryStep shellStep (LineFits shell.vga.position) (shellStart shell) (shellKeys stream) →
      EveryState shellStep (ScreenShows shell.vga.position) (shellStart shell)
        (shellKeys stream) := by
  intro hall
  have fits : EveryStep shellStep (LineFits 15) (shellStart promptShell)
      (shellKeys [97, 27, 91, 68]) :=
    ⟨lineFits_of_length (n := 1) (by decide +kernel) (by decide),
      lineFits_of_length (n := 1) (by decide +kernel) (by decide), trivial⟩
  have shows := hall promptShell [97, 27, 91, 68] promptScreen_within
    (fun i hi _ => promptScreen_blank hi) promptShell_history fits
  obtain ⟨line, hline, shown⟩ := shows.2.2
  have after : (shellStep (shellStep (shellStart promptShell) (.char 97)) (.escape 91 68)).map
      (fun line => (line.turn, line.shell.vga.char 15, line.shell.inputLength,
        line.shell.inputBuffer 0)) = some (.reading, 32, 1, 97) := by
    decide +kernel
  have held : (line.turn, line.shell.vga.char 15, line.shell.inputLength,
      line.shell.inputBuffer 0) = (.reading, 32, 1, 97) := by
    rw [hline] at after
    exact Option.some.inj after
  obtain ⟨reading, held⟩ := Prod.mk.inj held
  obtain ⟨cell, held⟩ := Prod.mk.inj held
  obtain ⟨length, letter⟩ := Prod.mk.inj held
  have first : line.shell.vga.char 15 = if 0 < line.shell.inputLength then
      line.shell.inputBuffer 0 else 32 := (shown reading).1 0 (by decide)
  rw [length, letter] at first
  exact absurd (cell.symm.trans first) (by decide)

end Unics
