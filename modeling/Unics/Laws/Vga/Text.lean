import Mathlib.Data.List.GetD
import Unics.Laws.Vga.Invariant

/-!
# Text where nothing scrolls

The cells of the screen are one line of 2000 places (`Vga.position`). As long as the cursor stays
before the last of them, a printable character is written at the cursor and moves it on, and a
backspace moves it back and writes a blank there. `Vga.Line` looks at the cells from one place on.
-/

namespace Unics

open Unics.Lib

/-- The place of the cursor. -/
def Vga.position (vga : Vga) : Nat := vga.row * 80 + vga.column

/-- The character in a cell. -/
def Vga.char (vga : Vga) (i : Nat) : UInt8 := (vga.memory i).toUInt8

theorem vgaEntry_char (c color : UInt8) : (vgaEntry c color).toUInt8 = c := by
  refine UInt8.eq_of_toBitVec_eq ?_
  simp [vgaEntry]

/-- A character that `vga_putchar` writes. -/
def Printable (c : UInt8) : Prop := 32 ≤ c ∧ c ≤ 126

/-! ## One character -/

section Character

variable {vga : Vga}

theorem Vga.Placed.position_lt (h : vga.Placed) : vga.position < 2000 := by
  have row := h.row
  have column := h.column
  unfold Vga.position
  omega

/-- The store at the cursor. -/
theorem Vga.storeHere_eq (h : vga.Placed) (entry : UInt16) :
    vga.storeHere entry =
      some { vga with memory := Function.update vga.memory vga.position entry } := by
  have place := h.position_lt
  have index : ((vga.row : Int) * 80 + vga.column).toNat = vga.position := by
    unfold Vga.position
    omega
  unfold Vga.position at place
  rw [Vga.storeHere, Vga.store, if_pos (by omega), index]

/-- What a character leaves, apart from the cursor of the hardware. -/
def Vga.Wrote (vga : Vga) (place : Nat) (c : UInt8) (next : Nat) (vga' : Vga) : Prop :=
  vga'.Placed ∧ vga'.char = Function.update vga.char place c ∧ vga'.position = next

theorem Vga.char_update (vga : Vga) (place : Nat) (c : UInt8) :
    (fun i => (Function.update vga.memory place (vgaEntry c vga.color) i).toUInt8) =
      Function.update vga.char place c := by
  funext i
  by_cases here : i = place
  · rw [here, Function.update_self, Function.update_self, vgaEntry_char]
  · rw [Function.update_of_ne here, Function.update_of_ne here]
    rfl

theorem Vga.put_print (h : vga.Placed) {c : UInt8} (hc : Printable c)
    (hroom : vga.position + 1 < 2000) :
    Ends (vga.put c) (vga.Wrote vga.position c (vga.position + 1)) := by
  have row := h.row
  have column := h.column
  have other : ∀ d : UInt8, d < 32 → c ≠ d := by
    rintro d hd rfl
    exact absurd hc.1 (UInt8.not_le.mpr hd)
  unfold Vga.put
  rw [if_neg (other 10 (by decide)), if_neg (other 13 (by decide)), if_neg (other 8 (by decide)),
    if_neg (other 9 (by decide)), if_pos ⟨hc.1, hc.2⟩, Vga.storeHere_eq h]
  have chars := vga.char_update vga.position c
  unfold Vga.position at hroom ⊢
  show Ends (if 80 ≤ vga.column + 1 then Vga.nextRow _ else some _) _
  split
  · next hfull =>
    have last : ¬ 25 ≤ vga.row + 1 := by omega
    unfold Vga.nextRow
    dsimp only
    rw [if_neg last]
    refine ends_some.mpr ⟨⟨h.buffer, Nat.lt_of_not_le last, (by decide : 0 < 80)⟩, chars, ?_⟩
    show (vga.row + 1) * 80 + 0 = _
    omega
  · next hroom' =>
    refine ends_some.mpr ⟨⟨h.buffer, h.row, Nat.lt_of_not_le hroom'⟩, chars, ?_⟩
    show vga.row * 80 + (vga.column + 1) = _
    omega

theorem Vga.put_back (h : vga.Placed) (hpos : 0 < vga.position) :
    Ends (vga.put 8) (vga.Wrote (vga.position - 1) 32 (vga.position - 1)) := by
  have row := h.row
  have column := h.column
  unfold Vga.put
  rw [if_neg (by decide), if_neg (by decide), if_pos rfl]
  dsimp only
  have write : ∀ back : Vga, back.Placed → back.memory = vga.memory → back.color = vga.color →
      back.position = vga.position - 1 →
      Ends (back.storeHere back.blank) (vga.Wrote (vga.position - 1) 32 (vga.position - 1)) := by
    intro back placed hmemory hcolor hposition
    rw [Vga.storeHere_eq placed]
    refine ends_some.mpr ⟨⟨placed.buffer, placed.row, placed.column⟩, ?_, hposition⟩
    rw [hmemory, hposition, Vga.blank, hcolor]
    exact vga.char_update _ 32
  unfold Vga.position at hpos
  split
  · next hcol =>
    refine write _ ⟨h.buffer, h.row, by show vga.column - 1 < 80; omega⟩ rfl rfl ?_
    show vga.row * 80 + (vga.column - 1) = vga.row * 80 + vga.column - 1
    omega
  · next hcol =>
    have hrow : 0 < vga.row := by omega
    rw [if_pos hrow]
    refine write _ ⟨h.buffer, by show vga.row - 1 < 25; omega, (by decide : 79 < 80)⟩ rfl rfl ?_
    show (vga.row - 1) * 80 + 79 = vga.row * 80 + vga.column - 1
    omega

/-- The call keeps what the character wrote. -/
theorem vgaPutchar_wrote (h : vga.Placed) {c : UInt8} {place next : Nat} {d : UInt8}
    (hput : Ends (vga.put c) (vga.Wrote place d next)) :
    Ends (vgaPutchar vga c) fun vga' =>
      vga'.Within ∧ vga'.char = Function.update vga.char place d ∧ vga'.position = next := by
  rw [vgaPutchar, if_neg (not_not_intro h.buffer)]
  refine hput.bind fun s wrote => ?_
  obtain ⟨placed, hchar, hnext⟩ := wrote
  refine ends_some.mpr ⟨placed.update, ?_⟩
  have row := placed.row
  have column := placed.column
  have bounds : vgaBoundsCheck s.column s.row := vgaBoundsCheck_iff.mpr (by omega)
  rw [vgaUpdateCursor_of_bounds placed.buffer bounds]
  exact ⟨hchar, hnext⟩

end Character

/-! ## A line -/

/-- The cells from place `start` on, and the cursor counted from there. -/
structure Vga.Line (vga : Vga) (start : Nat) (cells : Nat → UInt8) (cursor : Nat) : Prop where
  within : vga.Within
  cells : ∀ i, start + i < 2000 → vga.char (start + i) = cells i
  position : vga.position = start + cursor

section Line

variable {vga : Vga} {start cursor : Nat} {cells : Nat → UInt8}

theorem Vga.Line.congr (h : vga.Line start cells cursor) {cells' : Nat → UInt8}
    (hcells : ∀ i, start + i < 2000 → cells i = cells' i) : vga.Line start cells' cursor :=
  ⟨h.within, fun i hi => (h.cells i hi).trans (hcells i hi), h.position⟩

/-- A character in one of the cells. -/
theorem Vga.Line.wrote (h : vga.Line start cells cursor) {place next : Nat} {c : UInt8} {vga' : Vga}
    (within : vga'.Within) (hchar : vga'.char = Function.update vga.char (start + place) c)
    (hnext : vga'.position = start + next) :
    vga'.Line start (Function.update cells place c) next := by
  refine ⟨within, fun i hi => ?_, hnext⟩
  rw [hchar]
  by_cases here : i = place
  · rw [here, Function.update_self, Function.update_self]
  · rw [Function.update_of_ne here, Function.update_of_ne (by omega), h.cells i hi]

theorem Vga.Line.putchar (h : vga.Line start cells cursor) {c : UInt8} (hc : Printable c)
    (hroom : start + cursor + 1 < 2000) :
    Ends (vgaPutchar vga c) (Vga.Line · start (Function.update cells cursor c) (cursor + 1)) := by
  have put := Vga.put_print h.within.toPlaced hc (h.position ▸ hroom)
  rw [h.position] at put
  exact (vgaPutchar_wrote h.within.toPlaced put).mono fun _ ⟨within, hchar, hnext⟩ =>
    h.wrote within hchar hnext

theorem Vga.Line.backspace (h : vga.Line start cells (cursor + 1)) :
    Ends (vgaPutchar vga 8) (Vga.Line · start (Function.update cells cursor 32) cursor) := by
  have hposition : vga.position = start + cursor + 1 := h.position
  have put := Vga.put_back h.within.toPlaced (by rw [hposition]; exact Nat.succ_pos _)
  rw [hposition, Nat.add_sub_cancel] at put
  exact (vgaPutchar_wrote h.within.toPlaced put).mono fun _ ⟨within, hchar, hnext⟩ =>
    h.wrote within hchar hnext

/-- The cells with a text written over them. -/
def overwrite (cells : Nat → UInt8) (cursor : Nat) (text : List UInt8) : Nat → UInt8 := fun i =>
  if cursor ≤ i ∧ i < cursor + text.length then text.getD (i - cursor) 32 else cells i

theorem overwrite_nil (cells : Nat → UInt8) (cursor : Nat) : overwrite cells cursor [] = cells := by
  funext i
  exact if_neg (by rw [List.length_nil]; omega)

theorem overwrite_blanks (cells : Nat → UInt8) (cursor n i : Nat) :
    overwrite cells cursor (List.replicate n 32) i =
      if cursor ≤ i ∧ i < cursor + n then 32 else cells i := by
  unfold overwrite
  rw [List.length_replicate]
  split
  · exact List.getD_replicate _ (by omega)
  · rfl

theorem overwrite_cons (cells : Nat → UInt8) (cursor : Nat) (c : UInt8) (text : List UInt8) :
    overwrite cells cursor (c :: text) =
      overwrite (Function.update cells cursor c) (cursor + 1) text := by
  funext i
  unfold overwrite
  rw [List.length_cons]
  by_cases first : i = cursor
  · rw [first, if_pos (by omega), if_neg (by omega), Nat.sub_self, Function.update_self]
    rfl
  · rw [Function.update_of_ne first]
    by_cases rest : cursor + 1 ≤ i ∧ i < cursor + 1 + text.length
    · have next : i - cursor = (i - (cursor + 1)) + 1 := by omega
      rw [if_pos (by omega), if_pos rest, next, List.getD_cons_succ]
    · rw [if_neg (by omega), if_neg rest]

theorem overwrite_concat (cells : Nat → UInt8) (cursor : Nat) (text : List UInt8) (c : UInt8) :
    overwrite cells cursor (text ++ [c]) =
      overwrite (Function.update cells (cursor + text.length) c) cursor text := by
  funext i
  unfold overwrite
  rw [List.length_append, List.length_singleton]
  by_cases last : i = cursor + text.length
  · rw [last, if_pos (by omega), if_neg (by omega), Nat.add_sub_cancel_left, Function.update_self,
      List.getD_append_right _ _ _ _ (Nat.le_refl _), Nat.sub_self]
    rfl
  · rw [Function.update_of_ne last]
    by_cases within : cursor ≤ i ∧ i < cursor + text.length
    · rw [if_pos (by omega), if_pos within, List.getD_append _ _ _ _ (by omega)]
    · rw [if_neg (by omega), if_neg within]

theorem Vga.Line.puts (h : vga.Line start cells cursor) {text : List UInt8}
    (htext : ∀ c ∈ text, Printable c) (hroom : start + cursor + text.length < 2000) :
    Ends (text.foldlM vgaPutchar vga)
      (Vga.Line · start (overwrite cells cursor text) (cursor + text.length)) := by
  induction text generalizing vga cells cursor with
  | nil =>
    rw [overwrite_nil]
    exact ends_some.mpr h
  | cons c text ih =>
    rw [List.length_cons] at hroom
    rw [List.foldlM_cons]
    refine (h.putchar (htext c List.mem_cons_self) (by omega)).bind fun s hs => ?_
    have rest := ih hs (fun d hd => htext d (List.mem_cons_of_mem c hd)) (by omega)
    rw [overwrite_cons, List.length_cons, Nat.add_comm text.length, ← Nat.add_assoc]
    exact rest

/-- The cells from place `cursor` on, with `n` blanks written over them. -/
theorem Vga.Line.backspaces {n : Nat} (h : vga.Line start cells (cursor + n)) :
    Ends ((List.replicate n 8).foldlM vgaPutchar vga)
      (Vga.Line · start (overwrite cells cursor (List.replicate n 32)) cursor) := by
  induction n generalizing vga cells with
  | zero =>
    refine ends_some.mpr ?_
    show vga.Line start (overwrite cells cursor []) cursor
    rw [overwrite_nil]
    exact h
  | succ n ih =>
    have last := overwrite_concat cells cursor (List.replicate n 32) 32
    rw [List.length_replicate, ← List.replicate_succ'] at last
    rw [List.replicate_succ, List.foldlM_cons, last]
    exact (Vga.Line.backspace h).bind fun s hs => ih hs

end Line

end Unics
