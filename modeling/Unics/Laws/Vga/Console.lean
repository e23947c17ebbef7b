import Unics.Laws.Vga.Lines
import Unics.Laws.Vga.Text
import Unics.Lib.Layout

/-!
# The console, scrolling

What `vga_puts` draws is a text laid out in rows (`Unics.Lib.Layout`) of 80 columns, with tab stops
every four, and the screen is the window of its last 25 rows. `Vga.Draws` says so of the driver's
cursor and the video memory, and each character keeps it, whether the screen scrolls or not.
-/

namespace Unics

open Unics.Lib

/-- A character of a text laid out for the screen. -/
def layChar (l : Layout UInt8) (c : UInt8) : Layout UInt8 :=
  if c = 10 then l.newline else if c = 9 then l.tab 80 4 32 else l.put 80 c

def layText (text : List UInt8) : Layout UInt8 := text.foldl layChar Layout.empty

/-- The window of a layout is on the screen, in one colour, and the driver's cursor is at the end of
the text. -/
structure Vga.Draws (vga : Vga) (color : UInt8) (l : Layout UInt8) : Prop where
  buffer : vga.buffer = true
  colored : vga.color = color
  row : vga.row = l.endRow 25
  column : vga.column = l.current.length
  cells : ∀ i < 25, ∀ j < 80,
    vga.memory (i * 80 + j) = vgaEntry (l.window 32 25 i j) color

/-- The hardware's cursor is there too. -/
structure Vga.Shows (vga : Vga) (color : UInt8) (l : Layout UInt8) : Prop
    extends Vga.Draws vga color l where
  cursor : vga.cursor = UInt16.ofNat (l.endRow 25 * 80 + l.current.length)

/-! ## Steps -/

section Steps

variable {vga : Vga} {color : UInt8} {l : Layout UInt8}

/-- One line up. -/
theorem vgaScrollInternal_one (hbuf : vga.buffer = true) (hrow : 1 ≤ vga.row) :
    vgaScrollInternal vga 1 =
      some { vga with row := vga.row - 1, memory := vga.shifted 1 } := by
  have one := vgaScrollInternal_eq (n := 1) hbuf (by decide) (by decide)
  rw [if_pos hrow, if_pos hrow] at one
  exact one

theorem Vga.Draws.row_lt (h : vga.Draws color l) : vga.row < 25 := by
  rw [h.row, Layout.endRow_eq (by decide)]
  omega

/-- A row ends. -/
theorem Vga.Draws.nextRow (h : vga.Draws color l) :
    Ends (Vga.nextRow { vga with column := 0 }) (Vga.Draws · color l.newline) := by
  have row := h.row
  have hrow := @Layout.endRow_eq _ 25 l (by decide)
  unfold Vga.nextRow
  dsimp only
  by_cases room : l.rows.length + 1 < 25
  · rw [if_neg (by omega)]
    refine ends_some.mpr ⟨h.buffer, h.colored, ?_, rfl, fun i hi j hj => ?_⟩
    · rw [Layout.endRow_newline_of_room room, ← row]
    · rw [Layout.window_newline_of_room room]
      exact h.cells i hi j hj
  · have full : 25 ≤ l.rows.length + 1 := Nat.le_of_not_lt room
    rw [if_pos (by omega), vgaScrollInternal_one ?_ ?_]
    · refine ends_some.mpr ⟨h.buffer, h.colored, ?_, rfl, fun i hi j hj => ?_⟩
      · rw [Layout.endRow_newline_of_full full, ← row]
        rfl
      · rw [Layout.window_newline_of_full full]
        dsimp only [Vga.shifted]
        rw [if_pos (by omega)]
        by_cases last : i < 24
        · rw [if_pos (by omega), show i * 80 + j + 1 * 80 = (i + 1) * 80 + j by omega]
          exact h.cells (i + 1) (by omega) j hj
        · obtain rfl : i = 24 := by omega
          rw [if_neg (by omega), Layout.window_below]
          exact congrArg (vgaEntry 32) h.colored
    · exact h.buffer
    · exact Nat.succ_le_succ (Nat.zero_le _)

/-- The end of a row that may be full. -/
theorem Vga.Draws.wrap (h : vga.Draws color l) :
    Ends (if 80 ≤ vga.column then Vga.nextRow { vga with column := 0 } else some vga)
      (Vga.Draws · color (l.wrap 80)) := by
  unfold Layout.wrap
  rw [← h.column]
  split
  · exact h.nextRow
  · exact ends_some.mpr h

/-- A character in the current row. -/
theorem Vga.Draws.write (h : vga.Draws color l) (hroom : l.current.length < 80) (c : UInt8) :
    Ends (vga.storeHere (vgaEntry c color))
      (fun s => Vga.Draws { s with column := s.column + 1 } color (l.write [c])) := by
  have row := h.row_lt
  have column := h.column
  have placed : vga.Placed := ⟨h.buffer, row, column ▸ hroom⟩
  rw [Vga.storeHere_eq placed]
  refine ends_some.mpr ⟨h.buffer, h.colored, h.row, ?_, fun i hi j hj => ?_⟩
  · show vga.column + 1 = (l.current ++ [c]).length
    rw [column, List.length_append, List.length_singleton]
  · rw [Layout.window_write (by decide), ← h.row, ← column]
    dsimp only
    unfold Vga.position
    by_cases here : i = vga.row ∧ j = vga.column
    · rw [if_pos here, here.1, here.2, Function.update_self]
    · rw [if_neg here, Function.update_of_ne (by omega)]
      exact h.cells i hi j hj

/-- The loop of a tab. -/
theorem Vga.Draws.blanks (h : vga.Draws color l) {n : Nat} (hroom : l.current.length + n ≤ 80) :
    Ends ((List.range' vga.column n).foldlM
        (fun vga _ => do
          let vga ← vga.storeHere vga.blank
          some { vga with column := vga.column + 1 }) vga)
      (Vga.Draws · color (l.write (List.replicate n 32))) := by
  have loop := Ends.range' (a := vga.column) (n := n)
    (f := fun (vga : Vga) _ => do
      let vga ← vga.storeHere vga.blank
      some { vga with column := vga.column + 1 })
    (I := fun i s => s.Draws color (l.write (List.replicate (i - vga.column) 32))) (s := vga) ?_ ?_
  · rwa [Nat.add_sub_cancel_left] at loop
  · intro i hle hlt s hs
    have column := h.column
    have blank : s.blank = vgaEntry 32 color := congrArg (vgaEntry 32) hs.colored
    have room : (l.write (List.replicate (i - vga.column) 32)).current.length < 80 := by
      show (l.current ++ _).length < 80
      rw [List.length_append, List.length_replicate]
      omega
    rw [blank, show i + 1 - vga.column = (i - vga.column) + 1 by omega, List.replicate_succ',
      ← Layout.write_write]
    exact (hs.write room 32).bind fun _ ht => ends_some.mpr ht
  · rw [Nat.sub_self]
    have same : l.write (List.replicate 0 32) = l :=
      Layout.ext rfl (List.append_nil l.current)
    rw [same]
    exact h

/-- Each character keeps the screen the window of the layout. -/
theorem Vga.Draws.put (h : vga.Draws color l) (hroom : l.current.length < 80) {c : UInt8}
    (hc : Printable c ∨ c = 10 ∨ c = 9) : Ends (vga.put c) (Vga.Draws · color (layChar l c)) := by
  unfold Vga.put layChar
  rcases hc with hc | rfl | rfl
  · have other : ∀ d : UInt8, d < 32 → c ≠ d := by
      rintro d hd rfl
      exact absurd hc.1 (UInt8.not_le.mpr hd)
    rw [if_neg (other 10 (by decide)), if_neg (other 13 (by decide)),
      if_neg (other 8 (by decide)), if_neg (other 9 (by decide)), if_pos ⟨hc.1, hc.2⟩,
      if_neg (other 10 (by decide)), if_neg (other 9 (by decide)), h.colored]
    exact (h.write hroom c).bind fun _ hs => hs.wrap
  · rw [if_pos rfl, if_pos rfl]
    exact h.nextRow
  · rw [if_neg (by decide), if_neg (by decide), if_neg (by decide), if_pos rfl,
      if_neg (by decide), if_pos rfl]
    have stop : (vga.column + 4) / 4 * 4 = (l.current.length / 4 + 1) * 4 := by
      rw [h.column]
      omega
    have blanks := h.blanks (n := min ((l.current.length / 4 + 1) * 4) 80 - l.current.length)
      (by omega)
    rw [h.column] at blanks
    dsimp only
    rw [stop, h.column]
    exact blanks.bind fun _ hs => hs.wrap

theorem layChar_lt (l : Layout UInt8) (c : UInt8) : (layChar l c).current.length < 80 := by
  unfold layChar
  split
  · exact (by decide : 0 < 80)
  split
  · exact Layout.wrap_lt (by decide) _
  · exact Layout.wrap_lt (by decide) _

theorem Vga.Draws.putchar (h : vga.Draws color l) (hroom : l.current.length < 80) {c : UInt8}
    (hc : Printable c ∨ c = 10 ∨ c = 9) :
    Ends (vgaPutchar vga c) (Vga.Shows · color (layChar l c)) := by
  rw [vgaPutchar, if_neg (not_not_intro h.buffer)]
  refine (h.put hroom hc).bind fun s hs => ends_some.mpr ?_
  have row := hs.row_lt
  have column := hs.column
  have room := layChar_lt l c
  have bounds : vgaBoundsCheck s.column s.row := vgaBoundsCheck_iff.mpr (by omega)
  rw [vgaUpdateCursor_of_bounds hs.buffer bounds]
  refine ⟨⟨hs.buffer, hs.colored, hs.row, hs.column, hs.cells⟩, ?_⟩
  have place : ((s.row : Int) * 80 + s.column).toNat = s.row * 80 + s.column := by omega
  dsimp only
  rw [place, hs.row, column]

/-- A cleared screen shows the layout of nothing. -/
theorem vgaClear_shows (hbuf : vga.buffer = true) :
    Ends (vgaClear vga) (Vga.Shows · vga.color Layout.empty) := by
  rw [vgaClear_eq hbuf]
  refine ends_some.mpr ⟨⟨hbuf, rfl, rfl, rfl, fun i hi j hj => ?_⟩, rfl⟩
  dsimp only
  rw [if_pos (by omega), Layout.window_empty]
  rfl

/-- The text so far is on the screen, and so is the rest after it. -/
theorem Vga.Shows.puts (h : vga.Shows color l) (hroom : l.current.length < 80) {text : List UInt8}
    (htext : ∀ c ∈ text, Printable c ∨ c = 10 ∨ c = 9) :
    Ends (text.foldlM vgaPutchar vga) (Vga.Shows · color (text.foldl layChar l)) := by
  induction text generalizing vga l with
  | nil => exact ends_some.mpr h
  | cons c text ih =>
    rw [List.foldlM_cons, List.foldl_cons]
    exact (h.putchar hroom (htext c List.mem_cons_self)).bind fun s hs =>
      ih hs (layChar_lt l c) fun d hd => htext d (List.mem_cons_of_mem c hd)

end Steps

/-- After `vga_clear`, a text of printable characters, line ends and tabs is on the screen as its
layout has it: the last 25 rows, or all, and both cursors at its end. -/
theorem vgaPuts_shows {vga : Vga} (hbuf : vga.buffer = true) {str : CString}
    (htext : ∀ c ∈ str.bytes, Printable c ∨ c = 10 ∨ c = 9) :
    Ends (do
        let vga ← vgaClear vga
        vgaPuts vga (some str))
      (Vga.Shows · vga.color (layText str.bytes)) :=
  (vgaClear_shows hbuf).bind fun _ hs => hs.puts (by decide) htext

/-- A letter, and another one behind a tab in the next line. -/
theorem vgaPuts_shows_two :
    Ends (do
        let vga ← vgaClear ⟨3, 7, vgaColorDefault, true, fun _ => 0, 0⟩
        vgaPuts vga (some ⟨[65, 10, 9, 66], by decide⟩))
      (Vga.Shows · vgaColorDefault (layText [65, 10, 9, 66])) :=
  vgaPuts_shows rfl (by simp [Printable])

end Unics
