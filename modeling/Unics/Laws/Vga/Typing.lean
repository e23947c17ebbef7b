import Unics.Laws.Vga.Console

/-!
# Text that is taken back

A program takes a character back with a backspace, a blank and a backspace. The screen then shows
the layout without that character, across the end of a row too, but it does not scroll down again
(`Vga.Shows.erase`). So it shows a layout of which the first rows are gone, and what is written
after that goes on from there (`Vga.ShowsFrom.puts`).
-/

namespace Unics

open Unics.Lib

/-!
## The cursor as a place

A backspace goes to the place before, a blank to the next one.
-/

/-- The cursor at a place of the screen. -/
def Vga.goto (vga : Vga) (place : Nat) : Vga :=
  { vga with row := place / 80, column := place % 80 }

/-- The cell at a place is a blank. -/
def Vga.wiped (vga : Vga) (place : Nat) : Vga :=
  { vga with memory := Function.update vga.memory place vga.blank }

section Place

variable {vga : Vga} {place : Nat}

theorem Vga.goto_position (vga : Vga) (place : Nat) : (vga.goto place).position = place :=
  Nat.div_add_mod' place 80

theorem Vga.goto_placed (hbuf : vga.buffer = true) (h : place < 2000) : (vga.goto place).Placed :=
  ⟨hbuf, by show place / 80 < 25; omega, Nat.mod_lt _ (by decide)⟩

theorem Vga.goto_eq (vga : Vga) (row : Nat) {column : Nat} (hcolumn : column < 80)
    (hplace : row * 80 + column = place) :
    { vga with row := row, column := column } = vga.goto place := by
  have hrow : place / 80 = row := by omega
  have hmod : place % 80 = column := by omega
  rw [Vga.goto, hrow, hmod]

/-- A call that leaves the cursor at a place leaves the hardware's there. -/
theorem vgaPutchar_goto {c : UInt8} (hbuf : vga.buffer = true) (next : Vga)
    (hnext : next.buffer = true) (h : place < 2000) (hput : vga.put c = some (next.goto place)) :
    vgaPutchar vga c = some { next.goto place with cursor := UInt16.ofNat place } := by
  have placed := Vga.goto_placed hnext h
  have row := placed.row
  have column := placed.column
  have bounds : vgaBoundsCheck (next.goto place).column (next.goto place).row :=
    vgaBoundsCheck_iff.mpr (by omega)
  have index : (((next.goto place).row : Int) * 80 + (next.goto place).column).toNat = place := by
    have position := next.goto_position place
    unfold Vga.position at position
    omega
  rw [vgaPutchar, if_neg (not_not_intro hbuf), hput]
  show some (vgaUpdateCursor (next.goto place) (next.goto place).column (next.goto place).row) = _
  rw [vgaUpdateCursor_of_bounds placed.buffer bounds, index]
  rfl

/-- A backspace. -/
theorem Vga.put_back_eq (h : vga.Placed) (hplace : vga.position = place + 1) :
    vga.put 8 = some ((vga.wiped place).goto place) := by
  have inside := h.position_lt
  have column := h.column
  unfold Vga.position at hplace inside
  have moved : (if 0 < vga.column then { vga with column := vga.column - 1 }
      else if 0 < vga.row then { vga with row := vga.row - 1, column := 79 } else vga) =
      vga.goto place := by
    split_ifs
    · exact vga.goto_eq vga.row (by omega) (by omega)
    · exact vga.goto_eq (vga.row - 1) (by omega) (by omega)
    · omega
  unfold Vga.put
  rw [if_neg (by decide), if_neg (by decide), if_pos rfl]
  dsimp only
  rw [moved, Vga.storeHere_eq (Vga.goto_placed h.buffer (by omega)), Vga.goto_position]
  rfl

/-- A blank at a place that is not the last one. -/
theorem Vga.put_blank_eq (h : vga.Placed) (hplace : vga.position = place)
    (hroom : place + 1 < 2000) :
    vga.put 32 = some ((vga.wiped place).goto (place + 1)) := by
  have column := h.column
  unfold Vga.put
  rw [if_neg (by decide), if_neg (by decide), if_neg (by decide), if_neg (by decide),
    if_pos (by decide), Vga.storeHere_eq h, hplace]
  unfold Vga.position at hplace
  show (if 80 ≤ vga.column + 1 then
    Vga.nextRow { vga.wiped place with column := 0 }
    else some { vga.wiped place with column := vga.column + 1 }) = _
  split
  · unfold Vga.nextRow
    dsimp only
    rw [if_neg (by show ¬ 25 ≤ vga.row + 1; omega)]
    exact congrArg some ((vga.wiped place).goto_eq (vga.row + 1) (by decide) (by omega))
  · exact congrArg some ((vga.wiped place).goto_eq vga.row (by omega) (by omega))

/-- A blank at a place, and both cursors at another one. -/
def Vga.erased (vga : Vga) (place next : Nat) : Vga :=
  { (vga.wiped place).goto next with cursor := UInt16.ofNat next }

theorem Vga.erased_erased (vga : Vga) (place next next' : Nat) :
    (vga.erased place next).erased place next' = vga.erased place next' := by
  have idem : Function.update (Function.update vga.memory place vga.blank) place vga.blank =
      Function.update vga.memory place vga.blank := Function.update_idem ..
  exact congrArg (fun memory => { vga.erased place next' with memory := memory }) idem

theorem Vga.erased_placed (hbuf : vga.buffer = true) {next : Nat} (h : next < 2000) (place : Nat) :
    (vga.erased place next).Placed :=
  have placed : ((vga.wiped place).goto next).Placed := Vga.goto_placed hbuf h
  ⟨placed.buffer, placed.row, placed.column⟩

theorem vgaPutchar_back (h : vga.Placed) (hplace : vga.position = place + 1) :
    vgaPutchar vga 8 = some (vga.erased place place) := by
  have inside := h.position_lt
  rw [hplace] at inside
  exact vgaPutchar_goto h.buffer (vga.wiped place) h.buffer (Nat.lt_of_succ_lt inside)
    (Vga.put_back_eq h hplace)

theorem vgaPutchar_blank (h : vga.Placed) (hplace : vga.position = place)
    (hroom : place + 1 < 2000) : vgaPutchar vga 32 = some (vga.erased place (place + 1)) :=
  vgaPutchar_goto h.buffer (vga.wiped place) h.buffer hroom (Vga.put_blank_eq h hplace hroom)

/-- A backspace, a blank and a backspace. -/
theorem vgaPutchar_erase (h : vga.Placed) (hplace : vga.position = place + 1) :
    [8, 32, 8].foldlM vgaPutchar vga = some (vga.erased place place) := by
  have inside := h.position_lt
  rw [hplace] at inside
  have first := Vga.erased_placed h.buffer (Nat.lt_of_succ_lt inside) place
  have second := Vga.erased_placed h.buffer inside place
  rw [List.foldlM_cons, vgaPutchar_back h hplace]
  show [32, 8].foldlM vgaPutchar (vga.erased place place) = _
  rw [List.foldlM_cons, vgaPutchar_blank first ((vga.wiped place).goto_position place) inside,
    Vga.erased_erased]
  show [8].foldlM vgaPutchar (vga.erased place (place + 1)) = _
  rw [List.foldlM_cons, vgaPutchar_back second ((vga.wiped place).goto_position (place + 1)),
    Vga.erased_erased]
  rfl

end Place

/-! ## Rows that are gone -/

theorem layChar_dropRows {l : Layout UInt8} {k : Nat} (h : k ≤ l.rows.length) (c : UInt8) :
    (layChar l c).dropRows k = layChar (l.dropRows k) c := by
  unfold layChar
  rw [apply_ite (Layout.dropRows · k), apply_ite (Layout.dropRows · k),
    Layout.dropRows_newline h, Layout.dropRows_tab h, Layout.dropRows_put h]

theorem length_rows_wrap (l : Layout UInt8) : l.rows.length ≤ (l.wrap 80).rows.length := by
  unfold Layout.wrap
  split
  · rw [Layout.rows_length_newline]
    exact Nat.le_succ _
  · exact Nat.le_refl _

theorem length_rows_put (l : Layout UInt8) (c : UInt8) :
    (l.put 80 c).rows.length ≤ l.rows.length + 1 := by
  unfold Layout.put Layout.wrap
  split
  · rw [Layout.rows_length_newline]
    exact Nat.le_refl _
  · exact Nat.le_succ _

theorem length_rows_layChar (l : Layout UInt8) (c : UInt8) :
    l.rows.length ≤ (layChar l c).rows.length := by
  unfold layChar
  split
  · rw [Layout.rows_length_newline]
    exact Nat.le_succ _
  split
  · exact length_rows_wrap (l.write _)
  · exact length_rows_wrap (l.write _)

theorem layText_append (a b : List UInt8) : layText (a ++ b) = b.foldl layChar (layText a) :=
  List.foldl_append

theorem layChars_lt (text : List UInt8) {l : Layout UInt8} (h : l.current.length < 80) :
    (text.foldl layChar l).current.length < 80 := by
  induction text generalizing l with
  | nil => exact h
  | cons c text ih => exact ih (layChar_lt l c)

theorem length_rows_layChars (text : List UInt8) (l : Layout UInt8) :
    l.rows.length ≤ (text.foldl layChar l).rows.length := by
  induction text generalizing l with
  | nil => exact Nat.le_refl _
  | cons c text ih => exact Nat.le_trans (length_rows_layChar l c) (ih _)

theorem layText_lt (text : List UInt8) : (layText text).current.length < 80 :=
  layChars_lt text (by decide)

theorem layText_rows_le (a b : List UInt8) :
    (layText a).rows.length ≤ (layText (a ++ b)).rows.length := by
  rw [layText_append]
  exact length_rows_layChars b _

/-- Rows above the screen do not matter to it. -/
theorem Vga.Shows.dropRows {vga : Vga} {color : UInt8} {l : Layout UInt8} (h : vga.Shows color l)
    {k : Nat} (hk : k ≤ l.above 25) : vga.Shows color (l.dropRows k) := by
  have row := Layout.endRow_dropRows (by decide : 0 < 25) hk
  refine ⟨⟨h.buffer, h.colored, row ▸ h.row, h.column, fun i hi j hj => ?_⟩, row ▸ h.cursor⟩
  rw [Layout.window_dropRows (by decide) hk]
  exact h.cells i hi j hj

theorem Layout.endRow_of_lt {l : Layout UInt8} (h : l.rows.length < 25) :
    l.endRow 25 = l.rows.length := by
  rw [Layout.endRow_eq (by decide)]
  omega

/-- What is in a window of a layout with no row above it. -/
theorem window_put {l : Layout UInt8} {c : UInt8} (h : (l.put 80 c).rows.length < 25) (i j : Nat) :
    (l.put 80 c).window 32 25 i j =
      if i = l.rows.length ∧ j = l.current.length then c else l.window 32 25 i j := by
  have rows : l.rows.length ≤ (l.put 80 c).rows.length := length_rows_wrap (l.write [c])
  have below : (l.put 80 c).above 25 = 0 ∧ l.above 25 = 0 := by
    unfold Layout.above
    omega
  have same : (l.put 80 c).cell 32 i j = (l.write [c]).cell 32 i j := by
    unfold Layout.put Layout.wrap
    split
    · exact Layout.cell_newline i j
    · rfl
  rw [Layout.window, Layout.window, below.1, below.2, Nat.zero_add, same]
  exact Layout.cell_write c i j

/-- A character that is taken back, where no row is above the screen. -/
theorem Vga.Shows.erase_put {vga : Vga} {color : UInt8} {l : Layout UInt8} {c : UInt8}
    (hroom : l.current.length < 80) (hrows : (l.put 80 c).rows.length < 25)
    (h : vga.Shows color (l.put 80 c)) :
    Ends ([8, 32, 8].foldlM vgaPutchar vga) (Vga.Shows · color l) := by
  have rows : l.rows.length < 25 := Nat.lt_of_le_of_lt (length_rows_wrap (l.write [c])) hrows
  have row := h.row
  rw [Layout.endRow_of_lt hrows] at row
  have column := h.column
  have short : (l.put 80 c).current.length < 80 := Layout.wrap_lt (by decide) _
  have position : vga.position = l.place 80 + 1 := by
    rw [← Layout.place_put hroom c, Vga.position, row, column, Layout.place]
  have place : l.place 80 = l.rows.length * 80 + l.current.length := rfl
  have hrow : l.place 80 / 80 = l.rows.length := by omega
  have hcolumn : l.place 80 % 80 = l.current.length := by omega
  rw [vgaPutchar_erase ⟨h.buffer, row ▸ hrows, column ▸ short⟩ position]
  refine ends_some.mpr ⟨⟨h.buffer, h.colored, ?_, hcolumn, fun i hi j hj => ?_⟩, ?_⟩
  · rw [Layout.endRow_of_lt rows]
    exact hrow
  · show Function.update vga.memory (l.place 80) vga.blank (i * 80 + j) = _
    have cell := h.cells i hi j hj
    rw [window_put hrows] at cell
    by_cases here : i * 80 + j = l.place 80
    · have at_end : l.window 32 25 i j = 32 := by
        have same : i = l.rows.length ∧ j = l.current.length := by omega
        have below : l.above 25 = 0 := by
          unfold Layout.above
          omega
        rw [same.1, same.2, Layout.window, below, Nat.zero_add, Layout.cell_end]
      rw [here, Function.update_self, at_end]
      exact congrArg (vgaEntry 32) h.colored
    · rw [if_neg (by omega)] at cell
      rw [Function.update_of_ne here, cell]
  · rw [Layout.endRow_of_lt rows]
    exact congrArg UInt16.ofNat place

/-! ## The end of a layout -/

/-- The end of a layout is on the screen, from row `n` on at the latest. -/
def Vga.ShowsEnd (vga : Vga) (color : UInt8) (n : Nat) (l : Layout UInt8) : Prop :=
  ∃ k ≤ n, vga.Shows color (l.dropRows k)

section End

variable {vga : Vga} {color : UInt8} {l : Layout UInt8} {n : Nat}

theorem Vga.Shows.showsEnd (h : vga.Shows color l) (n : Nat) : vga.ShowsEnd color n l :=
  ⟨0, Nat.zero_le n, h⟩

theorem Vga.ShowsEnd.mono (h : vga.ShowsEnd color n l) {m : Nat} (hm : n ≤ m) :
    vga.ShowsEnd color m l := by
  obtain ⟨k, hk, hshows⟩ := h
  exact ⟨k, Nat.le_trans hk hm, hshows⟩

/-- The screen goes on as the layout does. -/
theorem Vga.ShowsEnd.puts (h : vga.ShowsEnd color n l) (hn : n ≤ l.rows.length)
    (hroom : l.current.length < 80) {text : List UInt8}
    (htext : ∀ c ∈ text, Printable c ∨ c = 10 ∨ c = 9) :
    Ends (text.foldlM vgaPutchar vga) (Vga.ShowsEnd · color n (text.foldl layChar l)) := by
  obtain ⟨k, hk, hshows⟩ := h
  have folded : ∀ (text : List UInt8) (m : Layout UInt8), k ≤ m.rows.length →
      text.foldl layChar (m.dropRows k) = (text.foldl layChar m).dropRows k := by
    intro text
    induction text with
    | nil => exact fun _ _ => rfl
    | cons c text ih =>
      intro m hm
      rw [List.foldl_cons, List.foldl_cons, ← layChar_dropRows hm]
      exact ih _ (Nat.le_trans hm (length_rows_layChar m c))
  refine (hshows.puts hroom htext).mono fun vga' h' => ⟨k, hk, ?_⟩
  rw [← folded text l (Nat.le_trans hk hn)]
  exact h'

/-- A character is taken back, if its row is still on the screen. -/
theorem Vga.ShowsEnd.erase {c : UInt8} (h : vga.ShowsEnd color n (l.put 80 c))
    (hn : n ≤ l.rows.length) (hscreen : l.rows.length ≤ n + 23) (hroom : l.current.length < 80) :
    Ends ([8, 32, 8].foldlM vgaPutchar vga) (Vga.ShowsEnd · color n l) := by
  obtain ⟨k, hk, hshows⟩ := h
  have rows : (l.put 80 c).rows.length ≤ l.rows.length + 1 := length_rows_put l c
  have left : ((l.put 80 c).dropRows k).rows.length = (l.put 80 c).rows.length - k :=
    List.length_drop
  -- what has been scrolled away is gone
  obtain ⟨m, hm⟩ : ∃ m, m = k + ((l.put 80 c).dropRows k).above 25 := ⟨_, rfl⟩
  have gone := hshows.dropRows (Nat.le_refl _)
  rw [Layout.dropRows_dropRows, ← hm] at gone
  unfold Layout.above at hm
  have small : ((l.put 80 c).dropRows m).rows.length < 25 := by
    rw [show ((l.put 80 c).dropRows m).rows.length = (l.put 80 c).rows.length - m from
      List.length_drop]
    omega
  have within : m ≤ n := by omega
  rw [Layout.dropRows_put (Nat.le_trans within hn)] at gone small
  have short : (l.dropRows m).current.length < 80 := hroom
  exact (gone.erase_put short small).mono fun vga' h' => ⟨m, within, h'⟩

end End

/-! ## Texts -/

theorem layChar_put (l : Layout UInt8) {c : UInt8} (h : Printable c) :
    layChar l c = l.put 80 c := by
  unfold layChar
  rw [if_neg, if_neg]
  · rintro rfl
    exact absurd h.1 (by decide)
  · rintro rfl
    exact absurd h.1 (by decide)

/-- The end of a text is on the screen, at least the row of its end, and the cursor behind it. -/
def Vga.ShowsText (vga : Vga) (color : UInt8) (text : List UInt8) : Prop :=
  vga.ShowsEnd color (layText text).rows.length (layText text)

section Text

variable {vga : Vga} {color : UInt8} {text : List UInt8}

theorem Vga.ShowsText.puts (h : vga.ShowsText color text) {more : List UInt8}
    (hmore : ∀ c ∈ more, Printable c ∨ c = 10 ∨ c = 9) :
    Ends (more.foldlM vgaPutchar vga) (Vga.ShowsText · color (text ++ more)) := by
  refine (Vga.ShowsEnd.puts h (Nat.le_refl _) (layText_lt text) hmore).mono fun vga' h' => ?_
  rw [← layText_append] at h'
  exact h'.mono (layText_rows_le text more)

/-- A character that is written and taken back leaves the text. -/
theorem Vga.ShowsText.put_erase (h : vga.ShowsText color text) {c : UInt8} (hc : Printable c) :
    Ends ([c, 8, 32, 8].foldlM vgaPutchar vga) (Vga.ShowsText · color text) := by
  have lt := layText_lt text
  have written : Ends ([c].foldlM vgaPutchar vga) _ :=
    Vga.ShowsEnd.puts h (Nat.le_refl _) lt fun d hd => .inl (List.mem_singleton.mp hd ▸ hc)
  refine Ends.append written fun vga' h' => ?_
  have put : vga'.ShowsEnd color (layText text).rows.length ((layText text).put 80 c) :=
    layChar_put (layText text) hc ▸ h'
  exact put.erase (Nat.le_refl _) (Nat.le_add_right _ _) lt

end Text

/-! ## A line that is being typed -/

/-- A text is on the screen, and behind it a line of which every row is. -/
def Vga.ShowsLine (vga : Vga) (color : UInt8) (text line : List UInt8) : Prop :=
  vga.ShowsEnd color (layText text).rows.length (layText (text ++ line))

/-- The rows that a line of printable characters takes. -/
theorem layText_rows_line (text : List UInt8) {line : List UInt8}
    (hline : ∀ c ∈ line, Printable c) :
    (layText (text ++ line)).rows.length ≤ (layText text).rows.length + 1 + line.length / 80 := by
  have puts : ∀ (line : List UInt8) (l : Layout UInt8), (∀ c ∈ line, Printable c) →
      line.foldl layChar l = line.foldl (Layout.put 80) l := by
    intro line
    induction line with
    | nil => exact fun _ _ => rfl
    | cons c line ih =>
      intro l h
      rw [List.foldl_cons, List.foldl_cons, layChar_put l (h c List.mem_cons_self)]
      exact ih _ fun d hd => h d (List.mem_cons_of_mem c hd)
  have lt := layText_lt text
  obtain ⟨hplace, -⟩ := Layout.place_puts lt line
  rw [layText_append, puts line _ hline]
  unfold Layout.place at hplace
  omega

section Line

variable {vga : Vga} {color : UInt8} {text line : List UInt8}

theorem Vga.ShowsText.showsLine (h : vga.ShowsText color text) : vga.ShowsLine color text [] := by
  rw [Vga.ShowsLine, List.append_nil]
  exact h

theorem Vga.ShowsLine.showsText (h : vga.ShowsLine color text line) :
    vga.ShowsText color (text ++ line) :=
  h.mono (layText_rows_le text line)

theorem Vga.ShowsLine.puts (h : vga.ShowsLine color text line) {more : List UInt8}
    (hmore : ∀ c ∈ more, Printable c ∨ c = 10 ∨ c = 9) :
    Ends (more.foldlM vgaPutchar vga) (Vga.ShowsLine · color text (line ++ more)) := by
  unfold Vga.ShowsLine
  rw [← List.append_assoc, layText_append (text ++ line)]
  exact Vga.ShowsEnd.puts h (layText_rows_le text line) (layText_lt _) hmore

/-- The last character of the line is taken back. -/
theorem Vga.ShowsLine.erase (h : vga.ShowsLine color text line) (hne : line ≠ [])
    (hline : ∀ c ∈ line, Printable c) (hlen : line.length ≤ 80 * 22) :
    Ends ([8, 32, 8].foldlM vgaPutchar vga) (Vga.ShowsLine · color text line.dropLast) := by
  have kept : ∀ c ∈ line.dropLast, Printable c := fun c hc => hline c (List.dropLast_subset line hc)
  have rows := layText_rows_line text kept
  rw [List.length_dropLast] at rows
  unfold Vga.ShowsLine at h
  rw [← List.dropLast_append_getLast hne, ← List.append_assoc, layText_append] at h
  have put : vga.ShowsEnd color (layText text).rows.length
      ((layText (text ++ line.dropLast)).put 80 (line.getLast hne)) :=
    layChar_put _ (hline _ (List.getLast_mem hne)) ▸ h
  exact put.erase (layText_rows_le text _) (by omega) (layText_lt _)

end Line

/-- Characters that leave a text behind the one on the screen: some of them may take others back. -/
def Draws (out text : List UInt8) : Prop :=
  ∀ (vga : Vga) (color : UInt8) (shown : List UInt8), vga.ShowsText color shown →
    Ends (out.foldlM vgaPutchar vga) (Vga.ShowsText · color (shown ++ text))

section Draws

variable {out out' text text' : List UInt8}

theorem draws_plain (h : ∀ c ∈ text, Printable c ∨ c = 10 ∨ c = 9) : Draws text text :=
  fun _ _ _ hscreen => hscreen.puts h

theorem Draws.append (h : Draws out text) (h' : Draws out' text') :
    Draws (out ++ out') (text ++ text') := by
  intro vga color shown hscreen
  rw [← List.append_assoc]
  exact Ends.append (h vga color shown hscreen) fun vga' => h' vga' color (shown ++ text)

end Draws

/-- A screen of blanks, with the cursor at its start. -/
def clearedScreen (color : UInt8) : Vga := ⟨0, 0, color, true, fun _ => vgaEntry 32 color, 0⟩

theorem clearedScreen_shows (color : UInt8) : (clearedScreen color).ShowsText color [] := by
  have shows_empty : (clearedScreen color).Shows color Layout.empty :=
    ⟨⟨rfl, rfl, rfl, rfl, fun i _ j _ => by rw [Layout.window_empty]; rfl⟩, rfl⟩
  exact shows_empty.showsEnd 0

end Unics
