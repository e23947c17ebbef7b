import Mathlib.Data.List.GetD

/-!
# Text laid out in rows

A text is laid out in rows, without a bound on their number. `Layout` is what is there after some of
the text: the rows that are done and the row that is being written. A character goes to the end of
the current row, a line end and a row that is full begin the next one at once, and a tab writes
blanks up to the next stop.

A screen shows the last rows of a layout (`Layout.window`). What a new row does to it is the
scrolling of the screen: as long as there is room nothing moves (`window_newline_of_room`), then
each row moves up by one and the last becomes blank (`window_newline_of_full`).

Where a text is also taken back, a screen does not scroll down again. It shows a layout whose first
rows are gone (`Layout.dropRows`), which goes on as the whole layout does (`dropRows_put`).
-/

namespace Unics.Lib

/-- The rows of a text that are done, the first one first, and the row that is being written. -/
@[ext] structure Layout (α : Type*) where
  rows : List (List α)
  current : List α

variable {α : Type*}

namespace Layout

/-- Nothing is written. -/
def empty : Layout α := ⟨[], []⟩

/-- The next row begins. -/
def newline (l : Layout α) : Layout α := ⟨l.rows ++ [l.current], []⟩

/-- More characters in the current row. -/
def write (l : Layout α) (text : List α) : Layout α := ⟨l.rows, l.current ++ text⟩

/-- A full row is left at once. -/
def wrap (width : ℕ) (l : Layout α) : Layout α :=
  if width ≤ l.current.length then l.newline else l

def put (width : ℕ) (l : Layout α) (c : α) : Layout α := (l.write [c]).wrap width

theorem write_write (l : Layout α) (a b : List α) : (l.write a).write b = l.write (a ++ b) := by
  rw [write, write, write, List.append_assoc]

/-- Blanks up to the next multiple of `stop`, and not past the end of the row. -/
def tab (width stop : ℕ) (blank : α) (l : Layout α) : Layout α :=
  let next := (l.current.length / stop + 1) * stop
  (l.write (List.replicate (min next width - l.current.length) blank)).wrap width

/-- The end of the text is within the width. -/
theorem wrap_lt {width : ℕ} (hwidth : 0 < width) (l : Layout α) :
    (l.wrap width).current.length < width := by
  unfold wrap
  split
  · exact hwidth
  · next hroom => exact Nat.lt_of_not_le hroom

section Window

variable (blank : α)

/-- The character in column `j` of row `i`, a blank where nothing is written. -/
def cell (l : Layout α) (i j : ℕ) : α := ((l.rows ++ [l.current]).getD i []).getD j blank

/-- The number of rows that are above a screen of `height` rows. -/
def above (height : ℕ) (l : Layout α) : ℕ := l.rows.length + 1 - height

/-- What a screen of `height` rows shows: the last rows, or all rows when there are fewer. -/
def window (height : ℕ) (l : Layout α) (i j : ℕ) : α := l.cell blank (l.above height + i) j

/-- The row of the end of the text in the window. -/
def endRow (height : ℕ) (l : Layout α) : ℕ := l.rows.length - l.above height

variable {blank} {height : ℕ} {l : Layout α}

theorem cell_of_gt {i : ℕ} (h : l.rows.length < i) (j : ℕ) : l.cell blank i j = blank := by
  have past : (l.rows ++ [l.current]).length ≤ i := by
    rw [List.length_append, List.length_singleton]
    exact h
  rw [cell, List.getD_eq_default _ _ past]
  rfl

theorem cell_current (j : ℕ) : l.cell blank l.rows.length j = l.current.getD j blank := by
  rw [cell, List.getD_append_right _ _ _ _ (Nat.le_refl _), Nat.sub_self, List.getD_cons_zero]

/-- Nothing is written at the end. -/
theorem cell_end : l.cell blank l.rows.length l.current.length = blank := by
  rw [cell_current, List.getD_eq_default _ _ (Nat.le_refl _)]

/-- A row that begins is as blank as it was. -/
theorem cell_newline (i j : ℕ) : l.newline.cell blank i j = l.cell blank i j := by
  have count : l.newline.rows.length = l.rows.length + 1 := List.length_append
  rcases Nat.lt_trichotomy i l.newline.rows.length with here | rfl | past
  · rw [cell, List.getD_append _ _ _ _ here]
    rfl
  · rw [cell_current, cell_of_gt (by omega)]
    rfl
  · rw [cell_of_gt past, cell_of_gt (by omega)]

theorem cell_write (c : α) (i j : ℕ) : (l.write [c]).cell blank i j =
    if i = l.rows.length ∧ j = l.current.length then c else l.cell blank i j := by
  rcases Nat.lt_trichotomy i l.rows.length with done | rfl | past
  · rw [if_neg (by omega), cell, cell, List.getD_append _ _ _ _ done, List.getD_append]
    · rfl
    · exact done
  · have written : (l.write [c]).cell blank l.rows.length j =
        (l.current ++ [c]).getD j blank := cell_current j
    rw [written, cell_current]
    rcases Nat.lt_trichotomy j l.current.length with before | rfl | after
    · rw [if_neg (by omega), List.getD_append _ _ _ _ before]
    · rw [if_pos ⟨rfl, rfl⟩, List.getD_append_right _ _ _ _ (Nat.le_refl _), Nat.sub_self,
        List.getD_cons_zero]
    · have full : (l.current ++ [c]).length ≤ j := by
        rw [List.length_append, List.length_singleton]
        exact after
      rw [if_neg (by omega), List.getD_eq_default _ _ full,
        List.getD_eq_default _ _ (Nat.le_of_lt after)]
  · rw [if_neg (by omega), cell_of_gt past]
    exact @cell_of_gt _ blank (l.write [c]) i past j

theorem window_empty (i j : ℕ) : (empty : Layout α).window blank height i j = blank := by
  unfold window
  rcases Nat.eq_zero_or_pos ((empty : Layout α).above height + i) with here | past
  · rw [here]
    exact @cell_current _ blank empty j
  · exact cell_of_gt past j

theorem newline_above : l.newline.above height = l.rows.length + 2 - height := by
  rw [above, newline, List.length_append, List.length_singleton]

/-- As long as there is room, a new row moves nothing. -/
theorem window_newline_of_room (h : l.rows.length + 1 < height) (i j : ℕ) :
    l.newline.window blank height i j = l.window blank height i j := by
  rw [window, window, cell_newline, newline_above, above]
  congr 1
  omega

/-- When the window is full, a new row moves each row up. -/
theorem window_newline_of_full (h : height ≤ l.rows.length + 1) (i j : ℕ) :
    l.newline.window blank height i j = l.window blank height (i + 1) j := by
  rw [window, window, cell_newline, newline_above, above]
  congr 1
  omega

/-- What comes up from below is blank. -/
theorem window_below (j : ℕ) : l.window blank height height j = blank :=
  cell_of_gt (by unfold above; omega) j

/-- A character appears at the end of the text. -/
theorem window_write (hheight : 0 < height) (c : α) (i j : ℕ) :
    (l.write [c]).window blank height i j =
      if i = l.endRow height ∧ j = l.current.length then c else l.window blank height i j := by
  have same : (l.write [c]).above height = l.above height := rfl
  have last : l.above height + i = l.rows.length ↔ i = l.endRow height := by
    unfold endRow above
    omega
  rw [window, window, same, cell_write]
  exact if_congr (and_congr_left' last) rfl rfl

theorem endRow_newline_of_room (h : l.rows.length + 1 < height) :
    l.newline.endRow height = l.endRow height + 1 := by
  rw [endRow, endRow, newline_above, above, newline, List.length_append, List.length_singleton]
  omega

theorem endRow_newline_of_full (h : height ≤ l.rows.length + 1) :
    l.newline.endRow height = l.endRow height := by
  rw [endRow, endRow, newline_above, above, newline, List.length_append, List.length_singleton]
  omega

/-- The end of the text is in the window, in the last row when the window is full. -/
theorem endRow_eq (hheight : 0 < height) : l.endRow height = min l.rows.length (height - 1) := by
  unfold endRow above
  omega

end Window

/-! ## Rows that are gone -/

section Drop

variable {l : Layout α} {k : ℕ}

/-- The layout without its first rows. -/
def dropRows (l : Layout α) (k : ℕ) : Layout α := ⟨l.rows.drop k, l.current⟩

theorem dropRows_dropRows (l : Layout α) (a b : ℕ) :
    (l.dropRows a).dropRows b = l.dropRows (a + b) := by
  rw [dropRows, dropRows, dropRows, List.drop_drop]

theorem dropRows_newline (h : k ≤ l.rows.length) :
    l.newline.dropRows k = (l.dropRows k).newline := by
  rw [newline, newline, dropRows, dropRows, List.drop_append_of_le_length h]

theorem dropRows_wrap (h : k ≤ l.rows.length) (width : ℕ) :
    (l.wrap width).dropRows k = (l.dropRows k).wrap width := by
  unfold wrap
  rw [apply_ite (dropRows · k), dropRows_newline h]
  rfl

theorem dropRows_put (h : k ≤ l.rows.length) (width : ℕ) (c : α) :
    (l.put width c).dropRows k = (l.dropRows k).put width c :=
  dropRows_wrap (l := l.write [c]) h width

theorem dropRows_tab (h : k ≤ l.rows.length) (width stop : ℕ) (blank : α) :
    (l.tab width stop blank).dropRows k = (l.dropRows k).tab width stop blank :=
  dropRows_wrap (l := l.write _) h width

/-- The other rows are what they were. -/
theorem cell_dropRows {blank : α} (h : k ≤ l.rows.length) (i j : ℕ) :
    (l.dropRows k).cell blank i j = l.cell blank (k + i) j := by
  have rows : (l.dropRows k).rows ++ [l.current] = (l.rows ++ [l.current]).drop k :=
    (List.drop_append_of_le_length h).symm
  show (((l.dropRows k).rows ++ [l.current]).getD i []).getD j blank = _
  have same : ((l.rows ++ [l.current]).drop k).getD i [] =
      (l.rows ++ [l.current]).getD (k + i) [] := by
    rw [List.getD_eq_getElem?_getD, List.getElem?_drop, ← List.getD_eq_getElem?_getD]
  rw [rows, same, cell]

/-- Rows that are above the window do not matter to it. -/
theorem window_dropRows {blank : α} {height : ℕ} (hheight : 0 < height) (h : k ≤ l.above height)
    (i j : ℕ) : (l.dropRows k).window blank height i j = l.window blank height i j := by
  have rows : (l.dropRows k).rows.length = l.rows.length - k := List.length_drop
  unfold above at h
  rw [window, window, cell_dropRows (by omega), above, above, rows]
  congr 1
  omega

theorem endRow_dropRows {height : ℕ} (hheight : 0 < height) (h : k ≤ l.above height) :
    (l.dropRows k).endRow height = l.endRow height := by
  have rows : (l.dropRows k).rows.length = l.rows.length - k := List.length_drop
  unfold above at h
  rw [endRow_eq hheight, endRow_eq hheight, rows]
  omega

end Drop

/-! ## The length of a layout -/

section Place

variable {width : ℕ} {l : Layout α}

/-- The place of the end of the text, where every row is full. -/
def place (width : ℕ) (l : Layout α) : ℕ := l.rows.length * width + l.current.length

theorem rows_length_newline (l : Layout α) : l.newline.rows.length = l.rows.length + 1 :=
  List.length_append

theorem place_put (h : l.current.length < width) (c : α) :
    (l.put width c).place width = l.place width + 1 := by
  have length : (l.write [c]).current.length = l.current.length + 1 := List.length_append
  rw [put, wrap, length]
  split
  · next hfull =>
    have row : l.current.length + 1 = width := Nat.le_antisymm h hfull
    rw [place, rows_length_newline, Nat.add_mul, Nat.one_mul, place, Nat.add_assoc _ _ 1, row]
    rfl
  · rw [place, length]
    rfl

/-- A line of characters is a row longer for each `width` of them. -/
theorem place_puts (h : l.current.length < width) (text : List α) :
    (text.foldl (put width) l).place width = l.place width + text.length ∧
      (text.foldl (put width) l).current.length < width := by
  induction text generalizing l with
  | nil => exact ⟨rfl, h⟩
  | cons c text ih =>
    have lt : (l.put width c).current.length < width := wrap_lt (Nat.zero_lt_of_lt h) _
    obtain ⟨hplace, hlt⟩ := ih lt
    refine ⟨?_, hlt⟩
    rw [List.foldl_cons, hplace, place_put h, List.length_cons, Nat.add_assoc,
      Nat.add_comm 1]

end Place

end Layout

end Unics.Lib
