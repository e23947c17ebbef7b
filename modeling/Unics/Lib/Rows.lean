import Mathlib.Data.List.Basic

/-!
# Rows of a memory

A memory of cells that is read in rows of one width, `h` rows of it. What moves rows in the memory
moves the elements of their list: up or down by some places with others coming in behind
(`shiftUp`, `shiftDown`), or from one place on by one (`insertRow`, `deleteRow`). These four keep
the number of rows, and at a place that is no row they do nothing.
-/

namespace Unics.Lib

universe u

variable {α : Type u}

/-! ## Lists of one length -/

section Moves

variable (n : ℕ) (x : α) (l : List α)

/-- The first `n` are dropped and as many come in at the end. -/
def shiftUp : List α := (l ++ List.replicate n x).drop n

/-- As many come in at the front and the last `n` are dropped. -/
def shiftDown : List α := (List.replicate n x ++ l).take l.length

/-- One comes in before the `n`-th and the last is dropped. -/
def insertRow : List α := (l.insertIdx n x).take l.length

/-- The `n`-th is dropped and one comes in at the end. -/
def deleteRow : List α := (l.eraseIdx n ++ [x]).take l.length

variable {n x l} {i : ℕ}

theorem shiftUp_moved (h : i + n < l.length) : (shiftUp n x l)[i]? = l[i + n]? := by
  rw [shiftUp, List.getElem?_drop, Nat.add_comm n i, List.getElem?_append_left h]

theorem shiftUp_new (h : i < l.length) (hn : l.length ≤ i + n) :
    (shiftUp n x l)[i]? = some x := by
  rw [shiftUp, List.getElem?_drop, Nat.add_comm n i, List.getElem?_append_right hn,
    List.getElem?_replicate_of_lt (by omega)]

theorem length_shiftUp : (shiftUp n x l).length = l.length := by
  rw [shiftUp, List.length_drop, List.length_append, List.length_replicate, Nat.add_sub_cancel]

theorem shiftDown_new (h : i < l.length) (hn : i < n) : (shiftDown n x l)[i]? = some x := by
  rw [shiftDown, List.getElem?_take_of_lt h, List.getElem?_append_left (by simpa using hn),
    List.getElem?_replicate_of_lt hn]

theorem shiftDown_moved (h : i < l.length) (hn : n ≤ i) :
    (shiftDown n x l)[i]? = l[i - n]? := by
  rw [shiftDown, List.getElem?_take_of_lt h, List.getElem?_append_right (by simpa using hn),
    List.length_replicate]

theorem length_shiftDown : (shiftDown n x l).length = l.length := by
  rw [shiftDown, List.length_take, List.length_append]
  omega

theorem insertRow_before (h : i < l.length) (hn : i < n) : (insertRow n x l)[i]? = l[i]? := by
  rw [insertRow, List.getElem?_take_of_lt h, List.getElem?_insertIdx_of_lt hn]

theorem insertRow_new (h : n < l.length) : (insertRow n x l)[n]? = some x := by
  rw [insertRow, List.getElem?_take_of_lt h, List.getElem?_insertIdx_self, if_pos (Nat.le_of_lt h)]

theorem insertRow_moved (h : i < l.length) (hn : n < i) :
    (insertRow n x l)[i]? = l[i - 1]? := by
  rw [insertRow, List.getElem?_take_of_lt h, List.getElem?_insertIdx_of_gt hn]

theorem length_insertRow : (insertRow n x l).length = l.length := by
  rw [insertRow, List.length_take, Nat.min_eq_left List.length_le_length_insertIdx]

/-- There is no such place. -/
theorem insertRow_of_le (h : l.length ≤ n) : insertRow n x l = l := by
  rw [insertRow]
  rcases Nat.eq_or_lt_of_le h with rfl | h
  · rw [List.insertIdx_length_self, List.take_left]
  · rw [List.insertIdx_of_length_lt h, List.take_length]

theorem deleteRow_before (h : i < l.length) (hn : i < n) : (deleteRow n x l)[i]? = l[i]? := by
  have room : i < (l.eraseIdx n).length := by
    rw [List.length_eraseIdx]
    split <;> omega
  rw [deleteRow, List.getElem?_take_of_lt h, List.getElem?_append_left room,
    List.getElem?_eraseIdx_of_lt hn]

theorem deleteRow_moved (h : i + 1 < l.length) (hn : n ≤ i) :
    (deleteRow n x l)[i]? = l[i + 1]? := by
  have room : i < (l.eraseIdx n).length := by
    rw [List.length_eraseIdx]
    split <;> omega
  rw [deleteRow, List.getElem?_take_of_lt (by omega), List.getElem?_append_left room,
    List.getElem?_eraseIdx_of_ge hn]

theorem deleteRow_new (h : i + 1 = l.length) (hn : n < l.length) :
    (deleteRow n x l)[i]? = some x := by
  have full : (l.eraseIdx n).length = i := by
    rw [List.length_eraseIdx_of_lt hn]
    omega
  rw [deleteRow, List.getElem?_take_of_lt (by omega),
    List.getElem?_append_right (Nat.le_of_eq full), full, Nat.sub_self]
  rfl

theorem length_deleteRow : (deleteRow n x l).length = l.length := by
  rw [deleteRow, List.length_take, List.length_append, List.length_singleton, List.length_eraseIdx]
  split <;> omega

/-- There is no such place. -/
theorem deleteRow_of_le (h : l.length ≤ n) : deleteRow n x l = l := by
  rw [deleteRow, List.eraseIdx_of_length_le h, List.take_left]

end Moves

/-! ## Rows -/

/-- The cells of a row. -/
def rowAt (w : ℕ) (m : ℕ → α) (r : ℕ) : List α := (List.range w).map fun c => m (r * w + c)

/-- The first `h` rows. -/
def rows (w h : ℕ) (m : ℕ → α) : List (List α) := (List.range h).map (rowAt w m)

section Rows

variable {w h : ℕ} {m m' : ℕ → α}

theorem rowAt_congr {r r' : ℕ} (hsame : ∀ c < w, m' (r' * w + c) = m (r * w + c)) :
    rowAt w m' r' = rowAt w m r :=
  List.map_congr_left fun c hc => hsame c (List.mem_range.mp hc)

theorem rowAt_const {r : ℕ} {x : α} (hsame : ∀ c < w, m (r * w + c) = x) :
    rowAt w m r = List.replicate w x := by
  rw [rowAt, List.map_congr_left fun c hc => hsame c (List.mem_range.mp hc), List.map_const',
    List.length_range]

theorem length_rows : (rows w h m).length = h := by
  rw [rows, List.length_map, List.length_range]

theorem getElem?_rows {r : ℕ} (hr : r < h) : (rows w h m)[r]? = some (rowAt w m r) := by
  rw [rows, List.getElem?_map, List.getElem?_range hr]
  rfl

/-- A list of as many rows, by its rows. -/
theorem rows_eq {l : List (List α)} (hlength : l.length = h)
    (hrow : ∀ r < h, l[r]? = some (rowAt w m r)) : rows w h m = l := by
  refine List.ext_getElem? fun r => ?_
  by_cases hr : r < h
  · rw [getElem?_rows hr, hrow r hr]
  · have hle := Nat.le_of_not_lt hr
    rw [List.getElem?_eq_none (Nat.le_trans (Nat.le_of_eq length_rows) hle),
      List.getElem?_eq_none (Nat.le_trans (Nat.le_of_eq hlength) hle)]

variable {n : ℕ} {x : List α}

theorem rows_eq_shiftUp (hmoved : ∀ r, r + n < h → rowAt w m' r = rowAt w m (r + n))
    (hnew : ∀ r < h, h ≤ r + n → rowAt w m' r = x) :
    rows w h m' = shiftUp n x (rows w h m) := by
  refine rows_eq (length_shiftUp.trans length_rows) fun r hr => ?_
  by_cases hn : r + n < h
  · rw [shiftUp_moved (length_rows.symm ▸ hn), getElem?_rows hn, hmoved r hn]
  · have full := Nat.le_of_not_lt hn
    rw [shiftUp_new (length_rows.symm ▸ hr) (length_rows.symm ▸ full), hnew r hr full]

theorem rows_eq_shiftDown (hnew : ∀ r < h, r < n → rowAt w m' r = x)
    (hmoved : ∀ r < h, n ≤ r → rowAt w m' r = rowAt w m (r - n)) :
    rows w h m' = shiftDown n x (rows w h m) := by
  refine rows_eq (length_shiftDown.trans length_rows) fun r hr => ?_
  by_cases hn : r < n
  · rw [shiftDown_new (length_rows.symm ▸ hr) hn, hnew r hr hn]
  · have behind := Nat.le_of_not_lt hn
    rw [shiftDown_moved (length_rows.symm ▸ hr) behind, getElem?_rows (by omega),
      hmoved r hr behind]

theorem rows_eq_insertRow (hn : n < h) (hbefore : ∀ r < n, rowAt w m' r = rowAt w m r)
    (hnew : rowAt w m' n = x) (hmoved : ∀ r < h, n < r → rowAt w m' r = rowAt w m (r - 1)) :
    rows w h m' = insertRow n x (rows w h m) := by
  refine rows_eq (length_insertRow.trans length_rows) fun r hr => ?_
  have inside : r < (rows w h m).length := length_rows.symm ▸ hr
  rcases Nat.lt_trichotomy r n with hlt | rfl | hgt
  · rw [insertRow_before inside hlt, getElem?_rows hr, hbefore r hlt]
  · rw [insertRow_new inside, hnew]
  · rw [insertRow_moved inside hgt, getElem?_rows (by omega), hmoved r hr hgt]

theorem rows_eq_deleteRow (hn : n < h) (hbefore : ∀ r < n, rowAt w m' r = rowAt w m r)
    (hmoved : ∀ r, n ≤ r → r + 1 < h → rowAt w m' r = rowAt w m (r + 1))
    (hnew : ∀ r, r + 1 = h → rowAt w m' r = x) :
    rows w h m' = deleteRow n x (rows w h m) := by
  refine rows_eq (length_deleteRow.trans length_rows) fun r hr => ?_
  have inside : r < (rows w h m).length := length_rows.symm ▸ hr
  by_cases hlt : r < n
  · rw [deleteRow_before inside hlt, getElem?_rows hr, hbefore r hlt]
  by_cases hlast : r + 1 = h
  · rw [deleteRow_new (length_rows.symm ▸ hlast) (length_rows.symm ▸ hn), hnew r hlast]
  · have next : r + 1 < h := by omega
    rw [deleteRow_moved (length_rows.symm ▸ next) (Nat.le_of_not_lt hlt), getElem?_rows next,
      hmoved r (Nat.le_of_not_lt hlt) next]

end Rows

end Unics.Lib
