import Mathlib.Data.List.GetD

/-!
# A line that is edited

Text with a cursor between two of its characters, or at an end. The cursor is never outside the
text: that is a field, so every operation keeps it.
-/

namespace Unics.Lib

structure EditLine (α : Type*) where
  text : List α
  cursor : Nat
  le : cursor ≤ text.length

namespace EditLine

variable {α : Type*}

@[ext] theorem ext {l m : EditLine α} (htext : l.text = m.text) (hcursor : l.cursor = m.cursor) :
    l = m := by
  cases l
  cases m
  cases htext
  cases hcursor
  rfl

/-- A line with the cursor at its end. -/
def ofText (text : List α) : EditLine α := ⟨text, text.length, Nat.le_refl _⟩

/-- What is before the cursor. -/
def before (l : EditLine α) : List α := l.text.take l.cursor

/-- What is at the cursor and after it. -/
def after (l : EditLine α) : List α := l.text.drop l.cursor

theorem before_append_after (l : EditLine α) : l.before ++ l.after = l.text :=
  List.take_append_drop l.cursor l.text

theorem length_before (l : EditLine α) : l.before.length = l.cursor := List.length_take_of_le l.le

theorem length_after (l : EditLine α) : l.after.length = l.text.length - l.cursor :=
  List.length_drop

/-- A character before the cursor. -/
def insert (l : EditLine α) (a : α) : EditLine α where
  text := l.before ++ a :: l.after
  cursor := l.cursor + 1
  le := by
    have := l.le
    rw [List.length_append, List.length_cons, l.length_before, l.length_after]
    omega

theorem length_insert (l : EditLine α) (a : α) : (l.insert a).text.length = l.text.length + 1 := by
  show (l.before ++ a :: l.after).length = l.text.length + 1
  rw [← congrArg List.length l.before_append_after, List.length_append, List.length_append,
    List.length_cons]
  omega

/-- The character before the cursor is gone. -/
def erase (l : EditLine α) : EditLine α where
  text := l.text.take (l.cursor - 1) ++ l.after
  cursor := l.cursor - 1
  le := by
    have := l.le
    rw [List.length_append, List.length_take, l.length_after]
    omega

def moveLeft (l : EditLine α) : EditLine α where
  text := l.text
  cursor := l.cursor - 1
  le := Nat.le_trans (Nat.sub_le _ _) l.le

def moveRight (l : EditLine α) : EditLine α :=
  if h : l.cursor < l.text.length then ⟨l.text, l.cursor + 1, h⟩ else l

/-! ## At an end -/

theorem erase_of_start {l : EditLine α} (h : l.cursor = 0) : l.erase = l := by
  refine ext ?_ (by show l.cursor - 1 = l.cursor; rw [h])
  show l.text.take (l.cursor - 1) ++ l.text.drop l.cursor = l.text
  rw [h]
  rfl

theorem moveLeft_of_start {l : EditLine α} (h : l.cursor = 0) : l.moveLeft = l :=
  ext rfl (by show l.cursor - 1 = l.cursor; rw [h])

theorem moveRight_of_end {l : EditLine α} (h : l.cursor = l.text.length) : l.moveRight = l :=
  dif_neg (Nat.not_lt_of_le (Nat.le_of_eq h.symm))

theorem after_of_end {l : EditLine α} (h : l.cursor = l.text.length) : l.after = [] :=
  List.drop_of_length_le (Nat.le_of_eq h.symm)

/-! ## Character by character -/

section Characters

variable {l : EditLine α} {d : α} {i : Nat}

theorem getD_of_lt (h : i < l.cursor) : l.text.getD i d = l.before.getD i d := by
  rw [← l.before_append_after, List.getD_append _ _ _ _ (by rw [l.length_before]; exact h)]

theorem getD_of_le (h : l.cursor ≤ i) : l.text.getD i d = l.after.getD (i - l.cursor) d := by
  rw [← l.before_append_after, List.getD_append_right _ _ _ _ (by rw [l.length_before]; exact h),
    l.length_before]

/-- The characters behind a new one move by one. -/
theorem getD_insert (a : α) :
    (l.insert a).text.getD i d =
      if i < l.cursor then l.text.getD i d
      else if i = l.cursor then a
      else l.text.getD (i - 1) d := by
  show (l.before ++ a :: l.after).getD i d = _
  split
  · next h => rw [List.getD_append _ _ _ _ (by rw [l.length_before]; exact h), getD_of_lt h]
  · next h =>
    rw [List.getD_append_right _ _ _ _ (by rw [l.length_before]; omega), l.length_before]
    split
    · next here => rw [here, Nat.sub_self, List.getD_cons_zero]
    · next there =>
      have next : i - l.cursor = i - 1 - l.cursor + 1 := by omega
      rw [next, List.getD_cons_succ, getD_of_le (by omega)]

/-- So do those behind one that is gone. -/
theorem getD_erase (h : 0 < l.cursor) :
    l.erase.text.getD i d =
      if i < l.cursor - 1 then l.text.getD i d else l.text.getD (i + 1) d := by
  have le := l.le
  have len : (l.text.take (l.cursor - 1)).length = l.cursor - 1 := List.length_take_of_le (by omega)
  show (l.text.take (l.cursor - 1) ++ l.after).getD i d = _
  split
  · next hlt =>
    rw [List.getD_append _ _ _ _ (by rw [len]; exact hlt), List.getD_eq_getElem?_getD,
      List.getElem?_take_of_lt hlt, ← List.getD_eq_getElem?_getD]
  · next hge =>
    have place : i + 1 - l.cursor = i - (l.cursor - 1) := by omega
    rw [List.getD_append_right _ _ _ _ (by rw [len]; omega), len, getD_of_le (by omega), place]

/-- What holds of all characters at the cursor and after it, and of the default behind them. -/
theorem forall_after_iff {p : α → Prop} (hd : p d) :
    (∀ x ∈ l.after, p x) ↔ ∀ i, l.cursor ≤ i → p (l.text.getD i d) := by
  constructor
  · intro h i hi
    rw [getD_of_le hi]
    by_cases hlt : i - l.cursor < l.after.length
    · rw [List.getD_eq_getElem _ _ hlt]
      exact h _ (List.getElem_mem hlt)
    · rwa [List.getD_eq_default _ _ (Nat.le_of_not_lt hlt)]
  · intro h x hx
    obtain ⟨j, hj, rfl⟩ := List.getElem_of_mem hx
    have all := h (l.cursor + j) (Nat.le_add_right _ _)
    rwa [getD_of_le (Nat.le_add_right _ _), Nat.add_sub_cancel_left, List.getD_eq_getElem _ _ hj]
      at all

end Characters

end EditLine

/-! ## Typing at the end -/

section Typing

variable {α : Type*} (erases keeps : α → Bool) (fits : Nat → Bool)

/-- A key at the end of a line: it takes the last character away, or is one itself where a line of
that length takes one more, or does nothing. -/
def typeKey (line : List α) (a : α) : List α :=
  if erases a then line.dropLast
  else if keeps a && fits line.length then line ++ [a]
  else line

variable {erases keeps fits}

theorem typeKey_erase {a : α} (h : erases a = true) (line : List α) :
    typeKey erases keeps fits line a = line.dropLast := if_pos h

theorem typeKey_keep {a : α} (hne : erases a = false) (h : keeps a = true) {line : List α}
    (hfits : fits line.length = true) : typeKey erases keeps fits line a = line ++ [a] := by
  rw [typeKey, if_neg (Bool.eq_false_iff.mp hne), if_pos (Bool.and_eq_true_iff.mpr ⟨h, hfits⟩)]

theorem typeKey_skip {a : α} (hne : erases a = false) {line : List α}
    (h : keeps a = true → fits line.length = false) :
    typeKey erases keeps fits line a = line := by
  refine (if_neg (Bool.eq_false_iff.mp hne)).trans (if_neg fun hboth => ?_)
  obtain ⟨hkeep, hfits⟩ := Bool.and_eq_true_iff.mp hboth
  exact absurd (hfits.symm.trans (h hkeep)) Bool.noConfusion

end Typing

end Unics.Lib
