import Mathlib.Data.List.TakeWhile

/-!
# The fields of a line

The maximal stretches of a line without a blank, in order. A scan that skips blanks, takes what
comes up to the next one and goes on behind that finds them one after the other.
-/

namespace Unics.Lib

variable {α : Type} (blank : α → Bool)

/-- The maximal stretches without a blank. -/
def fields (line : List α) : List (List α) :=
  (line.splitOnP blank).filter fun field => !field.isEmpty

theorem fields_nil : fields blank ([] : List α) = [] := rfl

variable {blank}

/-- Blanks in front make no difference. -/
theorem fields_blanks {front : List α} (h : ∀ c ∈ front, blank c = true) (line : List α) :
    fields blank (front ++ line) = fields blank line := by
  induction front with
  | nil => rfl
  | cons c front ih =>
    rw [← ih fun d hd => h d (List.mem_cons_of_mem c hd), fields, List.cons_append,
      List.splitOnP_cons_eq_if_modifyHead, if_pos (h c List.mem_cons_self)]
    rfl

/-- The first field ends with the line, or with a blank. -/
theorem fields_word {word : List α} (hne : word ≠ []) (hword : ∀ c ∈ word, blank c = false)
    {tail : List α} (htail : ∀ c, tail.head? = some c → blank c = true) :
    fields blank (word ++ tail) = word :: fields blank tail.tail := by
  have full : (fun field : List α => !field.isEmpty) word = true := by
    show (!word.isEmpty) = true
    rw [Bool.not_eq_true', List.isEmpty_eq_false_iff]
    exact hne
  cases tail with
  | nil =>
    rw [List.append_nil, fields, List.splitOnP_eq_singleton hword,
      List.filter_cons_of_pos (p := fun field : List α => !field.isEmpty) full]
    rfl
  | cons c tail =>
    rw [fields, List.splitOnP_append_cons_of_forall_mem hword c (htail c rfl),
      List.filter_cons_of_pos (p := fun field : List α => !field.isEmpty) full]
    rfl

/-- A line is blank, or it begins with blanks and a word. -/
theorem fields_cases (blank : α → Bool) (line : List α) :
    ((∀ c ∈ line, blank c = true) ∧ fields blank line = []) ∨
      ∃ front word tail, line = front ++ (word ++ tail) ∧ (∀ c ∈ front, blank c = true) ∧
        word ≠ [] ∧ (∀ c ∈ word, blank c = false) ∧
        (∀ c, tail.head? = some c → blank c = true) ∧
        fields blank line = word :: fields blank tail.tail := by
  have split : line = line.takeWhile blank ++ line.dropWhile blank :=
    List.takeWhile_append_dropWhile.symm
  have front : ∀ c ∈ line.takeWhile blank, blank c = true := fun c hc => List.mem_takeWhile_imp hc
  have skipped := fields_blanks front (line.dropWhile blank)
  rw [← split] at skipped
  cases hrest : line.dropWhile blank with
  | nil =>
    rw [hrest, List.append_nil] at split
    refine .inl ⟨split ▸ front, ?_⟩
    rw [skipped, hrest, fields_nil]
  | cons c rest =>
    have start : blank c = false := by
      have stop := List.head?_dropWhile_not blank line
      rwa [hrest] at stop
    have word : ∀ d ∈ (c :: rest).takeWhile (fun d => !blank d), blank d = false := fun d hd =>
      (Bool.not_eq_true' _).mp (List.mem_takeWhile_imp (p := fun d => !blank d) hd)
    have parts : (c :: rest).takeWhile (fun d => !blank d) ++
        (c :: rest).dropWhile (fun d => !blank d) = c :: rest := List.takeWhile_append_dropWhile
    have nonempty : (c :: rest).takeWhile (fun d => !blank d) ≠ [] := by
      rw [List.takeWhile_cons_of_pos (by rw [start]; rfl)]
      exact List.cons_ne_nil _ _
    have tail : ∀ d, ((c :: rest).dropWhile fun d => !blank d).head? = some d →
        blank d = true := by
      intro d hd
      have stop := List.head?_dropWhile_not (fun d => !blank d) (c :: rest)
      rw [hd] at stop
      simpa using stop
    refine .inr ⟨_, _, _, ?_, front, nonempty, word, tail, ?_⟩
    · rw [parts, ← hrest]
      exact split
    · rw [skipped, hrest, ← fields_word nonempty word tail, parts]

end Unics.Lib
