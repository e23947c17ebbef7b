import Mathlib.Computability.Language

/-!
# Matching a word from its front

A pattern that starts with a set of letters, or with any word at all, goes on with a language of its
own. The lemmas say what is left to match behind that start.
-/

namespace Unics.Lib

variable {α : Type}

/-- The words of one letter of a set. -/
def letters (set : Set α) : Language α := {word | ∃ c ∈ set, word = [c]}

/-- All words. -/
def anything : Language α := {_word | True}

/-- The words that a letter does not occur in. -/
def without (c : α) : Language α := {word | c ∉ word}

theorem nil_notMem_letters_mul (set : Set α) (l : Language α) : [] ∉ letters set * l := by
  intro h
  obtain ⟨_, ⟨c, _, rfl⟩, b, _, hword⟩ := Language.mem_mul.mp h
  exact List.cons_ne_nil c b hword

theorem cons_mem_letters_mul {set : Set α} {l : Language α} {c : α} {word : List α} :
    c :: word ∈ letters set * l ↔ c ∈ set ∧ word ∈ l := by
  constructor
  · intro h
    obtain ⟨_, ⟨d, hd, rfl⟩, b, hb, hword⟩ := Language.mem_mul.mp h
    obtain ⟨rfl, rfl⟩ := List.cons.inj hword
    exact ⟨hd, hb⟩
  · rintro ⟨hc, hword⟩
    exact Language.append_mem_mul (a := [c]) ⟨c, hc, rfl⟩ hword

theorem mem_anything_mul {l : Language α} {word : List α} :
    word ∈ anything * l ↔ ∃ rest, rest <:+ word ∧ rest ∈ l := by
  rw [Language.mem_mul]
  constructor
  · rintro ⟨a, -, b, hb, rfl⟩
    exact ⟨b, List.suffix_append a b, hb⟩
  · rintro ⟨rest, ⟨a, rfl⟩, hrest⟩
    exact ⟨a, trivial, rest, hrest, rfl⟩

/-- Whatever has to follow, something does. -/
theorem mem_mul_anything {l m : Language α} {word : List α} (h : word ∈ l * m) :
    word ∈ l * anything := by
  obtain ⟨a, ha, b, _, rfl⟩ := Language.mem_mul.mp h
  exact Language.append_mem_mul ha trivial

theorem nil_mem_anything_mul {l : Language α} : [] ∈ anything * l ↔ [] ∈ l := by
  rw [mem_anything_mul]
  constructor
  · rintro ⟨rest, hrest, hl⟩
    rwa [List.suffix_nil.mp hrest] at hl
  · intro hl
    exact ⟨[], List.suffix_refl [], hl⟩

/-- Any word may be left out, or one letter of it and more. -/
theorem cons_mem_anything_mul {l : Language α} {c : α} {word : List α} :
    c :: word ∈ anything * l ↔ c :: word ∈ l ∨ word ∈ anything * l := by
  rw [mem_anything_mul, mem_anything_mul]
  constructor
  · rintro ⟨rest, hrest, hl⟩
    rcases List.suffix_cons_iff.mp hrest with rfl | hmore
    · exact .inl hl
    · exact .inr ⟨rest, hmore, hl⟩
  · rintro (hl | ⟨rest, hrest, hl⟩)
    · exact ⟨c :: word, List.suffix_refl _, hl⟩
    · exact ⟨rest, hrest.trans (List.suffix_cons c word), hl⟩

theorem nil_mem_without_mul {l : Language α} {c : α} : [] ∈ without c * l ↔ [] ∈ l := by
  constructor
  · intro h
    obtain ⟨a, -, b, hb, hword⟩ := Language.mem_mul.mp h
    obtain ⟨-, rfl⟩ := List.append_eq_nil_iff.mp hword
    exact hb
  · intro h
    exact Language.append_mem_mul (a := []) List.not_mem_nil h

/-- One letter more may be left out where it is not the excluded one. -/
theorem cons_mem_without_mul {l : Language α} {c x : α} {word : List α} :
    x :: word ∈ without c * l ↔ x :: word ∈ l ∨ (x ≠ c ∧ word ∈ without c * l) := by
  constructor
  · intro h
    obtain ⟨a, ha, b, hb, hword⟩ := Language.mem_mul.mp h
    cases a with
    | nil =>
      rw [List.nil_append] at hword
      exact .inl (hword ▸ hb)
    | cons y a =>
      obtain ⟨rfl, rfl⟩ := List.cons.inj hword
      obtain ⟨hne, hrest⟩ := List.ne_and_not_mem_of_not_mem_cons ha
      exact .inr ⟨hne.symm, Language.append_mem_mul hrest hb⟩
  · rintro (h | ⟨hne, h⟩)
    · exact Language.append_mem_mul (a := []) List.not_mem_nil h
    · obtain ⟨a, ha, b, hb, rfl⟩ := Language.mem_mul.mp h
      have hfront : x :: a ∈ without c := List.not_mem_cons_of_ne_of_not_mem hne.symm ha
      exact Language.append_mem_mul hfront hb

end Unics.Lib
