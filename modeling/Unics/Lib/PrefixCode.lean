import Mathlib.Data.List.Infix

/-!
# Codes

A list is encoded one element after the other. If no code word is the beginning of another, what is
encoded can be told up to the code words, and no two lists have one encoding exactly if no two
elements have one code word.
-/

namespace Unics.Lib

variable {α β : Type} {code : α → List β}

/-- A code word that begins another is that code word. -/
def PrefixFree (code : α → List β) : Prop := ∀ a b, code a <+: code b → code a = code b

/-- The code words of an encoding can be told. -/
theorem PrefixFree.map_eq (h : PrefixFree code) (hne : ∀ a, code a ≠ []) {s t : List α}
    (heq : s.flatMap code = t.flatMap code) : s.map code = t.map code := by
  induction s generalizing t with
  | nil =>
    cases t with
    | nil => rfl
    | cons b t =>
      rw [List.flatMap_nil, List.flatMap_cons] at heq
      exact absurd (List.append_eq_nil_iff.mp heq.symm).1 (hne b)
  | cons a s ih =>
    cases t with
    | nil =>
      rw [List.flatMap_nil, List.flatMap_cons] at heq
      exact absurd (List.append_eq_nil_iff.mp heq).1 (hne a)
    | cons b t =>
      rw [List.flatMap_cons, List.flatMap_cons] at heq
      have first : code a = code b := by
        have here : code a <+: code b ++ t.flatMap code := ⟨_, heq⟩
        rcases List.prefix_or_prefix_of_prefix here (List.prefix_append _ _) with hab | hba
        · exact h a b hab
        · exact (h b a hba).symm
      rw [first] at heq
      rw [List.map_cons, List.map_cons, first, ih (List.append_cancel_left heq)]

theorem PrefixFree.flatMap_injective_iff (h : PrefixFree code) (hne : ∀ a, code a ≠ []) :
    (∀ s t : List α, s.flatMap code = t.flatMap code → s = t) ↔ Function.Injective code := by
  constructor
  · intro hlists a b hab
    have singles : [a].flatMap code = [b].flatMap code := by
      rw [List.flatMap_singleton, List.flatMap_singleton, hab]
    exact List.singleton_inj.mp (hlists [a] [b] singles)
  · intro hcode s t heq
    exact List.map_injective_iff.mpr hcode (h.map_eq hne heq)

end Unics.Lib
