import Mathlib.Data.List.Basic

/-!
# Checked code

Code whose accesses are checked answers an `Option`: `none` where it would go outside its bounds.
`Ends x Q` says that it does not, and that `Q` holds of what it answers. The rules follow the shape
of the code: a result, a step and what comes after it, a loop over a list or over a range. `BothEnd`
is the same for two pieces of code that are compared.
-/

namespace Unics.Lib

universe u v

variable {σ τ : Type u} {α : Type v}

/-- The code ends, in a state with `Q`. -/
def Ends (x : Option σ) (Q : σ → Prop) : Prop := ∃ s, x = some s ∧ Q s

@[simp] theorem ends_some {s : σ} {Q : σ → Prop} : Ends (some s) Q ↔ Q s :=
  ⟨fun ⟨_, heq, h⟩ => Option.some.inj heq ▸ h, fun h => ⟨s, rfl, h⟩⟩

theorem Ends.mono {x : Option σ} {P Q : σ → Prop} (h : Ends x P) (hpq : ∀ s, P s → Q s) :
    Ends x Q :=
  let ⟨s, heq, hp⟩ := h
  ⟨s, heq, hpq s hp⟩

/-- A step, and then the rest. -/
theorem Ends.bind {x : Option σ} {f : σ → Option τ} {P : σ → Prop} {Q : τ → Prop} (h : Ends x P)
    (hf : ∀ s, P s → Ends (f s) Q) : Ends (x >>= f) Q := by
  obtain ⟨s, rfl, hp⟩ := h
  exact hf s hp

theorem Ends.map {x : Option σ} {f : σ → τ} {P : σ → Prop} {Q : τ → Prop} (h : Ends x P)
    (hf : ∀ s, P s → Q (f s)) : Ends (x.map f) Q := by
  obtain ⟨s, rfl, hp⟩ := h
  exact ⟨f s, rfl, hf s hp⟩

/-- Two pieces of code end, in states with `R`. -/
def BothEnd {σ' : Type u} (x : Option σ) (y : Option σ') (R : σ → σ' → Prop) : Prop :=
  ∃ s t, x = some s ∧ y = some t ∧ R s t

theorem bothEnd_some {σ' : Type u} {s : σ} {t : σ'} {R : σ → σ' → Prop} :
    BothEnd (some s) (some t) R ↔ R s t := by
  constructor
  · rintro ⟨_, _, hs, ht, h⟩
    rw [Option.some.inj hs, Option.some.inj ht]
    exact h
  · exact fun h => ⟨s, t, rfl, rfl, h⟩

/-- A step of each, and then the rest of each. -/
theorem BothEnd.bind {σ' τ' : Type u} {x : Option σ} {y : Option σ'} {f : σ → Option τ}
    {g : σ' → Option τ'} {R : σ → σ' → Prop} {Q : τ → τ' → Prop} (h : BothEnd x y R)
    (hf : ∀ s t, R s t → BothEnd (f s) (g t) Q) : BothEnd (x >>= f) (y >>= g) Q := by
  obtain ⟨s, t, rfl, rfl, hr⟩ := h
  exact hf s t hr

/-- Every step of a list answers. -/
theorem mapM_eq_map {β : Type} {f : α → Option β} {g : α → β} {l : List α}
    (h : ∀ a ∈ l, f a = some (g a)) : l.mapM f = some (l.map g) := by
  induction l with
  | nil => rfl
  | cons a l ih =>
    rw [List.mapM_cons, h a List.mem_cons_self, ih fun b hb => h b (List.mem_cons_of_mem a hb)]
    rfl

/-- What follows from an answer of either branch follows from the answer of a choice. -/
theorem of_ite_eq_some {p : Prop} [Decidable p] {x y : Option σ} {s : σ} {P : Prop}
    (hx : x = some s → P) (hy : y = some s → P) (h : (if p then x else y) = some s) : P := by
  by_cases hp : p
  · exact hx ((if_pos hp).symm.trans h)
  · exact hy ((if_neg hp).symm.trans h)

section Loops

variable {f : σ → α → Option σ} {s : σ}

/-- What each turn of a loop keeps, the loop keeps. -/
theorem Ends.foldlM {I : σ → Prop} {l : List α} (hturn : ∀ a ∈ l, ∀ s, I s → Ends (f s a) I)
    (h : I s) : Ends (l.foldlM f s) I := by
  induction l generalizing s with
  | nil => exact ends_some.mpr h
  | cons a l ih =>
    rw [List.foldlM_cons]
    exact (hturn a List.mem_cons_self s h).bind fun t ht =>
      ih (fun b hb => hturn b (List.mem_cons_of_mem a hb)) ht

/-- A loop over one list and then another. -/
theorem Ends.append {P Q : σ → Prop} {l m : List α} (h : Ends (l.foldlM f s) P)
    (hm : ∀ t, P t → Ends (m.foldlM f t) Q) : Ends ((l ++ m).foldlM f s) Q := by
  rw [List.foldlM_append]
  exact h.bind hm

/-- A loop that counts: the invariant knows the number of the turn. -/
theorem Ends.range' {f : σ → Nat → Option σ} {I : Nat → σ → Prop} {a n : Nat}
    (hturn : ∀ i, a ≤ i → i < a + n → ∀ s, I i s → Ends (f s i) (I (i + 1))) (h : I a s) :
    Ends ((List.range' a n).foldlM f s) (I (a + n)) := by
  induction n generalizing a s with
  | zero => exact ends_some.mpr h
  | succ n ih =>
    rw [List.range'_succ, List.foldlM_cons]
    refine (hturn a (Nat.le_refl a) (Nat.lt_add_of_pos_right n.succ_pos) s h).bind fun t ht => ?_
    have count : a + (n + 1) = a + 1 + n := by omega
    rw [count]
    exact ih (fun i hi hlt => hturn i (by omega) (by omega)) ht

/-- The last turn of a loop that counts. -/
theorem foldlM_range'_succ (f : σ → Nat → Option σ) (s : σ) (a n : Nat) :
    (List.range' a (n + 1)).foldlM f s =
      ((List.range' a n).foldlM f s).bind fun t => f t (a + n) := by
  rw [List.range'_concat, List.foldlM_append, Nat.one_mul]
  refine congrArg (Option.bind _) (funext fun t => ?_)
  rw [List.foldlM_cons]
  exact bind_pure _

end Loops

end Unics.Lib
