import Mathlib.Data.List.Basic

/-!
# A loop with a number of turns

A loop whose turn may fail, run for at most a number of turns. A loop runs as any picture of it that
each turn keeps. `EndsAfter` is for a loop that may go on without end: it says how many turns the
loop takes before it is over.
-/

namespace Unics.Lib

variable {σ τ : Type}

/-- The loop, until it is done or the turns are used up. -/
def turns (done : σ → Bool) (turn : σ → Option σ) : ℕ → σ → Option σ
  | 0, s => some s
  | n + 1, s => if done s then some s else turn s >>= turns done turn n

section Turns

variable {done : σ → Bool} {turn : σ → Option σ} {n : ℕ} {s : σ}

theorem turns_of_done (h : done s = true) (n : ℕ) : turns done turn n s = some s := by
  cases n with
  | zero => rfl
  | succ n => exact if_pos h

theorem turns_succ (h : done s = false) (n : ℕ) :
    turns done turn (n + 1) s = turn s >>= turns done turn n :=
  if_neg (Bool.not_eq_true _ ▸ h)

/-- A loop seen through a function that each turn respects. -/
theorem turns_map {done' : τ → Bool} {turn' : τ → Option τ} (f : σ → τ)
    (hdone : ∀ s, done' (f s) = done s)
    (hturn : ∀ s, done s = false → (turn s).map f = turn' (f s)) (n : ℕ) (s : σ) :
    (turns done turn n s).map f = turns done' turn' n (f s) := by
  induction n generalizing s with
  | zero => rfl
  | succ n ih =>
    cases hs : done s with
    | true =>
      rw [turns_of_done hs, turns_of_done ((hdone s).trans hs)]
      rfl
    | false =>
      rw [turns_succ hs, turns_succ ((hdone s).trans hs), ← hturn s hs]
      cases turn s with
      | none => rfl
      | some t => exact ih t

/-- What every turn keeps, the loop keeps. -/
theorem turns_invariant {I : σ → Prop}
    (hturn : ∀ s t, I s → done s = false → turn s = some t → I t) {t : σ} (h : I s)
    (hrun : turns done turn n s = some t) : I t := by
  induction n generalizing s with
  | zero => exact Option.some.inj hrun ▸ h
  | succ n ih =>
    cases hs : done s with
    | true =>
      rw [turns_of_done hs] at hrun
      exact Option.some.inj hrun ▸ h
    | false =>
      rw [turns_succ hs] at hrun
      obtain ⟨u, hu, hrest⟩ := Option.bind_eq_some_iff.mp hrun
      exact ih (hturn s u h hs hu) hrest

/-- A loop whose turns do not fail and make something smaller comes to its end. -/
theorem turns_ends {I : σ → Prop} (rank : σ → ℕ)
    (hturn : ∀ s, I s → done s = false → ∃ t, turn s = some t ∧ I t ∧ rank t < rank s) (h : I s)
    (hn : rank s ≤ n) : ∃ t, turns done turn n s = some t ∧ done t = true ∧ I t := by
  induction n generalizing s with
  | zero =>
    cases hs : done s with
    | true => exact ⟨s, rfl, hs, h⟩
    | false =>
      obtain ⟨t, -, -, hlt⟩ := hturn s h hs
      exact absurd hlt (Nat.not_lt.mpr (Nat.le_trans hn (Nat.zero_le _)))
  | succ n ih =>
    cases hs : done s with
    | true => exact ⟨s, turns_of_done hs _, hs, h⟩
    | false =>
      obtain ⟨t, ht, hI, hlt⟩ := hturn s h hs
      rw [turns_succ hs, ht]
      exact ih hI (Nat.le_of_lt_succ (Nat.lt_of_lt_of_le hlt hn))

end Turns

section Endless

variable {next : σ → Option σ} {n m : ℕ} {s : σ}

/-- The loop takes so many turns, and then it is over. -/
def EndsAfter (next : σ → Option σ) : ℕ → σ → Prop
  | 0, s => next s = none
  | n + 1, s => ∃ t, next s = some t ∧ EndsAfter next n t

theorem EndsAfter.unique (hn : EndsAfter next n s) (hm : EndsAfter next m s) : n = m := by
  induction n generalizing m s with
  | zero =>
    cases m with
    | zero => rfl
    | succ m =>
      obtain ⟨t, ht, -⟩ := hm
      exact absurd (ht.symm.trans hn) (Option.some_ne_none t)
  | succ n ih =>
    obtain ⟨t, ht, hn⟩ := hn
    cases m with
    | zero => exact absurd (ht.symm.trans hm) (Option.some_ne_none t)
    | succ m =>
      obtain ⟨u, hu, hm⟩ := hm
      cases Option.some.inj (ht.symm.trans hu)
      exact congrArg (· + 1) (ih hn hm)

/-- A loop that always takes another turn does not end. -/
theorem not_endsAfter {I : σ → Prop} (hnext : ∀ s, I s → ∃ t, next s = some t ∧ I t) (h : I s) :
    ¬ EndsAfter next n s := by
  induction n generalizing s with
  | zero =>
    obtain ⟨t, ht, -⟩ := hnext s h
    exact fun hend => Option.some_ne_none t (ht.symm.trans hend)
  | succ n ih =>
    obtain ⟨t, ht, hI⟩ := hnext s h
    rintro ⟨u, hu, hend⟩
    cases Option.some.inj (ht.symm.trans hu)
    exact ih hI hend

end Endless

end Unics.Lib
