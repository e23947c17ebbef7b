import Mathlib.Data.Nat.Notation
import Mathlib.Tactic.Common

/-!
# Bisection

The search for a place in a table by halving what is left of it. Asking at a place answers whether
what is sought is there, before it or behind it. The answers come from a state and may be anything:
the search ends, and asks only at places of the table. Where the answers are those of an ordered
table, it finds what is there.
-/

namespace Unics.Lib

variable {σ : Type}

/-- The search among the places `lo ≤ k < hi`. -/
def bisect (ask : σ → ℕ → Int × σ) (s : σ) (lo hi : ℕ) : Option ℕ × σ :=
  if _h : lo < hi then
    let mid := lo + (hi - lo) / 2
    let answer := ask s mid
    if answer.1 = 0 then (some mid, answer.2)
    else if answer.1 < 0 then bisect ask answer.2 lo mid
    else bisect ask answer.2 (mid + 1) hi
  else (none, s)
termination_by hi - lo

/-- Going up the table, the answers go from positive over zero to negative. -/
def Falls (order : ℕ → Int) (hi : ℕ) : Prop :=
  ∀ i j, i < j → j < hi → (order i < 0 → order j < 0) ∧ (0 < order j → 0 < order i)

/-- The answers are those of the table, whatever the state is. -/
def AsksBy (ask : σ → ℕ → Int × σ) (order : ℕ → Int) (hi : ℕ) : Prop :=
  ∀ s, ∀ k < hi, (ask s k).1 = order k

section Bisect

variable {ask : σ → ℕ → Int × σ} {order : ℕ → Int} {s : σ} {lo hi : ℕ}

/-- A place that is found lies in the table, and the answer there was zero. -/
theorem bisect_sound {k : ℕ} (h : (bisect ask s lo hi).1 = some k) :
    lo ≤ k ∧ k < hi ∧ ∃ t, (ask t k).1 = 0 := by
  fun_induction bisect ask s lo hi with
  | case1 s lo hi hlt mid answer hzero =>
    obtain rfl := Option.some.inj h
    exact ⟨by omega, by omega, s, hzero⟩
  | case2 s lo hi hlt mid answer hne hneg ih =>
    obtain ⟨hlow, hhigh, hzero⟩ := ih h
    exact ⟨hlow, by omega, hzero⟩
  | case3 s lo hi hlt mid answer hne hneg ih =>
    obtain ⟨hlow, hhigh, hzero⟩ := ih h
    exact ⟨by omega, hhigh, hzero⟩
  | case4 => cases h

/-- No place with the answer zero is given up. -/
theorem bisect_complete {n k : ℕ} (hfalls : Falls order n) (hask : AsksBy ask order n)
    (hn : hi ≤ n) (hlow : lo ≤ k) (hhigh : k < hi) (hzero : order k = 0) :
    (bisect ask s lo hi).1 ≠ none := by
  fun_induction bisect ask s lo hi with
  | case1 s lo hi hlt mid answer hstop => exact Option.some_ne_none mid
  | case2 s lo hi hlt mid answer hne hneg ih =>
    have here : order mid < 0 := by
      rw [← hask s mid (by omega)]
      exact hneg
    have before : k < mid := by
      by_contra hnot
      rcases Nat.lt_or_eq_of_le (Nat.not_lt.mp hnot) with hlater | hsame
      · have negative := (hfalls mid k hlater (by omega)).1 here
        omega
      · rw [hsame] at here
        omega
    exact ih (by omega) hlow before
  | case3 s lo hi hlt mid answer hne hneg ih =>
    have here : 0 < order mid := by
      rw [← hask s mid (by omega)]
      exact Int.lt_iff_le_and_ne.mpr ⟨Int.not_lt.mp hneg, Ne.symm hne⟩
    have behind : mid < k := by
      by_contra hnot
      rcases Nat.lt_or_eq_of_le (Nat.not_lt.mp hnot) with hearlier | hsame
      · have positive := (hfalls k mid hearlier (by omega)).2 here
        omega
      · rw [← hsame] at here
        omega
    exact ih hn (by omega) hhigh
  | case4 => omega

theorem bisect_isSome_iff (hfalls : Falls order hi) (hask : AsksBy ask order hi) (s : σ) :
    (∃ k, (bisect ask s 0 hi).1 = some k) ↔ ∃ k < hi, order k = 0 := by
  constructor
  · rintro ⟨k, hfound⟩
    obtain ⟨-, hhigh, t, hzero⟩ := bisect_sound hfound
    exact ⟨k, hhigh, (hask t k hhigh).symm.trans hzero⟩
  · rintro ⟨k, hhigh, hzero⟩
    exact Option.ne_none_iff_exists'.mp
      (bisect_complete hfalls hask (Nat.le_refl hi) (Nat.zero_le k) hhigh hzero)

end Bisect

end Unics.Lib
