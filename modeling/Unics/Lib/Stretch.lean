import Mathlib.Algebra.BigOperators.Intervals

/-!
# Stretches of places

Two ways to go over the places below a bound, apart from any table of them.

- `strides`: from each place on by its stride. Where the strides tile the places, a sum over the
  places that the walk comes to is a sum over all places (`sum_strides`).
- `longestRun`: place by place, counting the places in a row that have a property. It reaches `k`
  exactly when some `k` places in a row have it (`le_longestRun_iff`).
-/

namespace Unics.Lib

/-! ## Strides -/

/-- The places below `bound` that a walk from `i` on comes to, going on from each by its stride. -/
def strides (stride : Nat → Nat) (bound : Nat) : Nat → Nat → List Nat
  | 0, _ => []
  | fuel + 1, i =>
    if i < bound then i :: strides stride bound fuel (i + stride i) else []

/-- Every stride is a step, and none leads past the bound. -/
structure Tiles (stride : Nat → Nat) (bound : Nat) : Prop where
  pos : ∀ i < bound, 0 < stride i
  fits : ∀ i < bound, i + stride i ≤ bound

/-- What each stride adds up to, the walk adds up to. The summands stand on both sides, so that no
subtraction is needed: `g` is what the walk counts, `a` what it should not have, `b` what it should.
-/
theorem sum_strides {M : Type*} [AddCommMonoid M] {stride : Nat → Nat} {bound : Nat}
    (h : Tiles stride bound) {g a b : Nat → M}
    (hstride : ∀ k < bound,
      g k + ∑ j ∈ Finset.Ico k (k + stride k), a j = ∑ j ∈ Finset.Ico k (k + stride k), b j)
    {fuel i : Nat} (hi : i ≤ bound) (hfuel : bound ≤ i + fuel) :
    ((strides stride bound fuel i).map g).sum + ∑ j ∈ Finset.Ico i bound, a j =
      ∑ j ∈ Finset.Ico i bound, b j := by
  have nothing {i : Nat} (hi : i = bound) (f : Nat → M) : ∑ j ∈ Finset.Ico i bound, f j = 0 := by
    rw [hi, Finset.Ico_self, Finset.sum_empty]
  induction fuel generalizing i with
  | zero =>
    have last : i = bound := by omega
    rw [nothing last, nothing last]
    exact add_zero 0
  | succ fuel ih =>
    rw [strides]
    split
    · next hlt =>
      have pos := h.pos i hlt
      have fits := h.fits i hlt
      have rest := ih fits (by omega)
      have parts (f : Nat → M) : ∑ j ∈ Finset.Ico i bound, f j =
          ∑ j ∈ Finset.Ico i (i + stride i), f j + ∑ j ∈ Finset.Ico (i + stride i) bound, f j :=
        (Finset.sum_Ico_consecutive f (Nat.le_add_right i _) fits).symm
      rw [List.map_cons, List.sum_cons, parts a, parts b, ← hstride i hlt, ← rest]
      exact add_add_add_comm _ _ _ _
    · next hge =>
      have last : i = bound := by omega
      rw [nothing last, nothing last]
      exact add_zero 0

/-! ## Runs of places -/

section Longest

variable (p : Nat → Prop) [DecidablePred p]

/-- How many places in a row, up to `n`, have the property. -/
def runBefore : Nat → Nat
  | 0 => 0
  | n + 1 => if p n then runBefore n + 1 else 0

/-- The most places in a row below `n` that have the property. -/
def longestRun : Nat → Nat
  | 0 => 0
  | n + 1 => max (longestRun n) (runBefore p (n + 1))

variable {p}

theorem le_runBefore_iff {n k : Nat} :
    k ≤ runBefore p n ↔ k ≤ n ∧ ∀ j < n, n ≤ j + k → p j := by
  induction n generalizing k with
  | zero =>
    rw [runBefore]
    exact ⟨fun h => ⟨h, fun j hj => absurd hj (Nat.not_lt_zero j)⟩, fun h => h.1⟩
  | succ n ih =>
    rw [runBefore]
    cases k with
    | zero => exact iff_of_true (Nat.zero_le _) ⟨Nat.zero_le _, fun j hj hle => by omega⟩
    | succ k =>
      split
      · next hp =>
        rw [Nat.succ_le_succ_iff, ih, Nat.succ_le_succ_iff]
        refine and_congr_right fun _ => ⟨fun h j hj hle => ?_, fun h j hj hle => ?_⟩
        · by_cases hjn : j = n
          · exact hjn ▸ hp
          · exact h j (by omega) (by omega)
        · exact h j (by omega) (by omega)
      · next hp =>
        refine iff_of_false (by omega) fun h => hp ?_
        exact h.2 n (by omega) (by omega)

/-- The longest run reaches `k` exactly when there are `k` places in a row. -/
theorem le_longestRun_iff {n k : Nat} :
    k ≤ longestRun p n ↔ ∃ i, i + k ≤ n ∧ ∀ j < k, p (i + j) := by
  induction n with
  | zero =>
    rw [longestRun]
    constructor
    · intro hk
      exact ⟨0, by omega, fun j hj => by omega⟩
    · rintro ⟨i, hi, -⟩
      omega
  | succ n ih =>
    rw [longestRun, le_max_iff, ih, le_runBefore_iff]
    constructor
    · rintro (⟨i, hi, hrun⟩ | ⟨hk, hrun⟩)
      · exact ⟨i, by omega, hrun⟩
      · exact ⟨n + 1 - k, by omega, fun j hj => hrun _ (by omega) (by omega)⟩
    · rintro ⟨i, hi, hrun⟩
      by_cases hlast : i + k = n + 1
      · refine .inr ⟨by omega, fun j hj hle => ?_⟩
        have here := hrun (j - i) (by omega)
        rwa [Nat.add_sub_cancel' (by omega)] at here
      · exact .inl ⟨i, by omega, hrun⟩

theorem longestRun_le (n : Nat) : longestRun p n ≤ n := by
  obtain ⟨i, hi, -⟩ := le_longestRun_iff.mp (Nat.le_refl (longestRun p n))
  omega

theorem runBefore_le_longestRun (n : Nat) : runBefore p n ≤ longestRun p n := by
  cases n with
  | zero => exact Nat.le_refl 0
  | succ n => exact Nat.le_max_right _ _

end Longest

end Unics.Lib
