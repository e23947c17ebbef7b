import Mathlib.Algebra.Ring.GeomSum
import Mathlib.Data.Nat.ModEq
import Mathlib.Data.Nat.Prime.Basic
import Mathlib.Dynamics.PeriodicPts.Defs
import Mathlib.SetTheory.Cardinal.Finite
import Mathlib.Tactic.Linarith
import Mathlib.Tactic.Ring

/-!
# Linear congruential generators modulo a power of two

A generator takes `x` to `a * x + c`. After `n` steps it has gone by a multiple of the geometric sum
of the powers of `a` below `n`. If `a` is 1 modulo 4, a power of two divides that sum exactly if it
divides `n`, by induction on the power: an even sum of `n` terms has an even number of terms, and
its halves differ by a factor that is 2 modulo 4. So with an odd `c` every word comes up before one
comes up again. Below a multiple of a range all remainders are of as many words.
-/

namespace Unics.Lib

open Finset Function

/-! ## Geometric sums -/

/-- The sum of the powers below `n`. -/
def geometric (a n : ℕ) : ℕ := ∑ i ∈ range n, a ^ i

section Geometric

variable {a : ℕ}

theorem geometric_succ (a n : ℕ) : geometric a (n + 1) = geometric a n + a ^ n :=
  sum_range_succ _ n

/-- The second half of the terms is a multiple of the first. -/
theorem geometric_double (a n : ℕ) : geometric a (2 * n) = geometric a n * (a ^ n + 1) := by
  have second : ∑ i ∈ range n, a ^ (n + i) = a ^ n * geometric a n := by
    rw [geometric, mul_sum]
    exact sum_congr rfl fun i _ => pow_add a n i
  rw [geometric, two_mul, sum_range_add, second, mul_add, mul_one, mul_comm (geometric a n),
    add_comm]
  rfl

theorem pow_mod_four (ha : a % 4 = 1) (n : ℕ) : a ^ n % 4 = 1 := by
  rw [Nat.pow_mod, ha, one_pow, Nat.one_mod]

/-- Odd terms have the parity of their number. -/
theorem two_dvd_geometric_iff (ha : a % 4 = 1) (n : ℕ) : 2 ∣ geometric a n ↔ 2 ∣ n := by
  induction n with
  | zero => exact iff_of_true (dvd_zero 2) (dvd_zero 2)
  | succ n ih =>
    have odd := pow_mod_four ha n
    rw [geometric_succ]
    omega

/-- A power of two divides the sum exactly if it divides the number of terms. -/
theorem two_pow_dvd_geometric_iff (ha : a % 4 = 1) (k n : ℕ) :
    2 ^ k ∣ geometric a n ↔ 2 ^ k ∣ n := by
  induction k generalizing n with
  | zero => exact iff_of_true (one_dvd _) (one_dvd _)
  | succ k ih =>
    by_cases heven : 2 ∣ n
    · obtain ⟨m, rfl⟩ := heven
      obtain ⟨u, hu⟩ : ∃ u, a ^ m + 1 = 2 * (2 * u + 1) := by
        have odd := pow_mod_four ha m
        exact ⟨(a ^ m - 1) / 4, by omega⟩
      have coprime : Nat.Coprime (2 ^ k) (2 * u + 1) :=
        Nat.Coprime.pow_left k (Nat.coprime_two_left.mpr ⟨u, rfl⟩)
      calc 2 ^ (k + 1) ∣ geometric a (2 * m)
        _ ↔ 2 ^ k * 2 ∣ geometric a m * (2 * u + 1) * 2 := by
          rw [geometric_double, hu, pow_succ, mul_comm 2 (2 * u + 1), mul_assoc]
        _ ↔ 2 ^ k ∣ geometric a m * (2 * u + 1) := Nat.mul_dvd_mul_iff_right two_pos
        _ ↔ 2 ^ k ∣ geometric a m := coprime.dvd_mul_right
        _ ↔ 2 ^ k ∣ m := ih m
        _ ↔ 2 ^ (k + 1) ∣ 2 * m := by
          rw [pow_succ, mul_comm 2 m]
          exact (Nat.mul_dvd_mul_iff_right two_pos).symm
    · have no_power (n : ℕ) (h : ¬ 2 ∣ n) : ¬ 2 ^ (k + 1) ∣ n := fun hpow =>
        h ((dvd_pow_self 2 (Nat.succ_ne_zero k)).trans hpow)
      exact iff_of_false (no_power _ (mt (two_dvd_geometric_iff ha n).mp heven))
        (no_power n heven)

end Geometric

/-! ## The generator -/

section Generator

/-- A step on the numbers. -/
def congruential (a c x : ℕ) : ℕ := a * x + c

variable {a c : ℕ}

theorem iterate_congruential (a c n x : ℕ) :
    (congruential a c)^[n] x = a ^ n * x + geometric a n * c := by
  induction n with
  | zero => simp [geometric]
  | succ n ih =>
    have next : a * geometric a n + 1 = geometric a (n + 1) := by
      rw [geometric, geometric, sum_range_succ', mul_sum, pow_zero]
      exact congrArg (· + 1) (sum_congr rfl fun i _ => (pow_succ' a i).symm)
    rw [iterate_succ_apply', ih, congruential, ← next]
    ring

/-- What `n` steps add. -/
theorem iterate_congruential_eq (q c n x : ℕ) :
    (congruential (q + 1) c)^[n] x = x + geometric (q + 1) n * (q * x + c) := by
  have power : (q + 1) ^ n = geometric (q + 1) n * q + 1 := (geom_sum_mul_add q n).symm
  rw [iterate_congruential, power]
  ring

/-- The generator is back, modulo a power of two, exactly after the multiples of the power. -/
theorem iterate_congruential_modEq_iff (ha : a % 4 = 1) (hc : c % 2 = 1) (k n x : ℕ) :
    (congruential a c)^[n] x ≡ x [MOD 2 ^ k] ↔ 2 ^ k ∣ n := by
  obtain ⟨q, rfl⟩ : ∃ q, a = q + 1 := ⟨a - 1, by omega⟩
  have even : q * x % 2 = 0 := by
    rw [Nat.mul_mod, show q % 2 = 0 by omega, Nat.zero_mul]
  have coprime : Nat.Coprime (2 ^ k) (q * x + c) :=
    Nat.Coprime.pow_left k (Nat.coprime_two_left.mpr (Nat.odd_iff.mpr (by omega)))
  calc (congruential (q + 1) c)^[n] x ≡ x [MOD 2 ^ k]
    _ ↔ 2 ^ k ∣ geometric (q + 1) n * (q * x + c) := by
      rw [iterate_congruential_eq]
      exact Nat.add_modEq_left_iff
    _ ↔ 2 ^ k ∣ geometric (q + 1) n := coprime.dvd_mul_right
    _ ↔ 2 ^ k ∣ n := two_pow_dvd_geometric_iff ha k n

end Generator

/-! ## Words -/

section Words

variable {w : ℕ} {a c x : BitVec w}

theorem toNat_iterate (a c : BitVec w) (n : ℕ) (x : BitVec w) :
    ((fun x => a * x + c)^[n] x).toNat = (congruential a.toNat c.toNat)^[n] x.toNat % 2 ^ w := by
  induction n with
  | zero => exact (Nat.mod_eq_of_lt x.isLt).symm
  | succ n ih =>
    rw [iterate_succ_apply', iterate_succ_apply', BitVec.toNat_add, BitVec.toNat_mul, ih,
      congruential, Nat.mul_mod_mod, Nat.mod_add_mod]

/-- Every word comes up before one comes up again. -/
theorem minimalPeriod_eq (ha : a.toNat % 4 = 1) (hc : c.toNat % 2 = 1) (x : BitVec w) :
    minimalPeriod (fun x => a * x + c) x = 2 ^ w := by
  have periods (n : ℕ) : minimalPeriod (fun x => a * x + c) x ∣ n ↔ 2 ^ w ∣ n := by
    rw [← isPeriodicPt_iff_minimalPeriod_dvd,
      ← iterate_congruential_modEq_iff ha hc w n x.toNat]
    refine BitVec.toNat_inj.symm.trans ?_
    rw [toNat_iterate, Nat.ModEq, Nat.mod_eq_of_lt x.isLt]
  exact Nat.dvd_antisymm ((periods _).mpr dvd_rfl) ((periods _).mp dvd_rfl)

/-- A map of words with the longest period reaches every word, once in a period. -/
theorem existsUnique_iterate {f : BitVec w → BitVec w} (h : minimalPeriod f x = 2 ^ w)
    (y : BitVec w) : ∃! n, n < 2 ^ w ∧ f^[n] x = y := by
  have inj : Injective fun n : Fin (2 ^ w) => (f^[n] x).toFin := by
    intro m n hmn
    refine Fin.ext (iterate_injOn_Iio_minimalPeriod ?_ ?_ (BitVec.toFin_inj.mp hmn))
    · rw [h]
      exact m.isLt
    · rw [h]
      exact n.isLt
  obtain ⟨n, hn⟩ := Finite.injective_iff_surjective.mp inj y.toFin
  refine ⟨n, ⟨n.isLt, BitVec.toFin_inj.mp hn⟩, fun m hm => ?_⟩
  have same : (⟨m, hm.1⟩ : Fin (2 ^ w)) = n := inj ((congrArg BitVec.toFin hm.2).trans hn.symm)
  exact congrArg Fin.val same

/-- Within a period, every property holds as often as it holds of words. -/
theorem card_iterate {f : BitVec w → BitVec w} (h : minimalPeriod f x = 2 ^ w)
    (P : BitVec w → Prop) :
    Nat.card {n : ℕ // n < 2 ^ w ∧ P (f^[n] x)} = Nat.card {y : BitVec w // P y} := by
  let visit (n : {n : ℕ // n < 2 ^ w ∧ P (f^[n] x)}) : {y : BitVec w // P y} :=
    ⟨f^[n] x, n.property.2⟩
  refine Nat.card_eq_of_bijective visit ⟨fun m n hmn => ?_, fun y => ?_⟩
  · obtain ⟨_, -, unique⟩ := existsUnique_iterate h (f^[m] x)
    have same : f^[m] x = f^[n] x := congrArg Subtype.val hmn
    exact Subtype.ext ((unique m ⟨m.property.1, rfl⟩).trans
      (unique n ⟨n.property.1, same.symm⟩).symm)
  · obtain ⟨n, ⟨hn, hy⟩, -⟩ := existsUnique_iterate h y.val
    exact ⟨⟨n, hn, hy.symm ▸ y.property⟩, Subtype.ext hy⟩

end Words

/-! ## The high bits -/

section High

variable {w k : ℕ}

/-- What is left of a word without its `k` lowest bits. -/
def high (k : ℕ) (x : BitVec w) : ℕ := x.toNat / 2 ^ k

/-- There are as many words with the same high bits as there are low bits. -/
theorem card_high (hk : k ≤ w) {v : ℕ} (hv : v < 2 ^ (w - k)) :
    Nat.card {x : BitVec w // high k x = v} = 2 ^ k := by
  have whole : 2 ^ (w - k) * 2 ^ k = 2 ^ w := by rw [← pow_add, Nat.sub_add_cancel hk]
  have below (low : Fin (2 ^ k)) : v * 2 ^ k + low < 2 ^ w :=
    calc v * 2 ^ k + low
      _ < v * 2 ^ k + 2 ^ k := Nat.add_lt_add_left low.isLt _
      _ = (v + 1) * 2 ^ k := (Nat.succ_mul _ _).symm
      _ ≤ 2 ^ (w - k) * 2 ^ k := Nat.mul_le_mul_right _ hv
      _ = 2 ^ w := whole
  have value (low : Fin (2 ^ k)) : (BitVec.ofNat w (v * 2 ^ k + low)).toNat = v * 2 ^ k + low :=
    Nat.mod_eq_of_lt (below low)
  have quotient (low : Fin (2 ^ k)) : (v * 2 ^ k + low) / 2 ^ k = v := by
    rw [Nat.add_comm, Nat.add_mul_div_right _ _ (Nat.two_pow_pos k), Nat.div_eq_of_lt low.isLt,
      Nat.zero_add]
  let word (low : Fin (2 ^ k)) : {x : BitVec w // high k x = v} :=
    ⟨BitVec.ofNat w (v * 2 ^ k + low), by rw [high, value, quotient]⟩
  have bijective : Bijective word := by
    constructor
    · intro a b hab
      have same := congrArg BitVec.toNat (congrArg Subtype.val hab)
      rw [value, value] at same
      exact Fin.ext (Nat.add_left_cancel same)
    · rintro ⟨x, hx⟩
      refine ⟨⟨x.toNat % 2 ^ k, Nat.mod_lt _ (Nat.two_pow_pos k)⟩,
        Subtype.ext (BitVec.eq_of_toNat_eq ?_)⟩
      have parts := Nat.div_add_mod' x.toNat (2 ^ k)
      rw [show x.toNat / 2 ^ k = v from hx] at parts
      exact (value _).trans parts
  rw [← Nat.card_eq_of_bijective word bijective, Nat.card_eq_fintype_card, Fintype.card_fin]

/-- An affine map modulo `n` that keeps every number in its block of `m` is the identity, where
there is room for three blocks and a block has two numbers. The numbers of the first block go to
numbers of it with one difference, which is positive for the step into the second block. -/
theorem affine_identity {a c m n : ℕ} (hm : 1 < m) (hn : 3 * m ≤ n)
    (h : ∀ y < n, (a * y + c) % n / m = y / m) : a % n = 1 ∧ c % n = 0 := by
  have first (y : ℕ) (hy : y < m) : (a * y + c) % n < m := by
    have block := h y (by omega)
    rw [Nat.div_eq_of_lt hy] at block
    exact (Nat.div_eq_zero_iff_lt (by omega)).mp block
  have second : m ≤ (a * m + c) % n ∧ (a * m + c) % n < 2 * m := by
    have block := h m (by omega)
    rw [Nat.div_self (by omega)] at block
    have parts := Nat.div_add_mod ((a * m + c) % n) m
    have low := Nat.mod_lt ((a * m + c) % n) (by omega : m > 0)
    rw [block] at parts
    omega
  have below (y : ℕ) (hy : y ≤ m) : (a * y + c) % n < 2 * m := by
    rcases Nat.lt_or_eq_of_le hy with hlt | rfl
    · have := first y hlt
      omega
    · exact second.2
  -- all steps of the first block, and the one out of it, are congruent and too small to differ
  have step (y : ℕ) (hy : y < m) : (((a * (y + 1) + c) % n : ℕ) : ℤ) - ((a * y + c) % n : ℕ) =
      ((a * 1 + c) % n : ℕ) - ((a * 0 + c) % n : ℕ) := by
    have divides : (n : ℤ) ∣ (((a * (y + 1) + c) % n : ℕ) : ℤ) - ((a * y + c) % n : ℕ) -
        (((a * 1 + c) % n : ℕ) - ((a * 0 + c) % n : ℕ)) := by
      have split (y : ℕ) : (((a * y + c) % n : ℕ) : ℤ) =
          a * y + c - n * ((a * y + c) / n : ℕ) := by
        have parts := Nat.div_add_mod (a * y + c) n
        have cast := congrArg (Nat.cast : ℕ → ℤ) parts
        push_cast at cast ⊢
        linarith
      refine ⟨((a * y + c) / n : ℕ) - ((a * (y + 1) + c) / n : ℕ) -
        (((a * 0 + c) / n : ℕ) - ((a * 1 + c) / n : ℕ)), ?_⟩
      rw [split (y + 1), split y, split 1, split 0]
      push_cast
      ring
    have small := below (y + 1) hy
    have here := first y hy
    have one := first 1 hm
    have zero := first 0 (by omega)
    have none := Int.eq_zero_of_abs_lt_dvd divides (by rw [abs_lt]; omega)
    omega
  have line (y : ℕ) (hy : y ≤ m) : (((a * y + c) % n : ℕ) : ℤ) =
      ((a * 0 + c) % n : ℕ) + (((a * 1 + c) % n : ℕ) - ((a * 0 + c) % n : ℕ)) * y := by
    induction y with
    | zero => simp
    | succ y ih =>
      have before := ih (by omega)
      have next := step y hy
      push_cast at before next ⊢
      linarith
  have zero := first 0 (by omega)
  have one := first 1 hm
  have last := line (m - 1) (by omega)
  have out := line m (Nat.le_refl m)
  have inside := first (m - 1) (by omega)
  have positive : (0 : ℤ) < ((a * 1 + c) % n : ℕ) - ((a * 0 + c) % n : ℕ) := by
    by_contra hneg
    have down := Int.mul_nonpos_of_nonpos_of_nonneg (not_lt.mp hneg) (Int.natCast_nonneg m)
    omega
  have small : (((a * 1 + c) % n : ℕ) : ℤ) - ((a * 0 + c) % n : ℕ) < 2 := by
    by_contra hlarge
    have up := mul_le_mul_of_nonneg_right (not_lt.mp hlarge) (Int.natCast_nonneg (m - 1))
    omega
  have difference : (((a * 1 + c) % n : ℕ) : ℤ) - ((a * 0 + c) % n : ℕ) = 1 := by omega
  rw [difference, one_mul] at last
  have start : (a * 0 + c) % n = 0 := by omega
  have next : (a * 1 + c) % n = 1 := by omega
  rw [Nat.mul_zero, Nat.zero_add] at start
  rw [Nat.mul_one, Nat.add_mod, start, Nat.add_zero, Nat.mod_mod] at next
  exact ⟨next, start⟩

/-- The high bits of a generator come again after as many steps as the words, and no fewer. -/
theorem high_repeats_iff {a c : BitVec w} (ha : a.toNat % 4 = 1) (hc : c.toNat % 2 = 1)
    (hk : 0 < k) (hw : k + 2 ≤ w) (x : BitVec w) (p : ℕ) :
    (∀ n, high k ((fun x => a * x + c)^[n + p] x) = high k ((fun x => a * x + c)^[n] x)) ↔
      2 ^ w ∣ p := by
  have period := minimalPeriod_eq ha hc
  constructor
  · intro h
    have room : 3 * 2 ^ k ≤ 2 ^ w := by
      have four : 2 ^ (k + 2) ≤ 2 ^ w := Nat.pow_le_pow_right two_pos hw
      rw [pow_add] at four
      omega
    -- every word comes up, so `p` steps keep the high bits of every word
    have keeps : ∀ y < 2 ^ w,
        (a.toNat ^ p * y + geometric a.toNat p * c.toNat) % 2 ^ w / 2 ^ k = y / 2 ^ k := by
      intro y hy
      obtain ⟨n, ⟨-, hn⟩, -⟩ := existsUnique_iterate (period x) (BitVec.ofNat w y)
      have value : (BitVec.ofNat w y).toNat = y := Nat.mod_eq_of_lt hy
      have here := h n
      rw [Nat.add_comm, iterate_add_apply, hn, high, high, toNat_iterate, value,
        iterate_congruential] at here
      exact here
    obtain ⟨power, rest⟩ := affine_identity (Nat.one_lt_two_pow (by omega)) room keeps
    have back : (fun x => a * x + c)^[p] x = x := by
      refine BitVec.eq_of_toNat_eq ?_
      rw [toNat_iterate, iterate_congruential, Nat.add_mod, rest, Nat.mul_mod, power, one_mul,
        Nat.add_zero, Nat.mod_mod, Nat.mod_mod, Nat.mod_eq_of_lt x.isLt]
    rw [← period x]
    exact isPeriodicPt_iff_minimalPeriod_dvd.mp back
  · intro h n
    have back : (fun x => a * x + c)^[p] x = x := by
      rw [← period x] at h
      exact isPeriodicPt_iff_minimalPeriod_dvd.mpr h
    rw [iterate_add_apply, back]

end High

end Unics.Lib
