import Mathlib.Data.Nat.Prime.Basic

/-!
# Trial division

Dividing out one divisor after the other leaves a number whose prime factors are all from the next
divisor on (`Rough`). A divisor of such a number is prime, and the number itself is once the divisor
has passed its root.
-/

namespace Unics.Lib

/-- No prime factor of `n` is below `i`. -/
def Rough (i n : ℕ) : Prop := ∀ p, p.Prime → p ∣ n → i ≤ p

section Rough

variable {i n m : ℕ}

theorem Rough.of_dvd (h : Rough i n) (hdvd : m ∣ n) : Rough i m :=
  fun p hp hpm => h p hp (hpm.trans hdvd)

theorem Rough.mono {j : ℕ} (h : Rough i n) (hle : j ≤ i) : Rough j n :=
  fun p hp hpn => hle.trans (h p hp hpn)

/-- A divisor of a rough number that is where the roughness begins is a prime. -/
theorem Rough.prime_of_dvd (h : Rough i n) (hi : 2 ≤ i) (hdvd : i ∣ n) : i.Prime := by
  have smallest := Nat.minFac_prime (Nat.ne_of_gt hi)
  have ge := h i.minFac smallest ((Nat.minFac_dvd i).trans hdvd)
  have le := Nat.minFac_le (Nat.lt_of_lt_of_le Nat.zero_lt_two hi)
  rwa [Nat.le_antisymm le ge] at smallest

/-- A number that does not divide is passed. -/
theorem Rough.succ (h : Rough i n) (hdvd : ¬ i ∣ n) : Rough (i + 1) n := by
  intro p hp hpn
  refine Nat.lt_of_le_of_ne (h p hp hpn) ?_
  rintro rfl
  exact hdvd hpn

/-- A rough number below the square is 1 or a prime. -/
theorem Rough.eq_one_or_prime (h : Rough i n) (hn : 0 < n) (hlt : n < i * i) : n = 1 ∨ n.Prime := by
  by_contra hno
  obtain ⟨hone, hprime⟩ := not_or.mp hno
  have factor := h n.minFac (Nat.minFac_prime hone) (Nat.minFac_dvd n)
  have square := Nat.minFac_sq_le_self hn hprime
  rw [Nat.pow_two] at square
  exact absurd (Nat.mul_le_mul factor factor) (by omega)

end Rough

end Unics.Lib
