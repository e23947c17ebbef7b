import Unics.Lib.Congruential
import Unics.Libc.Numbers

/-!
# rand

`next_rand` comes up with every word, but `rand` gives away only its bits 16 to 30, and these follow
from the 31 lowest: `high_rand`. So the numbers repeat after half as many calls,
`rand_repeats_iff`, and until then each has come up as often as any other, `rand_uniform`.
-/

namespace Unics

open Unics.Lib Function

/-- The number of call `n`, the first one 0, after `srand(seed)`. -/
def randCall (seed : BitVec 32) (n : ℕ) : ℕ :=
  (rand ((fun next => (rand next).1)^[n] (srand seed))).2.toNat

/-- The 31 lowest bits of `next_rand`. -/
def randLow (next : BitVec 31) : BitVec 31 := 1103515245 * next + 12345

theorem setWidth_rand (next : BitVec 32) :
    (rand next).1.setWidth 31 = randLow (next.setWidth 31) := by
  show (next * 1103515245 + 12345).setWidth 31 = randLow (next.setWidth 31)
  rw [BitVec.setWidth_add _ _ (by decide), BitVec.setWidth_mul _ _ (by decide), BitVec.mul_comm]
  rfl

theorem setWidth_iterate_rand (seed : BitVec 32) (n : ℕ) :
    ((fun next => (rand next).1)^[n] seed).setWidth 31 = randLow^[n] (seed.setWidth 31) := by
  induction n with
  | zero => rfl
  | succ n ih => rw [iterate_succ_apply', iterate_succ_apply', setWidth_rand, ih]

/-- The number is what the 31 lowest bits have above the lowest 16. -/
theorem toNat_rand (next : BitVec 32) :
    (rand next).2.toNat = high 16 ((rand next).1.setWidth 31) := by
  show ((rand next).1 / 65536 % 32768).toNat = _
  generalize (rand next).1 = next
  have divisor : (65536 : BitVec 32).toNat = 65536 := rfl
  have range : (32768 : BitVec 32).toNat = 32768 := rfl
  rw [high, BitVec.toNat_umod, BitVec.toNat_udiv, BitVec.toNat_setWidth, divisor, range]
  omega

theorem randCall_eq (seed : BitVec 32) (n : ℕ) :
    randCall seed n = high 16 (randLow^[n] (randLow (seed.setWidth 31))) := by
  rw [randCall, toNat_rand, setWidth_rand, srand, setWidth_iterate_rand, ← iterate_succ_apply,
    iterate_succ_apply']

/-- The numbers repeat themselves after the multiples of `2 ^ 31` calls and after no other number
of calls, whatever the seed. -/
theorem rand_repeats_iff (seed : BitVec 32) (p : ℕ) :
    (∀ n, randCall seed (n + p) = randCall seed n) ↔ 2 ^ 31 ∣ p := by
  simp only [randCall_eq]
  exact high_repeats_iff (by decide) (by decide) (by decide) (by decide) _ p

/-- In `2 ^ 31` calls in a row every number up to `RAND_MAX` comes up `2 ^ 16` times, and no other
number does. -/
theorem rand_uniform (seed : BitVec 32) (start value : ℕ) :
    Nat.card {n : ℕ // n < 2 ^ 31 ∧ randCall seed (start + n) = value} =
      if value < 2 ^ 15 then 2 ^ 16 else 0 := by
  have period := minimalPeriod_eq (w := 31) (a := 1103515245) (c := 12345) (by decide) (by decide)
    (randLow^[start] (randLow (seed.setWidth 31)))
  have shifted (n : ℕ) : randCall seed (start + n) =
      high 16 (randLow^[n] (randLow^[start] (randLow (seed.setWidth 31)))) := by
    rw [randCall_eq, Nat.add_comm, iterate_add_apply]
  simp only [shifted]
  rw [card_iterate (f := randLow) period fun y => high 16 y = value]
  split
  · next hvalue => exact card_high (by decide) hvalue
  · next hvalue =>
    have none : IsEmpty {y : BitVec 31 // high 16 y = value} := by
      refine ⟨fun y => hvalue ?_⟩
      rw [← y.property, high]
      exact Nat.div_lt_of_lt_mul y.val.isLt
    exact Nat.card_of_isEmpty

end Unics
