import Unics.Lib.Words
import Unics.Libc.Time

/-!
# Sleeping

The loop of `delay` counts up to its bound one by one if a `uint32_t` holds the bound, and counts
round and round if not (`delayTurn_endless`). The bound of a sleep is ten thousand for each
millisecond, of which only 32 bits are passed on.
-/

namespace Unics

open Unics.Lib

section Delay

variable {ms : BitVec 64}

theorem delayTurn_below {i : BitVec 32} (h : i.toNat < (ms * 10000).toNat) :
    delayTurn ms i = some (i + 1) := by
  refine if_pos (BitVec.lt_def.mpr ?_)
  rwa [BitVec.toNat_setWidth_of_le (by decide)]

/-- From a place below the bound the loop takes one turn for each number in between. -/
theorem delay_endsAfter (fits : (ms * 10000).toNat < 2 ^ 32) {n : ℕ} {i : BitVec 32}
    (h : i.toNat + n = (ms * 10000).toNat) : EndsAfter (delayTurn ms) n i := by
  induction n generalizing i with
  | zero =>
    refine if_neg (mt BitVec.lt_def.mp ?_)
    rw [BitVec.toNat_setWidth_of_le (by decide)]
    omega
  | succ n ih =>
    have one : (1 : BitVec 32).toNat = 1 := rfl
    refine ⟨i + 1, delayTurn_below (by omega), ih ?_⟩
    rw [BitVec.toNat_add, one, Nat.mod_eq_of_lt (by omega)]
    omega

/-- No value of the counter reaches a bound that takes more than its 32 bits. -/
theorem delayTurn_endless (h : 2 ^ 32 ≤ (ms * 10000).toNat) (n : ℕ) (i : BitVec 32) :
    ¬ EndsAfter (delayTurn ms) n i := by
  refine not_endsAfter (I := fun _ => True)
    (fun i _ => ⟨i + 1, delayTurn_below ?_, trivial⟩) trivial
  exact Nat.lt_of_lt_of_le i.isLt h

end Delay

/-- The milliseconds of a request. -/
def Timespec.millis (req : Timespec) : ℕ := req.tvSec.toNat * 1000 + req.tvNsec.toNat / 1000000

section Nanosleep

variable {req : Timespec}

theorem nanosleepMs_toNat (hnsec : 0 ≤ req.tvNsec.toInt) :
    (nanosleepMs req).toNat = req.millis % 2 ^ 32 := by
  have million : (1000000 : BitVec 32).toNat = 1000000 := rfl
  have thousand : (1000 : BitVec 64).toNat = 1000 := rfl
  have quot : (req.tvNsec.sdiv 1000000).toNat = req.tvNsec.toNat / 1000000 := by
    have sign : req.tvNsec.msb = false := by
      rw [BitVec.msb_eq_toInt]
      exact decide_eq_false (Int.not_lt.mpr hnsec)
    exact toNat_sdiv_of_nonneg sign rfl
  rw [nanosleepMs, BitVec.toNat_add, BitVec.toNat_setWidth, BitVec.toNat_mul, quot, thousand,
    Timespec.millis]
  omega

theorem delay_bound (req : Timespec) :
    ((nanosleepMs req).setWidth 64 * 10000).toNat = (nanosleepMs req).toNat * 10000 := by
  have factor : (10000 : BitVec 64).toNat = 10000 := rfl
  have small := (nanosleepMs req).isLt
  rw [BitVec.toNat_mul, BitVec.toNat_setWidth_of_le (by decide), factor,
    Nat.mod_eq_of_lt (by omega)]

/-- A sleep takes its ten thousand turns for each millisecond if it is at most 429496 of them. -/
theorem nanosleep_turns_iff (rem : Option Timespec) (hnsec : 0 ≤ req.tvNsec.toInt) :
    (∃ ret, NanosleepReturns req rem (10000 * req.millis) ret) ↔ req.millis ≤ 429496 := by
  have bound := delay_bound req
  rw [nanosleepMs_toNat hnsec] at bound
  constructor
  · rintro ⟨ret, hends, -⟩
    rcases Nat.lt_or_ge ((nanosleepMs req).setWidth 64 * 10000).toNat (2 ^ 32) with fits | large
    · have here := delay_endsAfter fits (n := ((nanosleepMs req).setWidth 64 * 10000).toNat)
        (i := 0) (Nat.zero_add _)
      have count := hends.unique here
      omega
    · exact absurd hends (delayTurn_endless large _ 0)
  · intro h
    have zero : (0 : BitVec 32).toNat = 0 := rfl
    exact ⟨_, delay_endsAfter (by omega) (by omega), rfl⟩

theorem nanosleep_turns_second :
    ∃ ret, NanosleepReturns { tvSec := 1, tvNsec := 0 } none 10000000 ret :=
  (nanosleep_turns_iff none (by decide)).mpr (by decide)

/-- A sleep of 430 seconds does not end. -/
theorem nanosleep_endless :
    0 ≤ (430 : BitVec 64).toInt ∧
      ∀ n ret, ¬ NanosleepReturns { tvSec := 430, tvNsec := 0 } none n ret := by
  refine ⟨by decide, fun n ret h => ?_⟩
  exact delayTurn_endless (by decide) n 0 h.1

end Nanosleep

end Unics
