import Mathlib.Data.Nat.Find
import Mathlib.Tactic.Common

/-!
# Bits read through windows

A word is shifted by one place after another, and its low `w` places are read each time: what is
read at shift `k` is the window of the places from `k` to `k + w - 1`. Each window is meant to tell
of one place in it, `place k`. It does so, for every `k`, only if the bits of the word hang
together: a bit anywhere in a window has to set the window's place, which lies in the windows
before and after, and so on.
-/

namespace Unics.Lib

variable {w n : ℕ} {bits : ℕ → Prop} {place : ℕ → ℕ}

/-- Some bit of the window at `k` is set. -/
def Through (w : ℕ) (bits : ℕ → Prop) (k : ℕ) : Prop := ∃ i, k ≤ i ∧ i < k + w ∧ bits i

/-- Each of the first `n` windows tells whether its place is set. -/
def Tells (w : ℕ) (bits : ℕ → Prop) (place : ℕ → ℕ) (n : ℕ) : Prop :=
  ∀ k < n, (Through w bits k ↔ bits (place k))

theorem Tells.of_bit (h : Tells w bits place n) {k i : ℕ} (hk : k < n) (hlo : k ≤ i)
    (hhi : i < k + w) (hi : bits i) : bits (place k) :=
  (h k hk).mp ⟨i, hlo, hhi, hi⟩

/-- Where each place lies in the window after its own, a place that is set sets those after it. -/
theorem Tells.upwards (h : Tells w bits place n) {a b : ℕ}
    (hup : ∀ k, a ≤ k → k + 1 < n → k + 1 ≤ place k ∧ place k < k + 1 + w) (hab : a ≤ b)
    (hb : b < n) (ha : bits (place a)) : bits (place b) := by
  induction b, hab using Nat.le_induction with
  | base => exact ha
  | succ k hak ih =>
    obtain ⟨hlo, hhi⟩ := hup k hak hb
    exact h.of_bit hb hlo hhi (ih (Nat.lt_of_succ_lt hb))

/-- Where each place lies in the window before its own, a place that is set sets those before
it. -/
theorem Tells.downwards (h : Tells w bits place n)
    (hdown : ∀ k, k + 1 < n → k ≤ place (k + 1) ∧ place (k + 1) < k + w) {a b : ℕ} (hab : a ≤ b)
    (hb : b < n) (hset : bits (place b)) : bits (place a) := by
  induction b, hab using Nat.le_induction with
  | base => exact hset
  | succ k hak ih =>
    obtain ⟨hlo, hhi⟩ := hdown k hb
    exact ih (Nat.lt_of_succ_lt hb) (h.of_bit (Nat.lt_of_succ_lt hb) hlo hhi hset)

/-- Where every place is set, each window tells of its own. -/
theorem tells_of_all (hin : ∀ k < n, k ≤ place k ∧ place k < k + w)
    (hall : ∀ k < n, bits (place k)) : Tells w bits place n := fun k hk =>
  iff_of_true ⟨place k, (hin k hk).1, (hin k hk).2, hall k hk⟩ (hall k hk)

/-- What is read of a shifted word is a window of it. -/
theorem shiftRight_setWidth_ne_zero_iff {v : ℕ} {x : BitVec v} {k : ℕ} :
    (x >>> k).setWidth w ≠ 0 ↔ Through w (fun i => x.getLsbD i = true) k := by
  have bit : ∀ j < w, ((x >>> k).setWidth w).getLsbD j = x.getLsbD (k + j) := fun j hj => by
    rw [BitVec.getLsbD_setWidth, BitVec.getLsbD_ushiftRight, decide_eq_true hj, Bool.true_and]
  have zero : ∀ j, (0 : BitVec w).getLsbD j = false := fun j => BitVec.getLsbD_zero
  constructor
  · intro h
    by_contra none
    refine h (BitVec.eq_of_getLsbD_eq fun j hj => ?_)
    rw [bit j hj, zero, Bool.eq_false_iff]
    exact fun set => none ⟨k + j, Nat.le_add_right k j, Nat.add_lt_add_left hj k, set⟩
  · rintro ⟨i, hlo, hhi, set⟩ h
    obtain ⟨j, rfl⟩ := Nat.exists_eq_add_of_le hlo
    rw [← bit j (by omega), h, zero] at set
    cases set

/-- Where each bit that is set sets the one before it, the first ones are set. -/
theorem exists_first_bits (hbound : ∀ i, bits i → i < n) (hdown : ∀ i, bits (i + 1) → bits i) :
    ∃ k ≤ n, ∀ i, bits i ↔ i < k := by
  classical
  have clear : ∃ k, ¬ bits k := ⟨n, fun set => absurd (hbound n set) (Nat.lt_irrefl n)⟩
  have past : ∀ i, Nat.find clear ≤ i → ¬ bits i := fun i hi => by
    induction i, hi using Nat.le_induction with
    | base => exact Nat.find_spec clear
    | succ i _ ih => exact fun set => ih (hdown i set)
  refine ⟨Nat.find clear, Nat.find_min' clear fun set => Nat.lt_irrefl n (hbound n set),
    fun i => ⟨fun set => ?_, fun before => ?_⟩⟩
  · exact Nat.lt_of_not_le fun hi => past i hi set
  · exact not_not.mp (Nat.find_min clear before)

end Unics.Lib
