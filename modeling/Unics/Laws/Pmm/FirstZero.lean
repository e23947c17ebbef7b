import Unics.Laws.Pmm.Calls

/-!
# The search for a clear bit

`clz64` counts the leading zeros of every word. `find_first_zero_bit_64` takes them of the
complement, so it counts from the top. It answers the first clear bit, as `test_bit_64` counts,
only of the words that are full or have as many ones below the lowest clear bit as above the
highest.
-/

namespace Unics

open Unics.Lib

/-- The number of leading zeros of a word. -/
structure LeadingZeros (x : BitVec 64) (n : Nat) : Prop where
  le : n ≤ 64
  zeros : ∀ i < n, x.getLsbD (63 - i) = false
  one : n < 64 → x.getLsbD (63 - n) = true

/-- `b` is the least bit that `test_bit_64` finds clear. -/
structure IsFirstClear (word : BitVec 64) (b : Nat) : Prop where
  lt : b < 64
  clear : testBit64 [word] b = false
  below : ∀ i < b, testBit64 [word] i = true

/-- The answer for a word is its first clear bit, which `set_bit_64` sets, or 64 if it is full. -/
structure FirstZeroAgrees (word : BitVec 64) : Prop where
  first : word ≠ BitVec.allOnes 64 → IsFirstClear word (findFirstZeroBit64 word)
  sets : word ≠ BitVec.allOnes 64 →
    testBit64 (setBit64 [word] (findFirstZeroBit64 word)) (findFirstZeroBit64 word) = true
  full : word = BitVec.allOnes 64 → findFirstZeroBit64 word = 64

section Word

variable {word : BitVec 64} {b c j : Nat}

theorem testBit64_single (hj : j < 64) : testBit64 [word] j = word.getLsbD j := by
  rw [testBit64_eq, Bitmap.get, Nat.div_eq_of_lt hj, Nat.mod_eq_of_lt hj]
  rfl

theorem clz64_leadingZeros (x : BitVec 64) : LeadingZeros x (clz64 x) := by
  by_cases hx : x = 0#64
  · subst hx
    exact ⟨le_refl 64, fun i _ => BitVec.getLsbD_zero, fun h => absurd h (by decide)⟩
  · have highest := isHighestClear_clz_not (x := ~~~x) (by rwa [BitVec.not_not])
    rw [BitVec.not_not, ← clz64_eq_clz] at highest
    obtain ⟨hlt, hclear, habove⟩ := highest
    have few : clz64 x < 64 := by
      have small := BitVec.lt_def.mp (BitVec.clz_lt_iff_ne_zero.mpr hx)
      rwa [clz64_eq_clz]
    refine ⟨few.le, fun i hi => ?_, fun _ => ?_⟩
    · have above := habove (63 - i) (by omega) (by omega)
      rw [BitVec.getLsbD_not, Bool.and_eq_true, Bool.not_eq_true'] at above
      exact above.2
    · rw [BitVec.getLsbD_not, decide_eq_true hlt, Bool.true_and, Bool.not_eq_false'] at hclear
      exact hclear

theorem IsFirstClear.unique (hb : IsFirstClear word b) (hc : IsFirstClear word c) : b = c := by
  rcases Nat.lt_trichotomy b c with hlt | heq | hlt
  · exact absurd ((hc.below b hlt).symm.trans hb.clear) (by decide)
  · exact heq
  · exact absurd ((hb.below c hlt).symm.trans hc.clear) (by decide)

/-- A word with a clear bit has a first one. -/
theorem exists_isFirstClear (h : ∃ j < 64, word.getLsbD j = false) : ∃ b, IsFirstClear word b := by
  classical
  obtain ⟨hlt, hclear⟩ := Nat.find_spec h
  refine ⟨Nat.find h, hlt, (testBit64_single hlt).trans hclear, fun i hi => ?_⟩
  have none := Nat.find_min h hi
  rw [testBit64_single (hi.trans hlt), ← Bool.not_eq_false]
  exact fun hno => none ⟨hi.trans hlt, hno⟩

theorem findFirstZeroBit64_full : findFirstZeroBit64 (BitVec.allOnes 64) = 64 := by decide

/-- The answer is the first clear bit where it mirrors the highest. -/
theorem firstZeroAgrees_iff :
    FirstZeroAgrees word ↔
      ∀ low high, IsFirstClear word low → IsHighestClear word high → low + high = 63 := by
  constructor
  · intro h low high hlow hhigh
    have not_full : word ≠ BitVec.allOnes 64 := by
      rintro rfl
      rw [IsHighestClear, BitVec.getLsbD_allOnes, decide_eq_true hhigh.1] at hhigh
      exact Bool.false_ne_true hhigh.2.1.symm
    have answer := findFirstZeroBit64_eq hhigh
    have same := (h.first not_full).unique hlow
    have bound := hhigh.1
    omega
  · intro h
    by_cases hfull : word = BitVec.allOnes 64
    · subst hfull
      exact ⟨fun hno => absurd rfl hno, fun hno => absurd rfl hno, fun _ => findFirstZeroBit64_full⟩
    · have highest := isHighestClear_highestClear hfull
      obtain ⟨low, hlow⟩ := exists_isFirstClear ⟨_, highest.1, highest.2.1⟩
      have mirror := h low _ hlow highest
      have answer : findFirstZeroBit64 word = low := by
        rw [findFirstZeroBit64_eq highest]
        omega
      refine ⟨fun _ => answer ▸ hlow, fun _ => ?_, fun hno => absurd hno hfull⟩
      have inside : low / 64 < [word].length := by
        rw [Nat.div_eq_of_lt hlow.lt]
        exact Nat.one_pos
      rw [answer, testBit64_setBit64 inside, decide_eq_true rfl, Bool.true_or]

end Word

/-- `clz64` counts leading zeros, and the search agrees with the bit helpers exactly on the words
whose lowest and highest clear bits mirror each other, and on the full one. -/
theorem findFirstZeroBit64_agrees_iff (word : BitVec 64) :
    LeadingZeros word (clz64 word) ∧
      (FirstZeroAgrees word ↔
        ∀ low high, IsFirstClear word low → IsHighestClear word high → low + high = 63) :=
  ⟨clz64_leadingZeros word, firstZeroAgrees_iff⟩

/-- With bit 0 set, the answer is bit 0. -/
theorem findFirstZeroBit64_one :
    findFirstZeroBit64 1 = 0 ∧ testBit64 [1] 0 = true ∧ ¬ FirstZeroAgrees 1 := by
  have answer : findFirstZeroBit64 1 = 0 := by decide
  refine ⟨answer, by decide, fun h => ?_⟩
  have clear := (h.first (by decide)).clear
  rw [answer] at clear
  exact absurd clear (by decide)

end Unics
