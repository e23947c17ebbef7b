import Mathlib.Data.Nat.Digits.Lemmas
import Mathlib.Tactic.IntervalCases

/-!
# Numerals

The text of a number in a base up to 36: its digits, the highest first, as characters. A numeral has
no zero in front, except that of the number 0, and reading it digit by digit gives back the number.
-/

namespace Unics.Lib

/-- A statement about all bytes, by their numbers. -/
theorem forall_byte {P : UInt8 → Prop} {b : ℕ} (h : ∀ n < b, P (UInt8.ofNat n)) {c : UInt8}
    (hc : c.toNat < b) : P c := by
  have here := h c.toNat hc
  rwa [UInt8.ofNat_toNat] at here

/-- The character of a digit: `0` to `9`, then `a` to `z`. -/
def digitByte (d : ℕ) : UInt8 := UInt8.ofNat (if d < 10 then d + 48 else d + 87)

/-- The numeral of a number. -/
def numeral (b n : ℕ) : List UInt8 :=
  if n = 0 then [48] else ((b.digits n).map digitByte).reverse

/-- The digit that a character stands for. -/
def byteDigit (c : UInt8) : Option ℕ :=
  if 48 ≤ c ∧ c ≤ 57 then some (c.toNat - 48)
  else if 97 ≤ c ∧ c ≤ 122 then some (c.toNat - 97 + 10)
  else if 65 ≤ c ∧ c ≤ 90 then some (c.toNat - 65 + 10)
  else none

theorem byteDigit_digitByte {d : ℕ} (hd : d < 36) : byteDigit (digitByte d) = some d := by
  interval_cases d
  all_goals rfl

section Numeral

variable {b n : ℕ}

theorem numeral_zero (b : ℕ) : numeral b 0 = [48] := if_pos rfl

theorem numeral_ne_nil (b n : ℕ) : numeral b n ≠ [] := by
  unfold numeral
  split
  · exact List.cons_ne_nil 48 []
  · next hn =>
    rw [Ne, List.reverse_eq_nil_iff, List.map_eq_nil_iff, Nat.digits_eq_nil_iff_eq_zero]
    exact hn

/-- Every numeral is one of a list of digits of the base. -/
theorem numeral_eq_map (hb : 1 < b) (n : ℕ) :
    ∃ ds : List ℕ, (∀ d ∈ ds, d < b) ∧ numeral b n = ds.map digitByte ∧
      Nat.ofDigits b ds.reverse = n := by
  unfold numeral
  split
  · next hn =>
    refine ⟨[0], fun d hd => ?_, rfl, hn.symm⟩
    rw [List.mem_singleton.mp hd]
    omega
  · refine ⟨(b.digits n).reverse, fun d hd => ?_, List.map_reverse.symm, ?_⟩
    · exact Nat.digits_lt_base hb (List.mem_reverse.mp hd)
    · rw [List.reverse_reverse, Nat.ofDigits_digits]

theorem mem_numeral (hb : 1 < b) {c : UInt8} (hc : c ∈ numeral b n) :
    ∃ d < b, c = digitByte d := by
  obtain ⟨ds, hds, heq, -⟩ := numeral_eq_map hb n
  rw [heq] at hc
  obtain ⟨d, hd, rfl⟩ := List.mem_map.mp hc
  exact ⟨d, hds d hd, rfl⟩

theorem numeral_noNul (hb : 1 < b) (hmax : b ≤ 36) : ∀ c ∈ numeral b n, c ≠ 0 := by
  intro c hc
  obtain ⟨d, hd, rfl⟩ := mem_numeral hb hc
  have range : ∀ d < 36, digitByte d ≠ 0 := by decide
  exact range d (by omega)

/-- Some digit of a number other than 0 is above `0`. -/
theorem exists_mem_numeral_gt (hb : 1 < b) (hmax : b ≤ 36) (hn : n ≠ 0) :
    ∃ c ∈ numeral b n, 48 < c := by
  have hne : b.digits n ≠ [] := Nat.digits_ne_nil_iff_ne_zero.mpr hn
  have last := List.getLast_mem hne
  refine ⟨digitByte ((b.digits n).getLast hne), ?_, ?_⟩
  · rw [numeral, if_neg hn, List.mem_reverse]
    exact List.mem_map_of_mem last
  · have range : ∀ d < 36, d ≠ 0 → 48 < digitByte d := by decide
    have small := Nat.digits_lt_base hb last
    exact range _ (by omega) (Nat.getLast_digit_ne_zero b hn)

end Numeral

end Unics.Lib
