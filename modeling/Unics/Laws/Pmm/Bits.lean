import Unics.Drivers.Pmm
import Unics.Lib.Words

/-!
# The bit helpers of the page allocator

`clz64` counts leading zeros (`clz64_eq_clz`), so `find_first_zero_bit_64` answers the distance of
the highest clear bit from the top of the word, while `set_bit_64` and `test_bit_64` count bits from
the bottom. The index the single-page path goes on with is therefore the mirror image of the clear
bit it found (`findFirstZeroBit64_eq`).

The other helpers are the bitmap operations of `Unics.Lib.Bitmap` at width 64.
-/

namespace Unics

open Unics.Lib

/-! ## Leading zeros -/

/-- What the lines of `clz64` keep: the word is the input shifted by the count, and fewer than `m`
leading zeros are left. -/
structure ClzState (x : BitVec 64) (m : Nat) (s : Nat × BitVec 64) : Prop where
  shifted : s.2.toNat = x.toNat * 2 ^ s.1
  left : 2 ^ (64 - m) ≤ s.2.toNat

/-- A line halves the number of leading zeros that can be left. -/
theorem ClzState.line {x : BitVec 64} {m : Nat} {s : Nat × BitVec 64} (h : ClzState x m s)
    (bound : BitVec 64) (k : Nat) (hm : m = k + k) (hk : m ≤ 64)
    (hbound : bound.toNat + 1 = 2 ^ (64 - k)) : ClzState x k (clzLine bound k s) := by
  unfold clzLine
  have hpow : 2 ^ (64 - k) * 2 ^ k = 2 ^ 64 := by rw [← Nat.pow_add]; congr 1; omega
  split
  · next hle =>
    rw [BitVec.le_def] at hle
    have small : s.2.toNat * 2 ^ k < 2 ^ 64 := by
      rw [← hpow]
      exact Nat.mul_lt_mul_of_pos_right (by omega) (Nat.two_pow_pos k)
    have value : (s.2 <<< k).toNat = s.2.toNat * 2 ^ k := by
      rw [BitVec.toNat_shiftLeft, Nat.shiftLeft_eq, Nat.mod_eq_of_lt small]
    refine ⟨?_, ?_⟩
    · show (s.2 <<< k).toNat = x.toNat * 2 ^ (s.1 + k)
      rw [value, h.shifted, Nat.pow_add, Nat.mul_assoc]
    · show 2 ^ (64 - k) ≤ (s.2 <<< k).toNat
      rw [value, show 64 - k = 64 - m + k by omega, Nat.pow_add]
      exact Nat.mul_le_mul_right _ h.left
  · next hgt =>
    rw [BitVec.le_def] at hgt
    exact ⟨h.shifted, by omega⟩

/-- The shift that brings the top bit to the top of the word is the number of leading zeros. -/
theorem clz_eq_of_shift {x : BitVec 64} {n : Nat} (lo : 2 ^ 63 ≤ x.toNat * 2 ^ n)
    (hi : x.toNat * 2 ^ n < 2 ^ 64) : x.clz.toNat = n := by
  have pos : 1 ≤ x.toNat := by
    rcases Nat.eq_zero_or_pos x.toNat with hx | hx
    · rw [hx, Nat.zero_mul] at lo
      exact absurd lo (by decide)
    · exact hx
  have hn : n < 64 := by
    have : 2 ^ n ≤ x.toNat * 2 ^ n := Nat.le_mul_of_pos_left _ pos
    exact (Nat.pow_lt_pow_iff_right (by decide)).mp (Nat.lt_of_le_of_lt this hi)
  apply toNat_clz_eq _ _ hn
  · have split : 2 ^ 63 = 2 ^ (63 - n) * 2 ^ n := by rw [← Nat.pow_add]; congr 1; omega
    rw [split] at lo
    exact Nat.le_of_mul_le_mul_right lo (Nat.two_pow_pos n)
  · have split : 2 ^ 64 = 2 ^ (64 - n) * 2 ^ n := by rw [← Nat.pow_add]; congr 1; omega
    rw [split] at hi
    exact Nat.lt_of_mul_lt_mul_right hi

/-- The last line of `clz64` settles the count. -/
theorem ClzState.last {x : BitVec 64} {s : Nat × BitVec 64} (h : ClzState x 2 s) :
    (if s.2 ≤ 0x7FFFFFFFFFFFFFFF then s.1 + 1 else s.1) = x.clz.toNat := by
  have hlt : s.2.toNat < 2 ^ 64 := s.2.isLt
  have left : 2 ^ 62 ≤ s.2.toNat := h.left
  have shifted := h.shifted
  symm
  split
  · next hle =>
    have small : s.2.toNat ≤ 0x7FFFFFFFFFFFFFFF := hle
    have double : x.toNat * 2 ^ (s.1 + 1) = 2 * s.2.toNat := by rw [shifted]; ring
    apply clz_eq_of_shift <;> rw [double] <;> omega
  · next hgt =>
    have large : ¬ s.2.toNat ≤ 0x7FFFFFFFFFFFFFFF := hgt
    apply clz_eq_of_shift <;> rw [← shifted] <;> omega

/-- `clz64` counts leading zeros. -/
theorem clz64_eq_clz (x : BitVec 64) : clz64 x = x.clz.toNat := by
  unfold clz64
  split
  · next hx => rw [BitVec.clz_eq_iff_eq_zero.mpr hx]; rfl
  · next hx =>
    have hx' : x.toNat ≠ 0 := fun h => hx (BitVec.eq_of_toNat_eq h)
    have start : ClzState x 64 (0, x) := ⟨by simp, by simpa [Nat.one_le_iff_ne_zero] using hx'⟩
    have s32 := start.line 0x00000000FFFFFFFF 32 rfl (by decide) rfl
    have s16 := s32.line 0x0000FFFFFFFFFFFF 16 rfl (by decide) rfl
    have s8 := s16.line 0x00FFFFFFFFFFFFFF 8 rfl (by decide) rfl
    have s4 := s8.line 0x0FFFFFFFFFFFFFFF 4 rfl (by decide) rfl
    have s2 := s4.line 0x3FFFFFFFFFFFFFFF 2 rfl (by decide) rfl
    exact s2.last

/-- `find_first_zero_bit_64` answers how far the highest clear bit is from the top. -/
theorem findFirstZeroBit64_eq {word : BitVec 64} {h : Nat} (hh : IsHighestClear word h) :
    findFirstZeroBit64 word = 63 - h := by
  have hne : ~~~word ≠ 0#64 := by
    intro hz
    have bit : (~~~word).getLsbD h = true := by
      rw [BitVec.getLsbD_not, hh.2.1, decide_eq_true hh.1]
      rfl
    rw [hz] at bit
    simp at bit
  have top := (isHighestClear_clz_not hne).unique hh
  have bound := (isHighestClear_clz_not hne).1
  have lt : (~~~word).clz.toNat < 64 := by
    have := BitVec.clz_lt_iff_ne_zero.mpr hne
    rw [BitVec.lt_def] at this
    exact this
  rw [findFirstZeroBit64, clz64_eq_clz]
  omega

/-! ## Bitmaps -/

theorem setBit64_eq (bitmap : List (BitVec 64)) (bit : Nat) :
    setBit64 bitmap bit = Bitmap.set bitmap bit := rfl

theorem clearBit64_eq (bitmap : List (BitVec 64)) (bit : Nat) :
    clearBit64 bitmap bit = Bitmap.clear bitmap bit := rfl

theorem testBit64_eq (bitmap : List (BitVec 64)) (bit : Nat) :
    testBit64 bitmap bit = Bitmap.get bitmap bit := by
  unfold testBit64 Bitmap.get bitmapWord
  rw [BitVec.and_one_eq_setWidth_ofBool_getLsbD, BitVec.getLsbD_ushiftRight, Nat.add_zero]
  cases (bitmap.getD (bit / 64) 0).getLsbD (bit % 64) <;> rfl

theorem bitmap_ext {bitmap bitmap' : List (BitVec 64)} (hlength : bitmap.length = bitmap'.length)
    (hbits : ∀ bit, testBit64 bitmap bit = testBit64 bitmap' bit) : bitmap = bitmap' := by
  simp only [testBit64_eq] at hbits
  exact Bitmap.ext_get hlength hbits

end Unics
