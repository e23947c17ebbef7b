import Mathlib.Data.Nat.Bitwise
import Mathlib.Tactic.Ring

/-!
# Machine words and bitmaps

Facts about fixed-width words that any C program over them uses, at an arbitrary width `w`: what
masking with a low mask or with its complement does to the number a word holds, how the lowest bit
tells odd from even, where the highest clear bit of a word stands, and bitmaps, lists of words read
one bit at a time.

The bitmap laws are the read-over-write laws of an array of bits: a bit set or cleared reads back,
and every other bit is unchanged.
-/

namespace Unics.Lib

variable {w : Nat}

/-! ## Masks -/

/-- Masking with the low `k` bits is the remainder by `2 ^ k`. -/
theorem toNat_and_mask {x m : BitVec w} {k : Nat} (hm : m.toNat = 2 ^ k - 1) :
    (x &&& m).toNat = x.toNat % 2 ^ k := by
  rw [BitVec.toNat_and, hm, Nat.and_two_pow_sub_one_eq_mod]

/-- Masking with the complement of the low `k` bits rounds down to a multiple of `2 ^ k`. -/
theorem toNat_and_not_mask {x m : BitVec w} {k : Nat} (hm : m.toNat = 2 ^ k - 1) :
    (x &&& ~~~m).toNat = x.toNat / 2 ^ k * 2 ^ k := by
  have split : x.toNat = (x &&& m).toNat + (x &&& ~~~m).toNat := by
    have disjoint : (x &&& m) &&& (x &&& ~~~m) = 0#w := by
      ext i hi
      simp only [BitVec.getElem_and, BitVec.getElem_not, BitVec.getElem_zero]
      cases x[i] <;> cases m[i] <;> rfl
    have union : (x &&& m) ||| (x &&& ~~~m) = x := by
      ext i hi
      simp only [BitVec.getElem_or, BitVec.getElem_and, BitVec.getElem_not]
      cases x[i] <;> cases m[i] <;> rfl
    rw [← BitVec.toNat_add_of_and_eq_zero disjoint, BitVec.add_eq_or_of_and_eq_zero _ _ disjoint,
      union]
  rw [toNat_and_mask hm] at split
  have division := Nat.div_add_mod x.toNat (2 ^ k)
  rw [Nat.mul_comm] at division
  omega

/-- What is left of an integer in a shorter word. -/
theorem setWidth_ofInt {v : Nat} (h : v ≤ w) (x : Int) :
    (BitVec.ofInt w x).setWidth v = BitVec.ofInt v x := by
  apply BitVec.eq_of_toInt_eq
  have dvd : 2 ^ v ∣ 2 ^ w := Nat.pow_dvd_pow 2 h
  rw [BitVec.toInt_setWidth, ← Int.bmod_bmod_of_dvd dvd, ← BitVec.toInt_eq_toNat_bmod,
    BitVec.toInt_ofInt, BitVec.toInt_ofInt, Int.bmod_bmod_of_dvd dvd]

/-- A word without a sign holds the same number either way. -/
theorem toInt_eq_toNat_of_nonneg {x : BitVec w} (h : 0 ≤ x.toInt) : x.toInt = x.toNat := by
  rw [BitVec.toInt_eq_toNat_of_msb]
  rw [BitVec.msb_eq_toInt]
  exact decide_eq_false (Int.not_lt.mpr h)

/-- Between words without a sign the signed division is the one of natural numbers. -/
theorem toNat_sdiv_of_nonneg {x y : BitVec w} (hx : x.msb = false) (hy : y.msb = false) :
    (x.sdiv y).toNat = x.toNat / y.toNat := by
  rw [BitVec.sdiv_eq, hx, hy]
  exact BitVec.toNat_udiv

theorem toNat_srem_of_nonneg {x y : BitVec w} (hx : x.msb = false) (hy : y.msb = false) :
    (x.srem y).toNat = x.toNat % y.toNat := by
  rw [BitVec.srem_eq, hx, hy]
  exact BitVec.toNat_umod

theorem toNat_pos {a : BitVec w} (ha : a ≠ 0) : 0 < a.toNat :=
  Nat.pos_of_ne_zero fun h => ha (BitVec.eq_of_toNat_eq h)

theorem toNat_sub_one {a : BitVec w} (ha : a ≠ 0) : (a - 1).toNat = a.toNat - 1 := by
  have pos := toNat_pos ha
  have width : 0 < w := Nat.pos_of_ne_zero fun h => ha (by subst h; exact BitVec.of_length_zero)
  have one : (1 : BitVec w).toNat = 1 := BitVec.toNat_one width
  have le : 1 ≤ a := by
    rw [BitVec.le_def, one]
    exact pos
  rw [BitVec.toNat_sub_of_le le, one]

/-- The masking test for a power of two. -/
theorem and_sub_one_eq_zero_iff {a : BitVec w} :
    a ≠ 0 ∧ a &&& (a - 1) = 0 ↔ a.toNat.isPowerOfTwo := by
  rw [← Nat.ne_zero_and_sub_one_eq_zero_iff_isPowerOfTwo]
  have zero : (0 : BitVec w).toNat = 0 := BitVec.toNat_zero
  constructor
  · rintro ⟨hne, h⟩
    refine ⟨fun h0 => hne (BitVec.eq_of_toNat_eq (h0.trans zero.symm)), ?_⟩
    rw [← toNat_sub_one hne, ← BitVec.toNat_and, h, zero]
  · rintro ⟨hne, h⟩
    have hne' : a ≠ 0 := by
      rintro rfl
      exact hne zero
    refine ⟨hne', BitVec.eq_of_toNat_eq ?_⟩
    rw [BitVec.toNat_and, toNat_sub_one hne', h, zero]

/-- The round-up idiom, short of the end of the address space: the least multiple of `a` that is not
below. -/
theorem toNat_roundUp {x a : BitVec w} (ha : a.toNat.isPowerOfTwo)
    (hfit : x.toNat + (a.toNat - 1) < 2 ^ w) :
    ((x + a - 1) &&& ~~~(a - 1)).toNat = (x.toNat + (a.toNat - 1)) / a.toNat * a.toNat := by
  obtain ⟨k, hk⟩ := ha
  have ne : a ≠ 0 := by
    rintro rfl
    exact absurd hk (Nat.two_pow_pos k).ne
  have mask : (a - 1).toNat = 2 ^ k - 1 := by rw [toNat_sub_one ne, hk]
  have sum : (x + a - 1).toNat = x.toNat + (a.toNat - 1) := by
    rw [BitVec.sub_eq_add_neg, BitVec.add_assoc, ← BitVec.sub_eq_add_neg, BitVec.toNat_add,
      toNat_sub_one ne, Nat.mod_eq_of_lt hfit]
  rw [toNat_and_not_mask mask, sum, hk]

/-- Rounding up does not go down. -/
theorem le_roundUp {a x : Nat} (ha : 0 < a) : x ≤ (x + (a - 1)) / a * a := by
  have division := Nat.div_add_mod (x + (a - 1)) a
  have rest := Nat.mod_lt (x + (a - 1)) ha
  rw [Nat.mul_comm]
  omega

/-- Rounding up stops at the first multiple. -/
theorem roundUp_le_of_dvd {a x y : Nat} (ha : 0 < a) (hdvd : a ∣ y) (hle : x ≤ y) :
    (x + (a - 1)) / a * a ≤ y := by
  obtain ⟨q, rfl⟩ := hdvd
  have lt : x + (a - 1) < (q + 1) * a := by
    rw [Nat.add_mul, Nat.mul_comm q a]
    omega
  have quotient : (x + (a - 1)) / a < q + 1 := (Nat.div_lt_iff_lt_mul ha).mpr lt
  rw [Nat.mul_comm a q]
  exact Nat.mul_le_mul_right a (Nat.le_of_lt_succ quotient)

theorem toNat_and_one (x : BitVec (w + 1)) : (x &&& 1).toNat = x.toNat % 2 := by
  have one : (1 : BitVec (w + 1)).toNat = 1 := BitVec.toNat_one (Nat.succ_pos w)
  rw [toNat_and_mask (k := 1) one, Nat.pow_one]

/-- The lowest bit tells odd from even, and adding one changes it. -/
theorem and_one_eq_zero_iff {x : BitVec (w + 1)} : x &&& 1 = 0 ↔ x.toNat % 2 = 0 := by
  rw [← BitVec.toNat_inj, toNat_and_one]
  rfl

theorem and_one_eq_one_iff {x : BitVec (w + 1)} : x &&& 1 = 1 ↔ x.toNat % 2 = 1 := by
  have one : (1 : BitVec (w + 1)).toNat = 1 := BitVec.toNat_one (Nat.succ_pos w)
  rw [← BitVec.toNat_inj, toNat_and_one, one]

theorem odd_succ_of_even {x : BitVec (w + 1)} (h : x &&& 1 = 0) : (x + 1) &&& 1 = 1 := by
  rw [and_one_eq_zero_iff] at h
  have one : (1 : BitVec (w + 1)).toNat = 1 := BitVec.toNat_one (Nat.succ_pos w)
  have even : 2 ∣ 2 ^ (w + 1) := ⟨2 ^ w, Nat.pow_succ'⟩
  rw [and_one_eq_one_iff, BitVec.toNat_add, one, Nat.mod_mod_of_dvd _ even]
  omega

/-- Reading the bits that a read-modify-write has replaced. -/
theorem modify_and_self (x v m : BitVec w) : ((x &&& ~~~m) ||| (v &&& m)) &&& m = v &&& m := by
  ext i hi
  simp only [BitVec.getElem_and, BitVec.getElem_or, BitVec.getElem_not]
  cases x[i] <;> cases v[i] <;> cases m[i] <;> rfl

/-- Reading bits that a read-modify-write has left. -/
theorem modify_and_of_disjoint {m n : BitVec w} (h : m &&& n = 0) (x v : BitVec w) :
    ((x &&& ~~~m) ||| (v &&& m)) &&& n = x &&& n := by
  ext i hi
  have apart : (m[i] && n[i]) = false := by
    rw [← BitVec.getElem_and, h]
    exact BitVec.getElem_zero hi
  simp only [BitVec.getElem_and, BitVec.getElem_or, BitVec.getElem_not]
  revert apart
  cases x[i] <;> cases v[i] <;> cases m[i] <;> cases n[i] <;> simp

/-! ## The highest clear bit -/

/-- `h` is the highest clear bit of the word. -/
def IsHighestClear (x : BitVec w) (h : Nat) : Prop :=
  h < w ∧ x.getLsbD h = false ∧ ∀ k, h < k → k < w → x.getLsbD k = true

/-- A word has at most one highest clear bit. -/
theorem IsHighestClear.unique {x : BitVec w} {h h' : Nat}
    (a : IsHighestClear x h) (b : IsHighestClear x h') : h = h' := by
  rcases Nat.lt_trichotomy h h' with lt | eq | gt
  · have := a.2.2 h' lt b.1
    rw [b.2.1] at this
    cases this
  · exact eq
  · have := b.2.2 h gt a.1
    rw [a.2.1] at this
    cases this

/-- The bounds that a number of leading zeros puts on a word determine it. -/
theorem toNat_clz_eq {x : BitVec w} {n : Nat} (lo : 2 ^ (w - 1 - n) ≤ x.toNat)
    (hi : x.toNat < 2 ^ (w - n)) (hn : n < w) : x.clz.toNat = n := by
  have hx : x ≠ 0#w := by
    rintro rfl
    have := Nat.two_pow_pos (w - 1 - n)
    simp only [BitVec.toNat_ofNat, Nat.zero_mod] at lo
    omega
  have lo' := BitVec.two_pow_sub_clz_le_toNat_of_ne_zero (by omega) hx
  have hi' := BitVec.toNat_lt_two_pow_sub_clz (x := x)
  have below : w - 1 - n < w - x.clz.toNat :=
    (Nat.pow_lt_pow_iff_right (by decide)).mp (Nat.lt_of_le_of_lt lo hi')
  have above : w - 1 - x.clz.toNat < w - n :=
    (Nat.pow_lt_pow_iff_right (by decide)).mp (Nat.lt_of_le_of_lt lo' hi)
  omega

/-- The leading zeros of the complement count the ones above the highest clear bit. -/
theorem isHighestClear_clz_not {x : BitVec w} (hx : ~~~x ≠ 0#w) :
    IsHighestClear x (w - 1 - (~~~x).clz.toNat) := by
  have hw : 0 < w := by
    rcases Nat.eq_zero_or_pos w with rfl | hw
    · exact absurd (BitVec.of_length_zero) hx
    · exact hw
  have clear := BitVec.getLsbD_true_clz_of_ne_zero hw hx
  rw [BitVec.getLsbD_not] at clear
  simp only [Bool.and_eq_true, decide_eq_true_eq, Bool.not_eq_true'] at clear
  refine ⟨clear.1, clear.2, fun k hk hkw => ?_⟩
  have bound := BitVec.toNat_lt_two_pow_sub_clz (x := ~~~x)
  have high : (~~~x).getLsbD k = false := by
    apply Nat.testBit_lt_two_pow
    exact Nat.lt_of_lt_of_le bound (Nat.pow_le_pow_right (by decide) (by omega))
  rw [BitVec.getLsbD_not] at high
  simpa [hkw] using high

/-- A mask of one bit tests that bit. -/
theorem and_twoPow_ne_zero_iff {x : BitVec w} {i : Nat} (hi : i < w) :
    x &&& BitVec.twoPow w i ≠ 0 ↔ x.getLsbD i = true := by
  have nonzero : BitVec.twoPow w i ≠ 0 := by
    intro hzero
    have bit := congrArg (·.getLsbD i) hzero
    simp [hi] at bit
  rw [BitVec.and_twoPow]
  split
  · next h => exact iff_of_true nonzero h
  · next h => exact iff_of_false (fun hne => hne rfl) h

/-- A mask of places is all there when each place is set. -/
theorem and_eq_mask_iff {x m : BitVec w} {n : Nat} {place : Nat → Nat}
    (room : ∀ k < n, place k < w)
    (places : ∀ i < w, m.getLsbD i = true ↔ ∃ k < n, place k = i) :
    x &&& m = m ↔ ∀ k < n, x.getLsbD (place k) = true := by
  constructor
  · intro h k hk
    have set : (x &&& m).getLsbD (place k) = true := by
      rw [h]
      exact (places _ (room k hk)).mpr ⟨k, hk, rfl⟩
    rw [BitVec.getLsbD_and, Bool.and_eq_true] at set
    exact set.1
  · intro h
    refine BitVec.eq_of_getLsbD_eq fun i hi => ?_
    rw [BitVec.getLsbD_and]
    cases hm : m.getLsbD i with
    | false => exact Bool.and_false _
    | true =>
      obtain ⟨k, hk, rfl⟩ := (places i hi).mp hm
      rw [h k hk]
      rfl

/-- Bits past the end of a word are clear. -/
theorem lt_of_getLsbD {x : BitVec w} {i : Nat} (h : x.getLsbD i = true) : i < w := by
  by_contra hi
  rw [BitVec.getLsbD_of_ge x i (Nat.le_of_not_lt hi)] at h
  cases h

/-- The bits of a word whose first `k` bits are set. -/
theorem getLsbD_ones {k i : Nat} (hk : k ≤ w) :
    (BitVec.ofNat w (2 ^ k - 1)).getLsbD i = true ↔ i < k := by
  rw [BitVec.getLsbD_ofNat, Nat.testBit_two_pow_sub_one, Bool.and_eq_true, decide_eq_true_iff,
    decide_eq_true_iff]
  omega

/-! ## Counters -/

/-- A loop that counts in a word. -/
theorem foldl_count {α : Type*} (p : α → Bool) (l : List α) (n : BitVec w) :
    l.foldl (fun n a => if p a then n + 1 else n) n = n + BitVec.ofNat w (l.countP p) := by
  induction l generalizing n with
  | nil => exact (BitVec.add_zero n).symm
  | cons a l ih =>
    rw [List.foldl_cons, ih, List.countP_cons]
    by_cases h : p a = true
    · rw [if_pos h, if_pos h, BitVec.add_assoc, Nat.add_comm, BitVec.ofNat_add]
      rfl
    · rw [if_neg h, if_neg h]
      rfl

/-- What lies behind the last index that counts does not count. -/
theorem countP_range_of_clear {p : Nat → Bool} {m n : Nat} (hle : m ≤ n)
    (h : ∀ i, m ≤ i → p i = false) : (List.range n).countP p = (List.range m).countP p := by
  obtain ⟨k, rfl⟩ := Nat.exists_eq_add_of_le hle
  clear hle
  induction k with
  | zero => rfl
  | succ k ih =>
    rw [← Nat.add_assoc, List.range_succ, List.countP_append, ih, List.countP_singleton,
      h (m + k) (Nat.le_add_right m k), if_neg Bool.false_ne_true, Nat.add_zero]

/-! ## Bitmaps -/

namespace Bitmap

/-- Bit `i` of a bitmap: bit `i % w` of word `i / w`. -/
def get (words : List (BitVec w)) (i : Nat) : Bool := (words.getD (i / w) 0).getLsbD (i % w)

/-- Set bit `i`. -/
def set (words : List (BitVec w)) (i : Nat) : List (BitVec w) :=
  words.set (i / w) (words.getD (i / w) 0 ||| (1#w <<< (i % w)))

/-- Clear bit `i`. -/
def clear (words : List (BitVec w)) (i : Nat) : List (BitVec w) :=
  words.set (i / w) (words.getD (i / w) 0 &&& ~~~(1#w <<< (i % w)))

@[simp] theorem length_set (words : List (BitVec w)) (i : Nat) :
    (set words i).length = words.length := List.length_set

/-- Two bit indices with the same word and the same place in it are the same. -/
theorem index_ext {i j : Nat} (hq : i / w = j / w) (hr : i % w = j % w) : i = j := by
  rw [← Nat.div_add_mod i w, ← Nat.div_add_mod j w, hq, hr]

theorem getLsbD_one_shiftLeft {i j : Nat} (hi : i < w) :
    (1#w <<< i).getLsbD j = decide (i = j) := by
  rw [BitVec.getLsbD_shiftLeft]
  by_cases hij : i = j
  · subst hij
    simp [hi, Nat.zero_lt_of_lt hi]
  · simp only [hij, decide_false]
    by_cases lt : j < i
    · simp [lt]
    · have : j - i ≠ 0 := by omega
      simp [BitVec.getLsbD_one, this]

section Laws

variable {words : List (BitVec w)} {i j : Nat}

/-- A set bit reads back as set, and every other bit is unchanged. -/
theorem get_set (hi : i / w < words.length) (hw : 0 < w) :
    get (set words i) j = (decide (i = j) || get words j) := by
  unfold get set
  by_cases hq : i / w = j / w
  · rw [← hq, List.getD_eq_getElem?_getD, List.getElem?_set_self hi, Option.getD_some,
      BitVec.getLsbD_or, getLsbD_one_shiftLeft (Nat.mod_lt i hw)]
    have : (i = j) ↔ (i % w = j % w) := ⟨fun h => by rw [h], index_ext hq⟩
    rw [Bool.or_comm, decide_eq_decide.mpr this]
  · have hne : i ≠ j := fun h => hq (by rw [h])
    rw [List.getD_eq_getElem?_getD, List.getElem?_set_ne hq, ← List.getD_eq_getElem?_getD,
      decide_eq_false hne, Bool.false_or]

/-- A cleared bit reads back as clear, and every other bit is unchanged. -/
theorem get_clear (hi : i / w < words.length) (hw : 0 < w) :
    get (clear words i) j = (!decide (i = j) && get words j) := by
  unfold get clear
  by_cases hq : i / w = j / w
  · rw [← hq, List.getD_eq_getElem?_getD, List.getElem?_set_self hi, Option.getD_some,
      BitVec.getLsbD_and, BitVec.getLsbD_not, getLsbD_one_shiftLeft (Nat.mod_lt i hw)]
    have : (i = j) ↔ (i % w = j % w) := ⟨fun h => by rw [h], index_ext hq⟩
    rw [Bool.and_comm, decide_eq_decide.mpr this, decide_eq_true (Nat.mod_lt j hw),
      Bool.true_and]
  · have hne : i ≠ j := fun h => hq (by rw [h])
    rw [List.getD_eq_getElem?_getD, List.getElem?_set_ne hq, ← List.getD_eq_getElem?_getD,
      decide_eq_false hne, Bool.not_false, Bool.true_and]

/-- Bitmaps of one length with the same bits are the same. -/
theorem ext_get {words words' : List (BitVec w)} (hlength : words.length = words'.length)
    (hbits : ∀ i, get words i = get words' i) : words = words' := by
  refine List.ext_getElem hlength fun q hq hq' => BitVec.eq_of_getLsbD_eq fun k hk => ?_
  have word : (w * q + k) / w = q := by
    rw [Nat.mul_add_div (Nat.zero_lt_of_lt hk), Nat.div_eq_of_lt hk, Nat.add_zero]
  have bit : (w * q + k) % w = k := by rw [Nat.mul_add_mod, Nat.mod_eq_of_lt hk]
  have here := hbits (w * q + k)
  unfold get at here
  rwa [word, bit, List.getD_eq_getElem _ _ hq, List.getD_eq_getElem _ _ hq'] at here

end Laws

end Bitmap

end Unics.Lib
