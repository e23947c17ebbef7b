import Mathlib.Tactic.Ring
import Unics.Lib.Numerals
import Unics.Lib.Words
import Unics.Libc.Numbers

/-!
# From a number to its text and back

The remainder of a C division has the sign of the dividend, so the digits of a negative number come
out below `0`. Where the sign has been taken off before, the text is a numeral and reading it gives
the number back (`parseText_numeral`). Otherwise no digit but `0` is in it, and what is read is zero
(`parseText_low`).
-/

namespace Unics

open Unics.Lib

/-- `itoa` does for an `int` what `ltoa` does for a `long`. -/
theorem itoa_eq_toText (num : BitVec 32) (base : Int) : itoa num base = toText num base := rfl

/-! ## Digits -/

theorem itoaDigit_natCast {d : ℕ} (hd : d < 36) : itoaDigit d = digitByte d := by
  interval_cases d
  all_goals rfl

/-- A negative remainder comes out as a character below `0`. -/
theorem itoaDigit_neg_le {d : ℕ} (hd : d < 36) : itoaDigit (-d) ≤ 48 ∧ itoaDigit (-d) ≠ 0 := by
  interval_cases d
  all_goals decide

/-- The digits of a number, each with the sign of the number. -/
theorem itoaDigits_eq {b : ℕ} (hb : 1 < b) {sign : Int} (hsign : sign = 1 ∨ sign = -1) (n : ℕ) :
    itoaDigits (sign * n) b = (b.digits n).map fun d : ℕ => itoaDigit (sign * d) := by
  induction n using Nat.strong_induction_on with
  | h n ih =>
    rw [itoaDigits]
    by_cases hn : n = 0
    · subst hn
      rw [dif_pos (.inl (Int.mul_zero sign)), Nat.digits_zero]
      rfl
    · have go : ¬ (sign * (n : Int) = 0 ∨ (b : Int) < 2) := by
        rcases hsign with rfl | rfl
        all_goals omega
      have rem : (sign * (n : Int)).tmod b = sign * (n % b : ℕ) := by
        rcases hsign with rfl | rfl
        · rw [Int.one_mul, Int.one_mul, Int.ofNat_tmod]
        · rw [Int.neg_one_mul, Int.neg_one_mul, Int.neg_tmod, Int.ofNat_tmod]
      have quot : (sign * (n : Int)).tdiv b = sign * (n / b : ℕ) := by
        rcases hsign with rfl | rfl
        · rw [Int.one_mul, Int.one_mul, Int.ofNat_tdiv]
        · rw [Int.neg_one_mul, Int.neg_one_mul, Int.neg_tdiv, Int.ofNat_tdiv]
      rw [dif_neg go, rem, quot, ih (n / b) (Nat.div_lt_self (Nat.pos_of_ne_zero hn) hb),
        Nat.digits_eq_cons_digits_div hb hn]
      rfl

section Text

variable {w b : ℕ}

theorem length_itoaDigits (hb : 1 < b) (num : Int) :
    (itoaDigits num b).length = (b.digits num.natAbs).length := by
  obtain ⟨sign, hsign, hnum⟩ : ∃ sign : Int, (sign = 1 ∨ sign = -1) ∧ num = sign * num.natAbs := by
    rcases Int.natAbs_eq num with h | h
    · exact ⟨1, .inl rfl, by omega⟩
    · exact ⟨-1, .inr rfl, by omega⟩
  rw [hnum, itoaDigits_eq hb hsign, List.length_map, ← hnum]

/-- The digits of a positive number make up its numeral. -/
theorem itoaDigits_numeral (hb : 1 < b) (hmax : b ≤ 36) {n : ℕ} (hn : n ≠ 0) :
    (itoaDigits n b).reverse = numeral b n := by
  have digits := itoaDigits_eq hb (.inl rfl) n
  rw [Int.one_mul] at digits
  rw [numeral, if_neg hn, digits]
  refine congrArg List.reverse (List.map_congr_left fun d hd => ?_)
  have small := Nat.digits_lt_base hb hd
  rw [Int.one_mul]
  exact itoaDigit_natCast (by omega)

/-- No digit of a negative number is above zero. -/
theorem itoaDigits_neg_le (hb : 1 < b) (hmax : b ≤ 36) (n : ℕ) :
    ∀ c ∈ itoaDigits (-n) b, c ≤ 48 ∧ c ≠ 0 := by
  intro c hc
  rw [← Int.neg_one_mul, itoaDigits_eq hb (.inr rfl)] at hc
  obtain ⟨d, hd, rfl⟩ := List.mem_map.mp hc
  have small := Nat.digits_lt_base hb hd
  rw [Int.neg_one_mul]
  exact itoaDigit_neg_le (by omega)

/-- A number that is not negative has its numeral for a text. -/
theorem toText_of_nonneg (hb : 1 < b) (hmax : b ≤ 36) {num : BitVec w} (hnum : 0 ≤ num.toInt) :
    toText num b = numeral b num.toNat := by
  have value := toInt_eq_toNat_of_nonneg hnum
  rw [toText]
  split
  · next hzero =>
    have zero : (0 : BitVec w).toNat = 0 := BitVec.toNat_zero
    rw [hzero, zero, numeral_zero]
  · next hne =>
    have natural : ¬ (num.toInt < 0 ∧ (b : Int) = 10) := fun h => by omega
    simp only [if_neg natural]
    rw [value]
    exact itoaDigits_numeral hb hmax fun hzero => hne (BitVec.eq_of_toNat_eq hzero)

theorem ne_zero_of_neg {num : BitVec w} (hnum : num.toInt < 0) : num ≠ 0 := by
  rintro rfl
  have zero : (0 : BitVec w).toInt = 0 := BitVec.toInt_zero
  omega

theorem toInt_neg_eq_natAbs {num : BitVec w} (hnum : num.toInt < 0) (hmin : num ≠ BitVec.intMin w) :
    (-num).toInt = (num.toInt.natAbs : ℕ) := by
  rw [BitVec.toInt_neg_of_ne_intMin hmin]
  omega

/-- In base 10 the sign is taken off, if the number has a counterpart without it. -/
theorem toText_of_neg {num : BitVec w} (hnum : num.toInt < 0) (hmin : num ≠ BitVec.intMin w) :
    toText num 10 = 45 :: numeral 10 num.toInt.natAbs := by
  have hne := ne_zero_of_neg hnum
  have positive := toInt_neg_eq_natAbs hnum hmin
  have signed : num.toInt < 0 ∧ (10 : Int) = 10 := ⟨hnum, rfl⟩
  rw [toText, if_neg hne]
  dsimp only
  rw [if_pos signed, if_pos signed, positive, List.reverse_append]
  exact congrArg ([45] ++ ·) (itoaDigits_numeral (by decide) (by decide) (by omega))

/-- What comes out of a negative number whose sign stays on. -/
theorem toText_low (hb : 1 < b) (hmax : b ≤ 36) {num : BitVec w} (hnum : num.toInt < 0)
    (hsign : b ≠ 10 ∨ num = BitVec.intMin w) : ∀ c ∈ toText num b, c ≤ 48 ∧ c ≠ 0 := by
  have hne := ne_zero_of_neg hnum
  have digits : ∀ c ∈ itoaDigits num.toInt b, c ≤ 48 ∧ c ≠ 0 := by
    have negative : num.toInt = -(num.toInt.natAbs : ℕ) := by omega
    rw [negative]
    exact itoaDigits_neg_le hb hmax _
  intro c hc
  rw [toText, if_neg hne] at hc
  dsimp only at hc
  rw [List.mem_reverse] at hc
  split at hc
  · next hneg =>
    have hten : b = 10 := by exact_mod_cast hneg.2
    have same : -num = num := by
      rw [hsign.resolve_left (not_not.mpr hten), BitVec.neg_intMin]
    rw [same] at hc
    rcases List.mem_append.mp hc with hdigit | hminus
    · exact digits c hdigit
    · rw [List.mem_singleton.mp hminus]
      decide
  · exact digits c hc

/-- No character of a text ends it. -/
theorem toText_noNul (hb : 1 < b) (hmax : b ≤ 36) (num : BitVec w) : ∀ c ∈ toText num b, c ≠ 0 := by
  intro c hc
  by_cases hnum : 0 ≤ num.toInt
  · rw [toText_of_nonneg hb hmax hnum] at hc
    exact numeral_noNul hb hmax c hc
  · have negative := Int.not_le.mp hnum
    by_cases hsign : b = 10 ∧ num ≠ BitVec.intMin w
    · obtain ⟨rfl, hmin⟩ := hsign
      have text : toText num (10 : ℕ) = 45 :: numeral 10 num.toInt.natAbs :=
        toText_of_neg negative hmin
      rw [text] at hc
      rcases List.mem_cons.mp hc with rfl | hc
      · decide
      · exact numeral_noNul hb hmax c hc
    · exact (toText_low hb hmax negative (by tauto) c hc).2

theorem toText_ne_nil (hb : 1 < b) (num : BitVec w) : toText num b ≠ [] := by
  have some_digit : ∀ num : Int, num ≠ 0 → itoaDigits num b ≠ [] := by
    intro num hnum
    rw [itoaDigits, dif_neg (by omega)]
    exact List.cons_ne_nil _ _
  unfold toText
  split
  · exact List.cons_ne_nil _ _
  · next hnum =>
    intro h
    rw [List.reverse_eq_nil_iff] at h
    split at h
    · exact List.append_ne_nil_of_right_ne_nil _ (List.cons_ne_nil _ _) h
    · have zero : (0 : BitVec w).toInt = 0 := BitVec.toInt_zero
      exact some_digit num.toInt (fun h => hnum (BitVec.toInt_inj.mp (h.trans zero.symm))) h

/-- Without a sign, and only then, the text is the numeral of the number. -/
theorem toText_eq_numeral_iff (hb : 1 < b) (hmax : b ≤ 36) (num : BitVec w) :
    toText num b = numeral b num.toNat ↔ 0 ≤ num.toInt := by
  refine ⟨fun h => ?_, toText_of_nonneg hb hmax⟩
  by_contra hnum
  have negative := Int.not_le.mp hnum
  by_cases hsign : b = 10 ∧ num ≠ BitVec.intMin w
  · obtain ⟨rfl, hmin⟩ := hsign
    have text : toText num (10 : ℕ) = 45 :: numeral 10 num.toInt.natAbs :=
      toText_of_neg negative hmin
    rw [text] at h
    have minus : (45 : UInt8) ∈ numeral 10 num.toNat := h ▸ List.mem_cons_self
    obtain ⟨d, hd, hbyte⟩ := mem_numeral (by decide) minus
    have no_minus : ∀ d < 10, (45 : UInt8) ≠ digitByte d := by decide
    exact no_minus d hd hbyte
  · have hzero : num.toNat ≠ 0 := fun h => ne_zero_of_neg negative (BitVec.eq_of_toNat_eq h)
    obtain ⟨c, hc, high⟩ := exists_mem_numeral_gt hb hmax hzero
    exact absurd (toText_low hb hmax negative (by tauto) c (h ▸ hc)).1 (UInt8.not_le.mpr high)

/-! The text that formatted output takes from `itoa`. -/

theorem numText_eq (hb : 1 < b) (hmax : b ≤ 36) (num : BitVec 32) : numText num b = toText num b :=
  List.takeWhile_eq_self_iff.mpr fun c hc => decide_eq_true (toText_noNul hb hmax num c hc)

theorem numText_ne_nil (hb : 1 < b) (hmax : b ≤ 36) (num : BitVec 32) : numText num b ≠ [] := by
  rw [numText_eq hb hmax]
  exact toText_ne_nil hb num

theorem numText_eq_numeral_iff (hb : 1 < b) (hmax : b ≤ 36) (num : BitVec 32) :
    numText num b = numeral b num.toNat ↔ num.toNat < 2 ^ 31 := by
  have value := BitVec.toInt_eq_toNat_cond num
  have bound := num.isLt
  rw [numText_eq hb hmax, toText_eq_numeral_iff hb hmax]
  omega

theorem length_numText_le (hb : 1 < b) (hmax : b ≤ 36) (num : BitVec 32) :
    (numText num b).length ≤ 33 := by
  have digits : ∀ num : BitVec 32, (itoaDigits num.toInt b).length ≤ 32 := by
    intro num
    have low := BitVec.le_toInt num
    have high := BitVec.toInt_lt (x := num)
    rw [length_itoaDigits hb]
    refine (Nat.digits_length_le_iff hb _).mpr ?_
    calc num.toInt.natAbs
      _ < 2 ^ 32 := by omega
      _ ≤ b ^ 32 := Nat.pow_le_pow_left hb 32
  rw [numText_eq hb hmax, toText]
  split
  · decide
  · rw [List.length_reverse]
    split
    · rw [List.length_append]
      exact Nat.succ_le_succ (digits _)
    · exact (digits _).trans (Nat.le_succ 32)

end Text

/-! ## Reading -/

section Reading

variable {w : ℕ}

theorem strtolDigit_eq (c : UInt8) : strtolDigit c = (byteDigit c).map fun d : ℕ => (d : Int) := by
  unfold strtolDigit byteDigit
  split
  · next h =>
    have low : 48 ≤ c.toNat := UInt8.le_iff_toNat_le.mp h.1
    exact congrArg some (by dsimp only; omega)
  · split
    · next h =>
      have low : 97 ≤ c.toNat := UInt8.le_iff_toNat_le.mp h.1
      exact congrArg some (by dsimp only; omega)
    · split
      · next h =>
        have low : 65 ≤ c.toNat := UInt8.le_iff_toNat_le.mp h.1
        exact congrArg some (by dsimp only; omega)
      · rfl

/-- No character up to `0` is a digit but `0` itself. -/
theorem strtolDigit_le {c : UInt8} (hc : c ≤ 48) {digit : Int} (h : strtolDigit c = some digit) :
    digit = 0 := by
  have high := UInt8.le_iff_toNat_le.mp hc
  have small : (48 : UInt8).toNat = 48 := rfl
  unfold strtolDigit at h
  split at h
  · next hrange =>
    have low := UInt8.le_iff_toNat_le.mp hrange.1
    have value := Option.some.inj h
    omega
  · split at h
    · next hrange =>
      have low : 97 ≤ c.toNat := UInt8.le_iff_toNat_le.mp hrange.1
      omega
    · split at h
      · next hrange =>
        have low : 65 ≤ c.toNat := UInt8.le_iff_toNat_le.mp hrange.1
        omega
      · exact absurd h.symm (Option.some_ne_none digit)

/-- The loop reads digits of the base, the highest first. -/
theorem strtolLoop_digits {b : ℕ} (hmax : b ≤ 36) {ds : List ℕ} (hds : ∀ d ∈ ds, d < b) (n : ℕ) :
    strtolLoop b (BitVec.ofNat w n) (ds.map digitByte) =
      (BitVec.ofNat w (n * b ^ ds.length + Nat.ofDigits b ds.reverse), []) := by
  induction ds generalizing n with
  | nil =>
    rw [List.map_nil, strtolLoop, List.reverse_nil, Nat.ofDigits_nil]
    simp
  | cons d ds ih =>
    have small := hds d List.mem_cons_self
    have digit : strtolDigit (digitByte d) = some (d : Int) := by
      rw [strtolDigit_eq, byteDigit_digitByte (by omega)]
      rfl
    have below : ¬ (d : Int) ≥ b := by omega
    have step : BitVec.ofNat w n * BitVec.ofInt w b + BitVec.ofInt w d =
        BitVec.ofNat w (n * b + d) := by
      rw [BitVec.ofInt_natCast, BitVec.ofInt_natCast, BitVec.ofNat_add, BitVec.ofNat_mul]
    rw [List.map_cons, strtolLoop, digit]
    dsimp only
    rw [if_neg below, step, ih fun e he => hds e (List.mem_cons_of_mem d he), List.reverse_cons,
      Nat.ofDigits_append, Nat.ofDigits_singleton, List.length_reverse, List.length_cons]
    congr 2
    ring

/-- Where no character is above `0`, nothing but zeros is read. -/
theorem strtolLoop_low (base : Int) {p : List UInt8} (hp : ∀ c ∈ p, c ≤ 48) :
    (strtolLoop base (0 : BitVec w) p).1 = 0 := by
  induction p with
  | nil => rfl
  | cons c p ih =>
    rw [strtolLoop]
    have low := hp c List.mem_cons_self
    cases hdigit : strtolDigit c with
    | none => rfl
    | some digit =>
      dsimp only
      split
      · rfl
      · have step : (0 : BitVec w) * BitVec.ofInt w base + BitVec.ofInt w digit = 0 := by
          rw [strtolDigit_le low hdigit]
          exact (BitVec.add_zero _).trans BitVec.zero_mul
        rw [step]
        exact ih fun d hd => hp d (List.mem_cons_of_mem c hd)

/-- A character that is neither space nor sign. -/
theorem strtolSign_plain {c : UInt8} (hminus : c ≠ 45) (hplus : c ≠ 43) (p : List UInt8) :
    strtolSign (c :: p) = (1, c :: p) := by
  rw [strtolSign, if_neg hminus, if_neg hplus]

theorem strtolSign_subset (p : List UInt8) : (strtolSign p).2 ⊆ p := by
  cases p with
  | nil => exact List.Subset.refl _
  | cons c rest =>
    unfold strtolSign
    dsimp only
    split
    · exact List.subset_cons_self c rest
    · split
      · exact List.subset_cons_self c rest
      · exact List.Subset.refl _

theorem strtolPrefix_subset {p rest : List UInt8} (h : strtolPrefix p = some rest) : rest ⊆ p := by
  unfold strtolPrefix at h
  split at h
  · next c x p =>
    split at h
    · obtain rfl := Option.some.inj h
      exact List.Subset.trans (List.subset_cons_self x p) (List.subset_cons_self c _)
    · exact absurd h.symm (Option.some_ne_none rest)
  · exact absurd h.symm (Option.some_ne_none rest)

theorem strtolBase_subset {base : Int} (hbase : base ≠ 0) (p : List UInt8) :
    (strtolBase base p).2 ⊆ p := by
  rw [strtolBase, if_neg hbase]
  split
  · cases h : strtolPrefix p with
    | none => exact List.Subset.refl p
    | some rest => exact strtolPrefix_subset h
  · exact List.Subset.refl p

/-- No digit of a base up to 16 is an `x`. -/
theorem strtolBase_digits {b : ℕ} (hb : 1 < b) {ds : List ℕ} (hds : ∀ d ∈ ds, d < b) :
    strtolBase b (ds.map digitByte) = ((b : Int), ds.map digitByte) := by
  have hzero : ¬ (b : Int) = 0 := by omega
  rw [strtolBase, if_neg hzero]
  by_cases hsixteen : (b : Int) = 16
  · have no_prefix : strtolPrefix (ds.map digitByte) = none := by
      match ds, hds with
      | [], _ => rfl
      | [_], _ => rfl
      | d :: e :: ds, hds =>
        have small : e < 16 := by
          have below := hds e (List.mem_cons_of_mem d List.mem_cons_self)
          omega
        have no_x : ∀ e < 16, ¬ (digitByte e = 120 ∨ digitByte e = 88) := by decide
        exact if_neg fun h => no_x e small h.2
    rw [if_pos hsixteen, no_prefix, hsixteen]
  · rw [if_neg hsixteen]

/-- What stands behind the sign of a numeral is read digit by digit. -/
theorem strtolLoop_numeral {b : ℕ} (hb : 1 < b) (hmax : b ≤ 36) (n : ℕ) :
    ∃ ds : List ℕ, (∀ d ∈ ds, d < b) ∧ numeral b n = ds.map digitByte ∧
      strtolLoop b (0 : BitVec w) (ds.map digitByte) = (BitVec.ofNat w n, []) := by
  obtain ⟨ds, hds, heq, hvalue⟩ := numeral_eq_map hb n
  refine ⟨ds, hds, heq, ?_⟩
  have read := strtolLoop_digits (w := w) hmax hds 0
  rw [Nat.zero_mul, Nat.zero_add, hvalue] at read
  exact read

/-- The text of a number, with a minus or without. -/
def signed (minus : Bool) (text : List UInt8) : List UInt8 := if minus then 45 :: text else text

theorem bytes_ofBytes {bytes : List UInt8} (h : ∀ c ∈ bytes, c ≠ 0) :
    (CString.ofBytes bytes).bytes = bytes :=
  List.takeWhile_eq_self_iff.mpr fun c hc => bne_iff_ne.mpr (h c hc)

/-- A numeral that is read gives its number, with a minus the negative one. -/
theorem parseText_numeral {b : ℕ} (hb : 1 < b) (hmax : b ≤ 36) (minus : Bool) (n : ℕ) :
    (parseText w (CString.ofBytes (signed minus (numeral b n))) b).1 =
      if minus then -BitVec.ofNat w n else BitVec.ofNat w n := by
  obtain ⟨ds, hds, heq, hread⟩ := strtolLoop_numeral (w := w) hb hmax n
  obtain ⟨d, rest, rfl⟩ : ∃ d rest, ds = d :: rest := by
    cases ds with
    | nil => exact absurd heq (numeral_ne_nil b n)
    | cons d rest => exact ⟨d, rest, rfl⟩
  have first : ∀ d < 36, digitByte d ≠ 45 ∧ digitByte d ≠ 43 ∧
      isStrtolSpace (digitByte d) = false := by decide
  have noNul : ∀ c ∈ signed minus (numeral b n), c ≠ 0 := by
    intro c hc
    cases minus with
    | false => exact numeral_noNul hb hmax c hc
    | true =>
      rcases List.mem_cons.mp hc with rfl | hc
      · decide
      · exact numeral_noNul hb hmax c hc
  obtain ⟨hminus, hplus, hspace⟩ := first d (by have below := hds d List.mem_cons_self; omega)
  rw [parseText, bytes_ofBytes noNul, heq]
  cases minus with
  | false =>
    have skipped : (signed false ((d :: rest).map digitByte)).dropWhile isStrtolSpace =
        digitByte d :: rest.map digitByte := List.dropWhile_cons_of_neg (by rw [hspace]; decide)
    rw [skipped, strtolSign_plain hminus hplus]
    dsimp only
    rw [← List.map_cons, strtolBase_digits hb hds, hread]
    exact BitVec.one_mul _
  | true =>
    have skipped : (signed true ((d :: rest).map digitByte)).dropWhile isStrtolSpace =
        45 :: (d :: rest).map digitByte := rfl
    have sign : strtolSign (45 :: (d :: rest).map digitByte) =
        (-1, (d :: rest).map digitByte) := rfl
    rw [skipped, sign]
    dsimp only
    rw [strtolBase_digits hb hds, hread]
    have minus_one : BitVec.ofInt w (-1) = -1#w := BitVec.ofInt_neg
    rw [minus_one, BitVec.neg_mul, BitVec.one_mul]
    rfl

/-- From characters up to `0` nothing but zero is read. -/
theorem parseText_low {base : Int} (hbase : base ≠ 0) {str : CString}
    (hstr : ∀ c ∈ str.bytes, c ≤ 48) : (parseText w str base).1 = 0 := by
  have low : ∀ c ∈ (strtolBase base (strtolSign (str.bytes.dropWhile isStrtolSpace)).2).2,
      c ≤ 48 := by
    intro c hc
    exact hstr c (List.dropWhile_subset _ (strtolSign_subset _ (strtolBase_subset hbase _ hc)))
  rw [parseText]
  dsimp only
  rw [strtolLoop_low _ low]
  exact BitVec.mul_zero

end Reading

/-! ## The round trip -/

/-- The text is a minus or none and then digits of the base, and what is read is the number. -/
structure RoundTrips {w : ℕ} (num : BitVec w) (base : Int) (text : List UInt8)
    (read : BitVec w × List UInt8) : Prop where
  text : ∃ minus digits, text = signed minus digits ∧ digits ≠ [] ∧
    ∀ c ∈ digits, ∃ d : ℕ, byteDigit c = some d ∧ (d : Int) < base
  value : read.1 = num

/-- The number has no sign, or one that the text can show. -/
def ShowsSign {w : ℕ} (num : BitVec w) (base : Int) : Prop :=
  0 ≤ num.toInt ∨ base = 10 ∧ num ≠ BitVec.intMin w

instance {w : ℕ} (num : BitVec w) (base : Int) : Decidable (ShowsSign num base) :=
  inferInstanceAs (Decidable (_ ∨ _))

section RoundTrip

variable {w b : ℕ}

theorem roundTrips_numeral (hb : 1 < b) (hmax : b ≤ 36) {num : BitVec w} {text : List UInt8}
    (minus : Bool) {n : ℕ} (htext : text = signed minus (numeral b n))
    (hnum : (if minus then -BitVec.ofNat w n else BitVec.ofNat w n) = num) :
    RoundTrips num b text (parseText w (CString.ofBytes text) b) where
  text := by
    refine ⟨minus, numeral b n, htext, numeral_ne_nil b n, fun c hc => ?_⟩
    obtain ⟨d, hd, rfl⟩ := mem_numeral hb hc
    exact ⟨d, byteDigit_digitByte (by omega), by exact_mod_cast hd⟩
  value := by rw [htext, parseText_numeral hb hmax, hnum]

/-- What the three pairs of functions have in common. -/
theorem toText_roundTrips_iff {base : Int} (hbase : 2 ≤ base) (hmax : base ≤ 36)
    (num : BitVec w) :
    RoundTrips num base (toText num base)
        (parseText w (CString.ofBytes (toText num base)) base) ↔ ShowsSign num base := by
  obtain ⟨b, rfl⟩ := Int.eq_ofNat_of_zero_le (by omega : 0 ≤ base)
  have hb : 1 < b := by omega
  have hle : b ≤ 36 := by omega
  by_cases hnum : 0 ≤ num.toInt
  · refine iff_of_true ?_ (.inl hnum)
    refine roundTrips_numeral hb hle false (toText_of_nonneg hb hle hnum) ?_
    exact (BitVec.ofNat_toNat w num).trans (BitVec.setWidth_eq num)
  · have negative := Int.not_le.mp hnum
    by_cases hsign : b = 10 ∧ num ≠ BitVec.intMin w
    · obtain ⟨rfl, hmin⟩ := hsign
      refine iff_of_true ?_ (.inr ⟨rfl, hmin⟩)
      refine roundTrips_numeral hb hle true (toText_of_neg negative hmin) ?_
      calc -BitVec.ofNat w num.toInt.natAbs
        _ = -BitVec.ofInt w (-num).toInt := by
          rw [toInt_neg_eq_natAbs negative hmin, BitVec.ofInt_natCast]
        _ = num := by rw [BitVec.ofInt_toInt, BitVec.neg_neg]
    · have stays : b ≠ 10 ∨ num = BitVec.intMin w := by
        by_contra hno
        rw [not_or, not_not] at hno
        exact hsign hno
      have low := toText_low hb hle negative stays
      refine iff_of_false (fun h => ?_) (fun h => ?_)
      · have read := h.value
        rw [parseText_low (by omega)] at read
        · exact ne_zero_of_neg negative read.symm
        · rw [bytes_ofBytes fun c hc => (low c hc).2]
          exact fun c hc => (low c hc).1
      · rcases h with h | ⟨hten, hmin⟩
        · exact hnum h
        · exact hsign ⟨by exact_mod_cast hten, hmin⟩

end RoundTrip

/-- The numbers that come back from their text, in every base from 2 to 36, are those without a sign
and in base 10 also those with a sign, but the most negative one. -/
theorem text_roundTrips_iff {base : Int} (hbase : 2 ≤ base) (hmax : base ≤ 36) :
    (∀ num : BitVec 32, RoundTrips num base (itoa num base)
        (strtol (CString.ofBytes (itoa num base)) base) ↔ ShowsSign num base) ∧
      (∀ num : BitVec 32, RoundTrips num base (ltoa num base)
        (strtol (CString.ofBytes (ltoa num base)) base) ↔ ShowsSign num base) ∧
      ∀ num : BitVec 64, RoundTrips num base (lltoa num base)
        (strtoll (CString.ofBytes (lltoa num base)) base) ↔ ShowsSign num base :=
  ⟨fun num => itoa_eq_toText num base ▸ toText_roundTrips_iff hbase hmax num,
    toText_roundTrips_iff hbase hmax, toText_roundTrips_iff hbase hmax⟩

/-- In base 16. -/
theorem text_roundTrips_iff_hex :
    (∀ num : BitVec 32, RoundTrips num 16 (itoa num 16)
        (strtol (CString.ofBytes (itoa num 16)) 16) ↔ ShowsSign num 16) ∧
      (∀ num : BitVec 32, RoundTrips num 16 (ltoa num 16)
        (strtol (CString.ofBytes (ltoa num 16)) 16) ↔ ShowsSign num 16) ∧
      ∀ num : BitVec 64, RoundTrips num 16 (lltoa num 16)
        (strtoll (CString.ofBytes (lltoa num 16)) 16) ↔ ShowsSign num 16 :=
  text_roundTrips_iff (by decide) (by decide)

/-- The text of -1 in base 16 is "/", which is no digit, and is read as 0. -/
theorem itoa_minus_one :
    itoa (-1) 16 = [47] ∧ ¬ RoundTrips (-1 : BitVec 32) 16 (itoa (-1) 16)
      (strtol (CString.ofBytes (itoa (-1) 16)) 16) := by
  have digits : itoaDigits (-1) 16 = [47] := by
    rw [itoaDigits, itoaDigits]
    rfl
  have text : itoa (-1) 16 = [47] := congrArg List.reverse digits
  refine ⟨text, fun h => ?_⟩
  have read := h.value
  rw [text] at read
  exact absurd read (by decide)

end Unics
