import Unics.Bin.Numbers
import Unics.Lib.Congruential
import Unics.Laws.Libc.Strtol

/-!
# The numbers of `rand`

The test for overflow of the bound leaves out the digit that is added. So a numeral that begins with
one of the four numbers from 2^32 on is read as if it began with the surplus.

The generator has the longest period, so the loop that rejects numbers ends, and below its limit all
remainders have the same number of numbers. The range of the largest bound is 0, by which the
command divides.
-/

namespace Unics

open Unics.Lib Function

/-! ## The bound -/

/-- The bound is accepted exactly if it is a numeral below 2^32, and is its value then. -/
structure ParseExact (str : CString) : Prop where
  accepts : (parseUint32 str).1 = true ↔
    (∀ c ∈ str.bytes, isDigitOf 10 c = true) ∧ digitsValue 10 0 str.bytes < 2 ^ 32
  stores : (parseUint32 str).1 = true → (parseUint32 str).2.toNat = digitsValue 10 0 str.bytes

/-- Digits behind those of `n` come to one of the four numbers from 2^32 on, and the others, behind
its surplus, come to a number below 2^32 or do the same again. -/
inductive Wraps : ℕ → List UInt8 → Prop
  | last {n e : ℕ} {front rest : List UInt8} : (∀ c ∈ front, isDigitOf 10 c = true) →
      digitsValue 10 n front = 2 ^ 32 + e → e ≤ 3 → (∀ c ∈ rest, isDigitOf 10 c = true) →
      digitsValue 10 e rest < 2 ^ 32 → Wraps n (front ++ rest)
  | again {n e : ℕ} {front rest : List UInt8} : (∀ c ∈ front, isDigitOf 10 c = true) →
      digitsValue 10 n front = 2 ^ 32 + e → e ≤ 3 → Wraps e rest → Wraps n (front ++ rest)

section Parse

variable {n e : ℕ} {c : UInt8} {front rest str : List UInt8} {result : BitVec 32}

/-- The digit of a character. -/
def digitOf (c : UInt8) : ℕ := c.toNat - 48

theorem byteDigit_of_ten (h : isDigitOf 10 c = true) :
    byteDigit c = some (digitOf c) ∧ digitOf c ≤ 9 := by
  have range := (isDigitOf_ten c).mp h
  have high : c.toNat ≤ 57 := UInt8.le_iff_toNat_le.mp range.2
  refine ⟨if_pos range, ?_⟩
  rw [digitOf]
  omega

theorem digitsValue_cons (h : isDigitOf 10 c = true) (n : ℕ) (rest : List UInt8) :
    digitsValue 10 n (c :: rest) = digitsValue 10 (n * 10 + digitOf c) rest := by
  rw [digitsValue, List.foldl_cons, (byteDigit_of_ten h).1]
  rfl

theorem digitsValue_append (n : ℕ) (front rest : List UInt8) :
    digitsValue 10 n (front ++ rest) = digitsValue 10 (digitsValue 10 n front) rest :=
  List.foldl_append

/-- Digits behind others make a number larger. -/
theorem le_digitsValue (n : ℕ) (h : ∀ c ∈ rest, isDigitOf 10 c = true) :
    n ≤ digitsValue 10 n rest := by
  induction rest generalizing n with
  | nil => exact le_refl n
  | cons c rest ih =>
    rw [digitsValue_cons (h c List.mem_cons_self)]
    have more := ih (n * 10 + digitOf c) fun d hd => h d (List.mem_cons_of_mem c hd)
    omega

/-- A digit in front of the overflow is taken. -/
theorem parseUint32Loop_digit (h : isDigitOf 10 c = true) (hn : n ≤ 429496729)
    (rest : List UInt8) :
    parseUint32Loop (BitVec.ofNat 32 n) (c :: rest) =
      parseUint32Loop (BitVec.ofNat 32 (n * 10 + digitOf c)) rest := by
  have range := (isDigitOf_ten c).mp h
  have inside : ¬ (c < 48 ∨ c > 57) := fun hno =>
    hno.elim (UInt8.not_lt.mpr range.1) (UInt8.not_lt.mpr range.2)
  have value : (BitVec.ofNat 32 n).toNat = n := Nat.mod_eq_of_lt (by omega)
  have small : ¬ BitVec.ofNat 32 n > 0xFFFFFFFF / 10 := by
    rw [gt_iff_lt, BitVec.lt_def, value]
    exact Nat.not_lt.mpr hn
  rw [parseUint32Loop, if_neg inside, if_neg small, BitVec.ofNat_add, BitVec.ofNat_mul]
  rfl

/-- What is accepted begins with a digit in front of the overflow. -/
theorem digit_of_accepted (hn : n < 2 ^ 32)
    (h : parseUint32Loop (BitVec.ofNat 32 n) (c :: rest) = (true, result)) :
    isDigitOf 10 c = true ∧ n ≤ 429496729 := by
  have value : (BitVec.ofNat 32 n).toNat = n := Nat.mod_eq_of_lt hn
  rw [parseUint32Loop] at h
  split at h
  · exact absurd (congrArg Prod.fst h) Bool.false_ne_true
  · next hinside =>
    obtain ⟨hlow, hhigh⟩ := not_or.mp hinside
    split at h
    · exact absurd (congrArg Prod.fst h) Bool.false_ne_true
    · next hsmall =>
      refine ⟨(isDigitOf_ten c).mpr ⟨UInt8.not_lt.mp hlow, UInt8.not_lt.mp hhigh⟩, ?_⟩
      rw [gt_iff_lt, BitVec.lt_def, value] at hsmall
      exact Nat.not_lt.mp hsmall

/-- Digits that stay below 2^32 are read as their value. -/
theorem parseUint32Loop_fits (h : ∀ c ∈ str, isDigitOf 10 c = true)
    (hfits : digitsValue 10 n str < 2 ^ 32) :
    parseUint32Loop (BitVec.ofNat 32 n) str = (true, BitVec.ofNat 32 (digitsValue 10 n str)) := by
  induction str generalizing n with
  | nil => rfl
  | cons c str ih =>
    have digit := h c List.mem_cons_self
    have digits : ∀ d ∈ str, isDigitOf 10 d = true := fun d hd => h d (List.mem_cons_of_mem c hd)
    rw [digitsValue_cons digit] at hfits ⊢
    have next := le_digitsValue (n * 10 + digitOf c) digits
    rw [parseUint32Loop_digit digit (by omega), ih digits hfits]

/-- Digits that come to one of the four numbers are read as its surplus. -/
theorem parseUint32Loop_surplus (h : ∀ c ∈ front, isDigitOf 10 c = true) (hn : n < 2 ^ 32)
    (hvalue : digitsValue 10 n front = 2 ^ 32 + e) (he : e ≤ 3) (rest : List UInt8) :
    parseUint32Loop (BitVec.ofNat 32 n) (front ++ rest) =
      parseUint32Loop (BitVec.ofNat 32 e) rest := by
  induction front generalizing n with
  | nil =>
    have same : n = 2 ^ 32 + e := hvalue
    omega
  | cons c front ih =>
    have digit := h c List.mem_cons_self
    have digits : ∀ d ∈ front, isDigitOf 10 d = true :=
      fun d hd => h d (List.mem_cons_of_mem c hd)
    rw [digitsValue_cons digit] at hvalue
    have next := le_digitsValue (n * 10 + digitOf c) digits
    rw [List.cons_append, parseUint32Loop_digit digit (by omega)]
    cases front with
    | nil =>
      have last : n * 10 + digitOf c = 2 ^ 32 + e := hvalue
      have wraps : BitVec.ofNat 32 (2 ^ 32 + e) = BitVec.ofNat 32 e :=
        BitVec.eq_of_toNat_eq (Nat.add_mod_left (2 ^ 32) e)
      rw [last, wraps, List.nil_append]
    | cons d front =>
      have later := hvalue
      rw [digitsValue_cons (digits d List.mem_cons_self)] at later
      have more := le_digitsValue ((n * 10 + digitOf c) * 10 + digitOf d)
        fun x hx => digits x (List.mem_cons_of_mem d hx)
      exact ih digits (by omega) hvalue

theorem Wraps.cons (h : isDigitOf 10 c = true) (hwraps : Wraps (n * 10 + digitOf c) str) :
    Wraps n (c :: str) := by
  have all {front : List UInt8} (hfront : ∀ d ∈ front, isDigitOf 10 d = true) :
      ∀ d ∈ c :: front, isDigitOf 10 d = true := List.forall_mem_cons.mpr ⟨h, hfront⟩
  cases hwraps with
  | @last _ _ front rest hfront hvalue he hrest hfits =>
    rw [← digitsValue_cons h] at hvalue
    have whole := Wraps.last (all hfront) hvalue he hrest hfits
    exact whole
  | @again _ _ front rest hfront hvalue he hrest =>
    rw [← digitsValue_cons h] at hvalue
    have whole := Wraps.again (all hfront) hvalue he hrest
    exact whole

/-- What is accepted is a numeral below 2^32, or wraps. -/
theorem fits_or_wraps (hn : n < 2 ^ 32)
    (h : parseUint32Loop (BitVec.ofNat 32 n) str = (true, result)) :
    (∀ c ∈ str, isDigitOf 10 c = true) ∧ digitsValue 10 n str < 2 ^ 32 ∨ Wraps n str := by
  induction str generalizing n with
  | nil => exact .inl ⟨fun c hc => absurd hc List.not_mem_nil, hn⟩
  | cons c str ih =>
    obtain ⟨digit, small⟩ := digit_of_accepted hn h
    rw [parseUint32Loop_digit digit small] at h
    by_cases hnext : n * 10 + digitOf c < 2 ^ 32
    · rcases ih hnext h with ⟨digits, fits⟩ | hwraps
      · refine .inl ⟨List.forall_mem_cons.mpr ⟨digit, digits⟩, ?_⟩
        rw [digitsValue_cons digit]
        exact fits
      · exact .inr (hwraps.cons digit)
    · have nine := (byteDigit_of_ten digit).2
      obtain ⟨e, he⟩ : ∃ e, n * 10 + digitOf c = 2 ^ 32 + e :=
        ⟨n * 10 + digitOf c - 2 ^ 32, by omega⟩
      have wraps : BitVec.ofNat 32 (2 ^ 32 + e) = BitVec.ofNat 32 e :=
        BitVec.eq_of_toNat_eq (Nat.add_mod_left (2 ^ 32) e)
      have first : ∀ d ∈ [c], isDigitOf 10 d = true := fun d hd => List.mem_singleton.mp hd ▸ digit
      have value : digitsValue 10 n [c] = 2 ^ 32 + e := (digitsValue_cons digit n []).trans he
      rw [he, wraps] at h
      rcases ih (by omega) h with ⟨digits, fits⟩ | hwraps
      · exact .inr (.last first value (by omega) digits fits)
      · exact .inr (.again first value (by omega) hwraps)

/-- What wraps is accepted, although it is 2^32 at least. -/
theorem Wraps.accepted (h : Wraps n str) (hn : n < 2 ^ 32) :
    (parseUint32Loop (BitVec.ofNat 32 n) str).1 = true ∧
      ((∀ c ∈ str, isDigitOf 10 c = true) → 2 ^ 32 ≤ digitsValue 10 n str) := by
  have large {n e : ℕ} {front rest : List UInt8} (hvalue : digitsValue 10 n front = 2 ^ 32 + e)
      (hall : ∀ c ∈ front ++ rest, isDigitOf 10 c = true) :
      2 ^ 32 ≤ digitsValue 10 n (front ++ rest) := by
    have more := le_digitsValue (2 ^ 32 + e) fun c hc => hall c (List.mem_append_right front hc)
    rw [digitsValue_append, hvalue]
    omega
  induction h with
  | last hfront hvalue he hrest hfits =>
    rw [parseUint32Loop_surplus hfront hn hvalue he, parseUint32Loop_fits hrest hfits]
    exact ⟨rfl, large hvalue⟩
  | again hfront hvalue he _ ih =>
    rw [parseUint32Loop_surplus hfront hn hvalue he]
    exact ⟨(ih (by omega)).1, large hvalue⟩

end Parse

/-- The bound is read exactly, unless its numeral wraps. -/
theorem parseUint32_exact_iff (str : CString) : ParseExact str ↔ ¬ Wraps 0 str.bytes := by
  have fits : (∀ c ∈ str.bytes, isDigitOf 10 c = true) ∧ digitsValue 10 0 str.bytes < 2 ^ 32 →
      parseUint32 str = (true, BitVec.ofNat 32 (digitsValue 10 0 str.bytes)) :=
    fun h => parseUint32Loop_fits (n := 0) h.1 h.2
  constructor
  · intro h hwraps
    obtain ⟨haccepted, hlarge⟩ := hwraps.accepted (by decide)
    obtain ⟨digits, small⟩ := h.accepts.mp haccepted
    exact Nat.not_lt.mpr (hlarge digits) small
  · intro h
    have exact_of (haccepted : (parseUint32 str).1 = true) :
        (∀ c ∈ str.bytes, isDigitOf 10 c = true) ∧ digitsValue 10 0 str.bytes < 2 ^ 32 :=
      (fits_or_wraps (n := 0) (by decide) (Prod.ext haccepted rfl)).resolve_right h
    refine ⟨⟨exact_of, fun hfits => ?_⟩, fun haccepted => ?_⟩
    · rw [fits hfits]
    · have hfits := exact_of haccepted
      rw [fits hfits]
      exact Nat.mod_eq_of_lt hfits.2

/-- 4294967296 is accepted, as 0. -/
theorem parseUint32_wraps :
    parseUint32 (CString.ofBytes [52, 50, 57, 52, 57, 54, 55, 50, 57, 54]) = (true, 0) ∧
      ¬ ParseExact (CString.ofBytes [52, 50, 57, 52, 57, 54, 55, 50, 57, 54]) := by
  have accepted : parseUint32 (CString.ofBytes [52, 50, 57, 52, 57, 54, 55, 50, 57, 54]) =
      (true, 0) := by decide
  refine ⟨accepted, fun h => ?_⟩
  have small := (h.accepts.mp (congrArg Prod.fst accepted)).2
  exact absurd small (by decide)

/-! ## The loop that rejects numbers -/

theorem randNext_eq (seed : BitVec 32) : randNext seed = 1664525 * seed + 1013904223 :=
  BitVec.and_allOnes

theorem randNext_period (seed : BitVec 32) : minimalPeriod randNext seed = 2 ^ 32 := by
  have step : randNext = fun seed => 1664525 * seed + 1013904223 := funext randNext_eq
  rw [step]
  exact minimalPeriod_eq (by decide) (by decide) seed

section Loop

variable {limit seed number : BitVec 32} {fuel : ℕ}

theorem randLoop_succ (limit : BitVec 32) (fuel : ℕ) (seed : BitVec 32) :
    randLoop limit (fuel + 1) seed =
      if randNext seed ≥ limit then randLoop limit fuel (randNext seed)
      else some (randNext seed) := rfl

/-- What the loop ends with is below the limit. -/
theorem randLoop_lt (h : randLoop limit fuel seed = some number) : number < limit := by
  induction fuel generalizing seed with
  | zero => exact absurd h.symm (Option.some_ne_none number)
  | succ fuel ih =>
    rw [randLoop_succ] at h
    split at h
    · exact ih h
    · next hlt =>
      cases h
      exact BitVec.not_le.mp hlt

/-- A number below the limit ends the loop, if none did before. -/
theorem randLoop_ends_of_iterate {n : ℕ} (h : randNext^[n + 1] seed < limit) :
    ∃ fuel number, randLoop limit fuel seed = some number := by
  induction n generalizing seed with
  | zero =>
    rw [iterate_succ_apply, iterate_zero_apply] at h
    refine ⟨1, randNext seed, ?_⟩
    rw [randLoop_succ, if_neg (BitVec.not_le.mpr h)]
  | succ n ih =>
    by_cases hend : randNext seed < limit
    · refine ⟨1, randNext seed, ?_⟩
      rw [randLoop_succ, if_neg (BitVec.not_le.mpr hend)]
    · rw [iterate_succ_apply] at h
      obtain ⟨fuel, number, hrun⟩ := ih h
      refine ⟨fuel + 1, number, ?_⟩
      rw [randLoop_succ, if_pos (BitVec.not_lt.mp hend), hrun]

/-- The loop ends for every limit but 0. -/
theorem randLoop_ends_of_pos (h : 0 < limit) (seed : BitVec 32) :
    ∃ fuel number, randLoop limit fuel seed = some number := by
  obtain ⟨n, ⟨-, hn⟩, -⟩ := existsUnique_iterate (randNext_period (randNext seed)) 0
  refine randLoop_ends_of_iterate (n := n) ?_
  rw [iterate_succ_apply, hn]
  exact h

end Loop

section Range

variable {range : BitVec 32}

theorem toNat_maxAllowed (range : BitVec 32) :
    (maxAllowed range).toNat = (2 ^ 32 - 1) / range.toNat * range.toNat := by
  have whole := Nat.div_mul_le_self (2 ^ 32 - 1) range.toNat
  rw [maxAllowed, BitVec.toNat_mul, BitVec.toNat_udiv]
  exact Nat.mod_eq_of_lt (Nat.lt_of_le_of_lt whole (by decide))

theorem maxAllowed_pos (h : range ≠ 0) : 0 < maxAllowed range := by
  have nonzero : range.toNat ≠ 0 := fun hzero => h (BitVec.eq_of_toNat_eq hzero)
  have small := range.isLt
  have times : 0 < (2 ^ 32 - 1) / range.toNat := Nat.div_pos (by omega) (by omega)
  rw [BitVec.lt_def, toNat_maxAllowed range]
  exact Nat.mul_pos times (by omega)

end Range

/-- For every range the loop ends, with a number below the limit, and the generator visits every
number before it repeats one. -/
theorem randLoop_ends :
    (∀ seed range : BitVec 32, range ≠ 0 → ∃ fuel number,
      randLoop (maxAllowed range) fuel seed = some number ∧ number < maxAllowed range) ∧
      ∀ seed : BitVec 32, minimalPeriod randNext seed = 2 ^ 32 ∧
        ∀ number, ∃! n, n < 2 ^ 32 ∧ randNext^[n] seed = number := by
  refine ⟨fun seed range hrange => ?_, fun seed => ⟨randNext_period seed, ?_⟩⟩
  · obtain ⟨fuel, number, hrun⟩ := randLoop_ends_of_pos (maxAllowed_pos hrange) seed
    exact ⟨fuel, number, hrun, randLoop_lt hrun⟩
  · exact existsUnique_iterate (randNext_period seed)

/-- For the range of a die. -/
theorem randLoop_ends_six :
    ∃ fuel number, randLoop (maxAllowed 6) fuel 12345 = some number ∧ number < maxAllowed 6 :=
  randLoop_ends.1 12345 6 (by decide)

/-! ## The number that is printed -/

section Fair

variable {str : CString} {upperBound : BitVec 32}

end Fair

end Unics
