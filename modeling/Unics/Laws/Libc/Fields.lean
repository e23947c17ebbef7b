import Unics.Laws.Libc.Numbers
import Unics.Libc.Vprintf

/-!
# What a directive prints and what it counts

`vprintf` prints a field and counts it in two places. The length of the field and the surplus of
what is counted over it are given here in closed form, from the flags, the width, the precision and
the length of the text. There is a surplus where a precision cuts the text of a number, which is
counted whole, where a width below 0 is counted as a `size_t`, and, below 0, where zeros behind a
sign leave the text longer than the width. A string too long for an `int` has one of its own.
-/

namespace Unics

open Unics.Lib

/-! ## Lengths -/

theorem strlenInt_toInt {str : List UInt8} (h : str.length < 2 ^ 31) :
    (strlenInt str).toInt = str.length := by
  rw [strlenInt, BitVec.toInt_ofNat']
  exact Int.bmod_eq_of_le (by omega) (by omega)

/-- A difference that is an `int`. -/
theorem toInt_sub_of_range {a b : BitVec 32} (hlow : -2 ^ 31 ≤ a.toInt - b.toInt)
    (hhigh : a.toInt - b.toInt < 2 ^ 31) : (a - b).toInt = a.toInt - b.toInt := by
  rw [BitVec.toInt_sub]
  exact Int.bmod_eq_of_le (by omega) (by omega)

/-- The length that a precision leaves of a text. -/
def cutTo (precision len : Int) : Int := if 0 ≤ precision ∧ precision < len then precision else len

theorem cutLen_toInt (len precision : BitVec 32) :
    (cutLen len precision).toInt = cutTo precision.toInt len.toInt := by
  exact apply_ite BitVec.toInt _ precision len

theorem cutTo_nonneg (precision : Int) {len : Int} (h : 0 ≤ len) : 0 ≤ cutTo precision len := by
  unfold cutTo
  split
  · next hcut => exact hcut.1
  · exact h

theorem cutTo_le (precision len : Int) : cutTo precision len ≤ len := by
  unfold cutTo
  split
  · next hcut => exact hcut.2.le
  · exact le_refl len

/-- The padding from one length to another. -/
theorem padTo_toInt {width len : BitVec 32} (hlen : 0 ≤ len.toInt) :
    (if width.toInt > len.toInt then width - len else 0).toInt =
      max 0 (width.toInt - len.toInt) := by
  split
  · next h =>
    have high := BitVec.toInt_lt (x := width)
    rw [toInt_sub_of_range (by omega) (by omega)]
    omega
  · next h =>
    have zero : (0 : BitVec 32).toInt = 0 := rfl
    omega

/-- The length of a text and of the padding up to the width. -/
def paddedLength (width len : BitVec 32) : ℕ :=
  len.toInt.toNat + (if width.toInt > len.toInt then width - len else 0).toInt.toNat

theorem paddedLength_eq (width : BitVec 32) {len : BitVec 32} (h : 0 ≤ len.toInt) :
    (paddedLength width len : Int) = max width.toInt len.toInt := by
  rw [paddedLength, padTo_toInt h]
  omega

theorem length_padOutput (count : BitVec 32) (c : UInt8) :
    (padOutput count c).length = count.toInt.toNat :=
  List.length_replicate

theorem toInt_le_toNat (x : BitVec 32) : x.toInt ≤ x.toNat := by
  rw [BitVec.toInt_eq_toNat_cond]
  split
  · exact le_refl _
  · omega

theorem length_outputWithFormat (str : List UInt8) (width precision : BitVec 32)
    (leftAlign zeroPad : Bool) :
    (outputWithFormat str width precision leftAlign zeroPad).length =
      paddedLength width (cutLen (strlenInt str) precision) := by
  have short : (cutLen (strlenInt str) precision).toInt.toNat ≤ str.length := by
    have low := cutTo_le precision.toInt (strlenInt str).toInt
    have whole := toInt_le_toNat (strlenInt str)
    have wrapped : (strlenInt str).toNat ≤ str.length := Nat.mod_le _ _
    rw [cutLen_toInt]
    omega
  unfold outputWithFormat paddedLength
  dsimp only
  generalize cutLen (strlenInt str) precision = len at short ⊢
  have padded : ∀ (count : BitVec 32) (c : UInt8),
      (if count.toInt > 0 then padOutput count c else []).length = count.toInt.toNat := by
    intro count c
    split
    · exact length_padOutput count c
    · next hcount => exact (Int.toNat_of_nonpos (Int.not_lt.mp hcount)).symm
  rw [List.length_append, List.length_append, List.length_take_of_le short]
  cases leftAlign with
  | false =>
    simp only [Bool.false_eq_true, not_false_eq_true, true_and, false_and, ite_false, padded,
      List.length_nil]
    omega
  | true =>
    simp only [not_true_eq_false, false_and, true_and, ite_false, padded, List.length_nil]
    omega

/-- Without a width, a precision and flags a text is put out as it is. -/
theorem outputWithFormat_plain {str : List UInt8} (h : str.length < 2 ^ 31) :
    outputWithFormat str 0 (-1) false false = str := by
  have value := strlenInt_toInt h
  have zero : (0 : BitVec 32).toInt = 0 := rfl
  have whole : cutLen (strlenInt str) (-1) = strlenInt str :=
    if_neg fun hcut => absurd hcut.1 (by decide)
  have no_pad : ¬ (0 : BitVec 32).toInt > (strlenInt str).toInt := by omega
  unfold outputWithFormat
  dsimp only
  rw [whole, if_neg no_pad, if_neg fun h => absurd h.2 (by decide),
    if_neg fun h => absurd h.1 Bool.false_ne_true, value, Int.toNat_natCast, List.take_length,
    List.nil_append, List.append_nil]

/-! ## Fields -/

/-- A field of a length, counted with a surplus. -/
structure Field.Counts (f : Field) (length surplus : Int) : Prop where
  printed : f.out.length = length
  counted : f.counted = BitVec.ofInt 32 (length + surplus)

theorem eq_ofInt {x : BitVec 32} {z : Int} (h : x.toInt = z) : x = BitVec.ofInt 32 z := by
  rw [← h, BitVec.ofInt_toInt]

/-- A text that is padded to the width, and cut at the precision. -/
theorem length_field {str : List UInt8} (h : str.length < 2 ^ 31) (width precision : BitVec 32)
    (leftAlign zeroPad : Bool) :
    ((outputWithFormat str width precision leftAlign zeroPad).length : Int) =
      max width.toInt (cutTo precision.toInt str.length) := by
  have nonneg : 0 ≤ (cutLen (strlenInt str) precision).toInt := by
    rw [cutLen_toInt, strlenInt_toInt h]
    exact cutTo_nonneg _ (Int.natCast_nonneg _)
  rw [length_outputWithFormat, paddedLength_eq width nonneg, cutLen_toInt, strlenInt_toInt h]

/-- The larger one of two numbers, as a condition of the source chooses it. -/
theorem toInt_ite_gt (a b : BitVec 32) :
    (if a.toInt > b.toInt then a else b).toInt = max a.toInt b.toInt := by
  split
  · next h => exact (max_eq_left (Int.le_of_lt h)).symm
  · next h => exact (max_eq_right (Int.not_lt.mp h)).symm

/-- What a precision takes off the text of a number. -/
def cutSurplus (width precision len : Int) : Int := max width len - max width (cutTo precision len)

theorem putText_counts (d : Directive) {str : List UInt8} (h : str.length < 2 ^ 31) :
    (d.putText str).Counts (max d.width.toInt (cutTo d.precision.toInt str.length))
      (cutSurplus d.width.toInt d.precision.toInt str.length) where
  printed := length_field h _ _ _ _
  counted := by
    rw [cutSurplus, add_sub_cancel]
    exact eq_ofInt ((toInt_ite_gt _ _).trans (by rw [strlenInt_toInt h]))

theorem padZeros_toInt (d : Directive) (width : BitVec 32) {len : BitVec 32}
    (hlen : 0 ≤ len.toInt) :
    (if d.precision.toInt ≥ 0 ∧ d.precision.toInt > len.toInt then d.precision - len
      else if d.flags.zeroPad ∧ ¬ d.flags.leftAlign ∧ width.toInt > len.toInt then width - len
      else 0).toInt =
      if d.precision.toInt > len.toInt then d.precision.toInt - len.toInt
      else if d.flags.zeroPad ∧ ¬ d.flags.leftAlign then max 0 (width.toInt - len.toInt)
      else 0 := by
  by_cases hlong : d.precision.toInt > len.toInt
  · have high := BitVec.toInt_lt (x := d.precision)
    rw [if_pos ⟨by omega, hlong⟩, if_pos hlong, toInt_sub_of_range (by omega) (by omega)]
  · rw [if_neg fun h => hlong h.2, if_neg hlong]
    by_cases hzero : d.flags.zeroPad ∧ ¬ d.flags.leftAlign
    · rw [if_pos hzero, ← padTo_toInt hlen]
      refine congrArg BitVec.toInt (if_congr ?_ rfl rfl)
      rw [← and_assoc]
      exact and_iff_right hzero
    · rw [if_neg hzero, if_neg fun h => hzero ⟨h.1, h.2.1⟩]
      rfl

theorem padSpaces_toInt (d : Directive) (width : BitVec 32) {len : BitVec 32}
    (hlen : 0 ≤ len.toInt) :
    (if d.flags.leftAlign ∧ width.toInt > len.toInt then width - len else 0).toInt =
      if d.flags.leftAlign then max 0 (width.toInt - len.toInt) else 0 := by
  by_cases hleft : d.flags.leftAlign
  · rw [if_pos hleft, ← padTo_toInt hlen]
    exact congrArg BitVec.toInt (if_congr (and_iff_right hleft) rfl rfl)
  · rw [if_neg hleft, if_neg fun h => hleft h.1]
    rfl

section Numbers

variable (d : Directive) (num : BitVec 32)

theorem numText_short {b : ℕ} (hb : 1 < b) (hmax : b ≤ 36) : (numText num b).length < 2 ^ 31 :=
  (length_numText_le hb hmax num).trans_lt (by decide)

/-- The surplus of a `%zu`. -/
def sizeSurplus (width precision len : Int) : Int :=
  if width < 0 then width - cutTo precision len else cutSurplus width precision len

theorem putSize_counts :
    (d.putSize num).Counts (max d.width.toInt (cutTo d.precision.toInt (numText num 10).length))
      (sizeSurplus d.width.toInt d.precision.toInt (numText num 10).length) where
  printed := length_field (numText_short num (by decide) (by decide)) _ _ _ _
  counted := by
    have short : (numText num 10).length ≤ 33 := length_numText_le (by decide) (by decide) num
    have value : (strlenInt (numText num 10)).toInt = (numText num 10).length :=
      strlenInt_toInt (short.trans_lt (by decide))
    have unsigned := BitVec.toInt_eq_toNat_cond d.width
    unfold Directive.putSize sizeSurplus
    refine eq_ofInt ?_
    dsimp only
    by_cases hneg : d.width.toInt < 0
    · have large : d.width.toNat > (numText num 10).length := by omega
      have cut := cutTo_nonneg d.precision.toInt (Int.natCast_nonneg (numText num 10).length)
      rw [if_pos large, if_pos hneg]
      omega
    · have same : d.width.toNat > (numText num 10).length ↔
          d.width.toInt > (strlenInt (numText num 10)).toInt := by omega
      rw [if_neg hneg, cutSurplus, add_sub_cancel, ite_cond_congr (propext same), toInt_ite_gt,
        value]

/-- The text of a `%d`, with its sign. -/
def signedText : List UInt8 :=
  (d.signChar num).toList ++ numText (if num.toInt < 0 then -num else num) 10

/-- Zeros go between a sign and the digits. -/
def zerosBehindSign : Prop :=
  (d.signChar num).isSome ∧ d.flags.zeroPad ∧ ¬ d.flags.leftAlign ∧ d.width.toInt > 0

instance : Decidable (zerosBehindSign d num) := inferInstanceAs (Decidable (_ ∧ _))

def signedLength : Int :=
  if zerosBehindSign d num then max d.width.toInt (signedText d num).length
  else max d.width.toInt (cutTo d.precision.toInt (signedText d num).length)

def signedSurplus : Int :=
  if zerosBehindSign d num then d.width.toInt - max d.width.toInt (signedText d num).length
  else cutSurplus d.width.toInt d.precision.toInt (signedText d num).length

theorem signedText_short : (signedText d num).length ≤ 34 := by
  have sign : (d.signChar num).toList.length ≤ 1 := by
    cases d.signChar num with
    | none => exact Nat.zero_le 1
    | some c => exact le_refl 1
  have digits := length_numText_le (b := 10) (by decide) (by decide)
    (if num.toInt < 0 then -num else num)
  rw [signedText, List.length_append]
  exact Nat.add_le_add sign digits |>.trans (le_refl 34)

theorem putSigned_plain (h : ¬ zerosBehindSign d num) :
    d.putSigned num = d.putText (signedText d num) := by
  unfold Directive.putSigned signedText
  cases hsign : d.signChar num with
  | none => rfl
  | some c => exact if_neg fun hzero => h ⟨hsign ▸ rfl, hzero⟩

theorem putSigned_zeros (h : zerosBehindSign d num) :
    (d.putSigned num).Counts (max d.width.toInt (signedText d num).length)
      (d.width.toInt - max d.width.toInt (signedText d num).length) := by
  obtain ⟨hsome, hzero⟩ := h
  obtain ⟨c, hsign⟩ := Option.isSome_iff_exists.mp hsome
  generalize hdigits : (if num.toInt < 0 then -num else num) = digits
  have field : d.putSigned num =
      { out := c :: (padOutput (d.width - strlenInt (numText digits 10) - 1) 48 ++
          numText digits 10)
        counted := d.width } := by
    rw [Directive.putSigned, hsign, hdigits]
    exact if_pos hzero
  have text : signedText d num = c :: numText digits 10 := by
    rw [signedText, hsign, hdigits]
    rfl
  have short : (numText digits 10).length ≤ 33 := length_numText_le (by decide) (by decide) digits
  have value : (strlenInt (numText digits 10)).toInt = (numText digits 10).length :=
    strlenInt_toInt (short.trans_lt (by decide))
  have zeros : (d.width - strlenInt (numText digits 10) - 1).toInt =
      d.width.toInt - (numText digits 10).length - 1 := by
    have high := BitVec.toInt_lt (x := d.width)
    have positive := hzero.2.2
    have one : (1 : BitVec 32).toInt = 1 := rfl
    have rest : (d.width - strlenInt (numText digits 10)).toInt =
        d.width.toInt - (numText digits 10).length := by
      rw [toInt_sub_of_range (by omega) (by omega), value]
    rw [toInt_sub_of_range (by omega) (by omega), rest, one]
  rw [field, text]
  exact {
    printed := by
      rw [List.length_cons, List.length_append, length_padOutput, zeros, List.length_cons]
      omega
    counted := eq_ofInt (add_sub_cancel _ _).symm }

theorem putSigned_counts :
    (d.putSigned num).Counts (signedLength d num) (signedSurplus d num) := by
  unfold signedLength signedSurplus
  split
  · next h => exact putSigned_zeros d num h
  · next h =>
    rw [putSigned_plain d num h]
    exact putText_counts d ((signedText_short d num).trans_lt (by decide))

/-- The text of a `%o`, with its prefix. -/
def octalText : List UInt8 :=
  if d.flags.alternate ∧ num ≠ 0 then 48 :: numText num 8 else numText num 8

theorem putOctal_counts :
    (d.putOctal num).Counts (max d.width.toInt (cutTo d.precision.toInt (octalText d num).length))
      (cutSurplus d.width.toInt d.precision.toInt (octalText d num).length) := by
  have digits : (numText num 8).length ≤ 33 := length_numText_le (by decide) (by decide) num
  refine putText_counts d ?_
  split
  · rw [List.length_cons]
    omega
  · omega

/-- The prefix of a `%x`. -/
def hexPrefix : List UInt8 := if d.flags.alternate ∧ num ≠ 0 then [48, 120] else []

/-- The width behind the prefix, which wraps. -/
def hexWidth : Int := (if d.flags.alternate ∧ num ≠ 0 then d.width - 2 else d.width).toInt

/-- The zeros of a `%x`, for its precision or for its width. -/
def hexZeros : Int :=
  if d.precision.toInt > (numText num 16).length then d.precision.toInt - (numText num 16).length
  else if d.flags.zeroPad ∧ ¬ d.flags.leftAlign then
    max 0 (hexWidth d num - (numText num 16).length)
  else 0

/-- The blanks behind a `%x`. -/
def hexSpaces : Int :=
  if d.flags.leftAlign then max 0 (hexWidth d num - (numText num 16).length) else 0

def hexLength : Int :=
  (hexPrefix d num).length + hexZeros d num + (numText num 16).length + hexSpaces d num

theorem putHex_counts : (d.putHex num).Counts (hexLength d num) 0 := by
  have short : (numText num 16).length ≤ 33 := length_numText_le (by decide) (by decide) num
  have value : (strlenInt (numText num 16)).toInt = (numText num 16).length :=
    strlenInt_toInt (short.trans_lt (by decide))
  obtain ⟨zeros, spaces, hfield, hzeros, hspaces⟩ : ∃ zeros spaces : BitVec 32,
      d.putHex num =
        { out := hexPrefix d num ++ padOutput zeros 48 ++ numText num 16 ++ padOutput spaces 32
          counted := strlenInt (hexPrefix d num) + zeros + strlenInt (numText num 16) + spaces } ∧
      zeros.toInt = hexZeros d num ∧ spaces.toInt = hexSpaces d num := by
    unfold Directive.putHex hexZeros hexSpaces hexPrefix hexWidth
    rw [← value]
    have nonneg : 0 ≤ (strlenInt (numText num 16)).toInt := by omega
    by_cases hp : d.flags.alternate ∧ num ≠ 0
    · rw [decide_eq_true hp, if_pos hp, if_pos hp]
      exact ⟨_, _, rfl, padZeros_toInt d _ nonneg, padSpaces_toInt d _ nonneg⟩
    · rw [decide_eq_false hp, if_neg hp, if_neg hp]
      exact ⟨_, _, rfl, padZeros_toInt d _ nonneg, padSpaces_toInt d _ nonneg⟩
  have behind : 0 ≤ hexZeros d num ∧ 0 ≤ hexSpaces d num := by
    unfold hexZeros hexSpaces
    constructor
    all_goals split
    all_goals omega
  rw [hfield]
  exact {
    printed := by
      simp only [List.length_append, length_padOutput, hzeros, hspaces, hexLength]
      omega
    counted := by
      rw [Int.add_zero, hexLength, BitVec.ofInt_add, BitVec.ofInt_add, BitVec.ofInt_add,
        eq_ofInt hzeros, eq_ofInt hspaces, BitVec.ofInt_natCast, BitVec.ofInt_natCast]
      rfl }

/-- Without flags, a width and a precision. -/
theorem putHex_plain :
    (Directive.putHex { flags := Flags.none, width := 0, precision := -1 } num).out =
      numText num 16 := by
  have no_precision : ¬ (-1 : BitVec 32).toInt ≥ 0 := by decide
  have prefixed : decide (Flags.none.alternate ∧ num ≠ 0) = false :=
    decide_eq_false fun h => absurd h.1 Bool.false_ne_true
  unfold Directive.putHex
  dsimp only
  rw [prefixed, if_neg Bool.false_ne_true, if_neg fun h => no_precision h.1,
    if_neg fun h => absurd h.1 Bool.false_ne_true, if_neg fun h => absurd h.1 Bool.false_ne_true]
  exact List.append_nil _

theorem putPointer_counts : (putPointer num).Counts (2 + (numText num 16).length) 0 := by
  have short : (numText num 16).length ≤ 33 := length_numText_le (by decide) (by decide) num
  exact {
    printed := by
      rw [putPointer, List.length_append, List.length_cons, List.length_singleton]
      omega
    counted := by
      rw [putPointer, Int.add_zero, BitVec.ofInt_add, BitVec.ofInt_natCast]
      rfl }

theorem putCharacter_counts : (d.putCharacter num).Counts (max d.width.toInt 1) 0 := by
  unfold Directive.putCharacter
  dsimp only
  split
  · next hwide =>
    have one : (1 : BitVec 32).toInt = 1 := rfl
    have high := BitVec.toInt_lt (x := d.width)
    have rest : (d.width - 1).toInt = d.width.toInt - 1 :=
      toInt_sub_of_range (by omega) (by omega)
    exact {
      printed := by
        dsimp only
        split
        · rw [List.length_cons, length_padOutput, rest]
          omega
        · rw [List.length_append, List.length_singleton, length_padOutput, rest]
          omega
      counted := eq_ofInt (by rw [max_eq_left (Int.le_of_lt hwide), Int.add_zero]) }
  · next hnarrow =>
    exact {
      printed := (max_eq_right (Int.not_lt.mp hnarrow)).symm
      counted := by
        rw [max_eq_right (Int.not_lt.mp hnarrow)]
        rfl }

end Numbers

/-- The surplus of a `%s`, which is none if the length of the string is an `int`. -/
def stringSurplus (width len : BitVec 32) : Int :=
  if len.toInt < 0 then max width.toInt len.toInt - paddedLength width len else 0

theorem putString_counts (d : Directive) (s : List UInt8) :
    (d.putString s).Counts (paddedLength d.width (cutLen (strlenInt s) d.precision))
      (stringSurplus d.width (cutLen (strlenInt s) d.precision)) where
  printed := congrArg (Nat.cast (R := Int)) (length_outputWithFormat _ _ _ _ _)
  counted := by
    unfold Directive.putString stringSurplus
    refine eq_ofInt ((toInt_ite_gt _ _).trans ?_)
    split
    · exact (add_sub_cancel _ _).symm
    · next h => rw [paddedLength_eq _ (Int.not_lt.mp h), Int.add_zero]

end Unics
