import Unics.Laws.Libc.Vprintf

/-!
# Unsigned numbers in formatted output

All unsigned conversions go through `itoa`, which takes an `int`. The text is the numeral of the
number up to 2^31, and of a larger number never.
-/

namespace Unics

open Unics.Lib

/-- The unsigned conversions. -/
inductive UnsignedLetter where
  | u
  | x
  | zu
  | o
  | p
  deriving DecidableEq

namespace UnsignedLetter

/-- The canonical numeral, behind `0x` for a `%p`. -/
def canonical : UnsignedLetter → BitVec 32 → List UInt8
  | .u, num => numeral 10 num.toNat
  | .x, num => numeral 16 num.toNat
  | .zu, num => numeral 10 num.toNat
  | .o, num => numeral 8 num.toNat
  | .p, num => [48, 120] ++ numeral 16 num.toNat

def screenConversion : UnsignedLetter → BitVec 32 → Vprintf.Conversion
  | .u, num => .unsigned num
  | .x, num => .hex false num
  | .zu, num => .size num
  | .o, num => .octal num
  | .p, num => .pointer num

/-- The conversion of `vprintf`, with nothing between the `%` and the letter. -/
def screenPiece (letter : UnsignedLetter) (num : BitVec 32) : Vprintf.Piece :=
  .directive .plain (letter.screenConversion num)

/-- The conversion of `vsprintf` and `vsnprintf`, which have no `%zu` and no `%o`. -/
def bufferPiece : UnsignedLetter → BitVec 32 → Option Piece
  | .u, num => some (.conv .none (.number .u num))
  | .x, num => some (.conv .none (.number .x num))
  | .p, num => some (.conv .none (.ptr num))
  | _, _ => none

/-- What a conversion prints, in whichever function. -/
def printed : UnsignedLetter → BitVec 32 → List UInt8
  | .u, num => numText num 10
  | .x, num => numText num 16
  | .zu, num => numText num 10
  | .o, num => numText num 8
  | .p, num => [48, 120] ++ numText num 16

variable (letter : UnsignedLetter) (num : BitVec 32)

theorem printed_eq_canonical_iff :
    letter.printed num = letter.canonical num ↔ num.toNat < 2 ^ 31 := by
  cases letter with
  | u => exact numText_eq_numeral_iff (by decide) (by decide) num
  | x => exact numText_eq_numeral_iff (by decide) (by decide) num
  | zu => exact numText_eq_numeral_iff (by decide) (by decide) num
  | o => exact numText_eq_numeral_iff (by decide) (by decide) num
  | p =>
    refine Iff.trans ?_ (numText_eq_numeral_iff (b := 16) (by decide) (by decide) num)
    exact List.append_right_inj [48, 120]

theorem out_screenPiece (text : BitVec 32 → CString) :
    ((letter.screenPiece num).field text).out = letter.printed num := by
  have short : ∀ {b : ℕ}, 1 < b → b ≤ 36 → (numText num b).length < 2 ^ 31 :=
    fun hb hmax => numText_short num hb hmax
  cases letter with
  | u => exact outputWithFormat_plain (short (by decide) (by decide))
  | x => exact putHex_plain num
  | zu => exact outputWithFormat_plain (short (by decide) (by decide))
  | o => exact outputWithFormat_plain (short (by decide) (by decide))
  | p => rfl

theorem text_bufferPiece {piece : Piece} (h : piece ∈ letter.bufferPiece num) :
    piece.text = letter.printed num ∧ piece.NoWidth := by
  cases letter with
  | u =>
    obtain rfl := Option.some.inj h
    exact ⟨rfl, rfl⟩
  | x =>
    obtain rfl := Option.some.inj h
    exact ⟨rfl, rfl⟩
  | p =>
    obtain rfl := Option.some.inj h
    exact ⟨rfl, rfl⟩
  | zu => exact absurd h.symm (Option.some_ne_none piece)
  | o => exact absurd h.symm (Option.some_ne_none piece)

/-- Such a piece prints something. -/
theorem not_endsEmpty {piece : Piece} (h : piece ∈ letter.bufferPiece num) :
    ¬ EndsEmpty [piece] := by
  rintro ⟨width, hlast⟩
  obtain rfl : piece = _ := Option.some.inj hlast
  cases letter with
  | zu => exact absurd h.symm (Option.some_ne_none _)
  | o => exact absurd h.symm (Option.some_ne_none _)
  | _ => cases h

end UnsignedLetter

/-- Every unsigned conversion prints the canonical numeral of the numbers below 2^31, and of no
other: those of `vprintf`, and those of `vsprintf` and `vsnprintf`, with room for the text. -/
theorem unsigned_canonical_iff (letter : UnsignedLetter) (num : BitVec 32) :
    (∀ (text : BitVec 32 → CString) (fixed : BitVec 64 → CString) (args : VaList),
      (vprintf text fixed (Vprintf.formatOf [letter.screenPiece num])
          (Vprintf.wordsOf [letter.screenPiece num] ++ₛ args)).map Vprintf.out =
        some (letter.canonical num) ↔ num.toNat < 2 ^ 31) ∧
      ∀ piece ∈ letter.bufferPiece num, ∀ args : List Arg,
        ((vsprintf (formatOf [piece]) (argsOf [piece] ++ args)).map Printed.bytes =
          some (letter.canonical num) ↔ num.toNat < 2 ^ 31) ∧
        ∀ n, piece.text.length < n →
          ((vsnprintf n (formatOf [piece]) (argsOf [piece] ++ args)).map Printed.bytes =
            some (letter.canonical num) ↔ num.toNat < 2 ^ 31) := by
  have exact_iff : some (letter.printed num) = some (letter.canonical num) ↔ num.toNat < 2 ^ 31 :=
    (Option.some_inj).trans (letter.printed_eq_canonical_iff num)
  refine ⟨fun text fixed args => ?_, fun piece hpiece args => ?_⟩
  · have screen : (vprintf text fixed (Vprintf.formatOf [letter.screenPiece num])
        (Vprintf.wordsOf [letter.screenPiece num] ++ₛ args)).map Vprintf.out =
        some (letter.printed num) := by
      rw [Vprintf.vprintf_pieces, Option.map_some, List.flatMap_singleton, letter.out_screenPiece]
    rw [screen]
    exact exact_iff
  · obtain ⟨htext, hwidth⟩ := letter.text_bufferPiece num hpiece
    have printed : printedOf [piece] = letter.printed num :=
      (List.append_nil piece.text).trans htext
    refine ⟨?_, fun n hn => ?_⟩
    · rw [vsprintf_pieces, Option.map_some, printed]
      exact exact_iff
    · have fits : (([] ++ printedOf [piece]).length : Int) ≤ (n : Int) - 1 := by
        rw [List.nil_append, printed, ← htext]
        omega
      have buffer := vsnprintfLoop_pieces [piece] (List.forall_mem_singleton.mpr hwidth) [] args
        fits fun _ => letter.not_endsEmpty num hpiece
      rw [vsnprintf, buffer, List.nil_append, printed]
      exact exact_iff

/-- A `%p` for the address 255, in a buffer of 64 bytes. -/
theorem unsigned_canonical_iff_pointer :
    (vsnprintf 64 (formatOf [.conv .none (.ptr 255)])
        (argsOf [.conv .none (.ptr 255)] ++ [])).map Printed.bytes =
      some (UnsignedLetter.p.canonical 255) ↔ (255 : BitVec 32).toNat < 2 ^ 31 := by
  have short : (numText 255 16).length ≤ 33 := length_numText_le (by decide) (by decide) 255
  have fits : (Piece.conv .none (.ptr 255)).text.length < 64 := by
    rw [Piece.text, Conversion.text, List.length_append]
    exact Nat.lt_of_le_of_lt (Nat.add_le_add_left short 2) (by decide)
  exact ((unsigned_canonical_iff .p 255).2 _ rfl []).2 64 fits

/-- The text of 4294967295 in base 10 is "-1". -/
theorem vsprintf_allOnes :
    (vsprintf (formatOf [.conv .none (.number .u 4294967295)]) [.int 4294967295]).map
        Printed.bytes = some [45, 49] ∧
      UnsignedLetter.u.canonical 4294967295 ≠ [45, 49] := by
  have digits : itoaDigits 1 10 = [49] := by
    rw [itoaDigits, itoaDigits]
    rfl
  have text : numText 4294967295 10 = [45, 49] :=
    congrArg (fun str : List UInt8 => (str ++ [45]).reverse.takeWhile fun c : UInt8 => c ≠ 0) digits
  refine ⟨congrArg some text, fun h => ?_⟩
  have small := (UnsignedLetter.u.printed_eq_canonical_iff 4294967295).mp (text.trans h.symm)
  exact absurd small (by decide)

end Unics
