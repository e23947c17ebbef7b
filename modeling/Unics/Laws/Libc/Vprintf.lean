import Unics.Laws.Libc.Fields
import Unics.Laws.Libc.Printf

/-!
# The directives of `vprintf`

A format for `vprintf` is made of literal characters and directives, and a directive of flags, a
width, a precision, a length and a conversion, each with the words of the stack that it takes.
`vprintf` prints directive after directive, and the value it returns is the number of characters
printed exactly where the surpluses of the directives make up for each other.
-/

namespace Unics

open Unics.Lib

namespace Vprintf

/-! ## The parts of a directive -/

/-- A width, in the format or as an argument. A zero in front would be a flag. -/
inductive WidthPart where
  | digits (width : Width) (noFlag : width.digits.head? ≠ some 48)
  | star (word : BitVec 32)
  deriving DecidableEq

inductive PrecisionPart where
  | none
  | digits (precision : Width)
  | star (word : BitVec 32)
  deriving DecidableEq

inductive LengthPart where
  | none
  | l
  | h
  deriving DecidableEq

/-- The number that digits stand for. -/
def digitsValue (digits : List UInt8) : ℕ := digits.foldl (fun n c => n * 10 + (c.toNat - 48)) 0

namespace WidthPart

def format : WidthPart → List UInt8
  | .digits width _ => width.digits
  | .star _ => [42]

def words : WidthPart → List (BitVec 32)
  | .digits _ _ => []
  | .star word => [word]

/-- The width as it is written. A negative one asks for the alignment too. -/
def written : WidthPart → ℕ
  | .digits width _ => digitsValue width.digits
  | .star word => word.toInt.natAbs

/-- What `vprintf` makes of it. -/
def value (flags : Flags) : WidthPart → Flags × BitVec 32
  | .digits width _ => (flags, BitVec.ofNat 32 (digitsValue width.digits))
  | .star word =>
    if word.toInt < 0 then ({ flags with leftAlign := true }, -word) else (flags, word)

end WidthPart

namespace PrecisionPart

def format : PrecisionPart → List UInt8
  | .none => []
  | .digits precision => 46 :: precision.digits
  | .star _ => [46, 42]

def words : PrecisionPart → List (BitVec 32)
  | .star word => [word]
  | _ => []

def value : PrecisionPart → BitVec 32
  | .none => -1
  | .digits precision => BitVec.ofNat 32 (digitsValue precision.digits)
  | .star word => if word.toInt < 0 then -1 else word

end PrecisionPart

def LengthPart.format : LengthPart → List UInt8
  | .none => []
  | .l => [108]
  | .h => [104]

/-- What stands between a `%` and the conversion. -/
structure Spec where
  flags : List UInt8
  areFlags : ∀ c ∈ flags, isFlag c = true
  width : WidthPart
  precision : PrecisionPart
  length : LengthPart
  deriving DecidableEq

namespace Spec

/-- Nothing. -/
def plain : Spec where
  flags := []
  areFlags _ h := absurd h List.not_mem_nil
  width := .digits .none (Option.some_ne_none 48).symm
  precision := .none
  length := .none

def format (spec : Spec) : List UInt8 :=
  spec.flags ++ (spec.width.format ++ (spec.precision.format ++ spec.length.format))

def words (spec : Spec) : List (BitVec 32) := spec.width.words ++ spec.precision.words

def directive (spec : Spec) : Directive :=
  let (flags, width) := spec.width.value (spec.flags.foldl Flags.set Flags.none)
  { flags, width, precision := spec.precision.value }

end Spec

/-! ## Parsing -/

/-- A text that does not begin with a character of a kind. -/
def Avoids (p : UInt8 → Bool) (ptr : List UInt8) : Prop := ∀ c ∈ ptr.head?, p c = false

theorem avoids_cons {p : UInt8 → Bool} {c : UInt8} (h : p c = false) (ptr : List UInt8) :
    Avoids p (c :: ptr) := by
  rintro d hd
  rw [← Option.some.inj hd]
  exact h

theorem head?_ne {p : UInt8 → Bool} {c : UInt8} (hc : p c = true) {ptr : List UInt8}
    (h : Avoids p ptr) : ptr.head? ≠ some c := by
  intro hhead
  exact Bool.false_ne_true ((h c hhead).symm.trans hc)

theorem Avoids.mono {p q : UInt8 → Bool} {ptr : List UInt8} (h : Avoids p ptr)
    (hpq : ∀ c, p c = false → q c = false) : Avoids q ptr :=
  fun c hc => hpq c (h c hc)

theorem Avoids.length {p : UInt8 → Bool} {ptr : List UInt8} (h : Avoids p ptr)
    (hl : p 108 = false) (hh : p 104 = false) (part : LengthPart) :
    Avoids p (part.format ++ ptr) := by
  cases part with
  | none => exact h
  | l => exact avoids_cons hl ptr
  | h => exact avoids_cons hh ptr

theorem Avoids.precision {p : UInt8 → Bool} {ptr : List UInt8} (h : Avoids p ptr)
    (hpoint : p 46 = false) (part : PrecisionPart) : Avoids p (part.format ++ ptr) := by
  cases part with
  | none => exact h
  | digits precision => exact avoids_cons hpoint _
  | star word => exact avoids_cons hpoint _

/-- A width does not go on with the flags. -/
theorem Avoids.width {ptr : List UInt8} (h : Avoids isFlag ptr) (part : WidthPart) :
    Avoids isFlag (part.format ++ ptr) := by
  cases part with
  | star word => exact avoids_cons rfl ptr
  | digits width noFlag =>
    cases hdigits : width.digits with
    | nil =>
      rw [WidthPart.format, hdigits]
      exact h
    | cons c digits =>
      have digit := width.isDigit c (hdigits ▸ List.mem_cons_self)
      have nonzero : c ≠ 48 := fun hc => noFlag (by rw [hdigits, hc]; rfl)
      have other : ∀ k : UInt8, isFormatDigit k = false → decide (c = k) = false := by
        rintro k hk
        refine decide_eq_false ?_
        rintro rfl
        exact Bool.false_ne_true (hk.symm.trans digit)
      have no_flag : isFlag c = false := by
        rw [isFlag, other 45 rfl, decide_eq_false nonzero, other 43 rfl, other 32 rfl, other 35 rfl]
        rfl
      rw [WidthPart.format, hdigits]
      exact avoids_cons no_flag _

theorem parseFlags_append {text ptr : List UInt8} (htext : ∀ c ∈ text, isFlag c = true)
    (hptr : Avoids isFlag ptr) (flags : Flags) :
    parseFlags flags (text ++ ptr) = (text.foldl Flags.set flags, ptr) := by
  induction text generalizing flags with
  | nil =>
    cases ptr with
    | nil => rfl
    | cons c ptr => exact if_neg (Bool.not_eq_true _ ▸ hptr c rfl)
  | cons c text ih =>
    rw [List.cons_append, parseFlags, if_pos (htext c List.mem_cons_self)]
    exact ih (fun d hd => htext d (List.mem_cons_of_mem c hd)) (flags.set c)

theorem parseDigits_append {digits ptr : List UInt8}
    (hdigits : ∀ c ∈ digits, isFormatDigit c = true) (hptr : Avoids isFormatDigit ptr) (n : ℕ) :
    parseDigits (BitVec.ofNat 32 n) (digits ++ ptr) =
      (BitVec.ofNat 32 (digits.foldl (fun n c => n * 10 + (c.toNat - 48)) n), ptr) := by
  induction digits generalizing n with
  | nil =>
    cases ptr with
    | nil => rfl
    | cons c ptr => exact if_neg (Bool.not_eq_true _ ▸ hptr c rfl)
  | cons c digits ih =>
    have step : BitVec.ofNat 32 n * 10 + BitVec.ofNat 32 (c.toNat - 48) =
        BitVec.ofNat 32 (n * 10 + (c.toNat - 48)) := by
      rw [BitVec.ofNat_add, BitVec.ofNat_mul]
      rfl
    rw [List.cons_append, parseDigits, if_pos (hdigits c List.mem_cons_self), step]
    exact ih (fun d hd => hdigits d (List.mem_cons_of_mem c hd)) _

theorem parseDigits_zero (width : Width) {ptr : List UInt8} (hptr : Avoids isFormatDigit ptr) :
    parseDigits 0 (width.digits ++ ptr) = (BitVec.ofNat 32 (digitsValue width.digits), ptr) :=
  parseDigits_append width.isDigit hptr 0

/-- A digit or a `*`. -/
def startsNumber (c : UInt8) : Bool := isFormatDigit c || c = 42

theorem Avoids.digit {ptr : List UInt8} (h : Avoids startsNumber ptr) :
    Avoids isFormatDigit ptr :=
  fun c hc => (Bool.or_eq_false_iff.mp (h c hc)).1

theorem head?_digits (width : Width) {ptr : List UInt8} (hptr : Avoids startsNumber ptr) :
    (width.digits ++ ptr).head? ≠ some 42 := by
  cases hdigits : width.digits with
  | nil => exact head?_ne (p := startsNumber) rfl hptr
  | cons c digits =>
    intro h
    have digit := width.isDigit c (hdigits ▸ List.mem_cons_self)
    rw [Option.some.inj h] at digit
    exact absurd digit (by decide)

theorem parseWidth_append (part : WidthPart) (flags : Flags) {ptr : List UInt8}
    (hptr : Avoids startsNumber ptr) (args : VaList) :
    parseWidth flags (part.format ++ ptr) (part.words ++ₛ args) =
      ((part.value flags).1, (part.value flags).2, ptr, args) := by
  cases part with
  | digits width noFlag =>
    rw [WidthPart.format, parseWidth, if_neg (head?_digits width hptr),
      parseDigits_zero width hptr.digit]
    rfl
  | star word =>
    have next : parseWidth flags (42 :: ptr) (Stream'.cons word args) =
        if word.toInt < 0 then ({ flags with leftAlign := true }, -word, ptr, args)
        else (flags, word, ptr, args) := rfl
    unfold WidthPart.value
    refine next.trans ?_
    dsimp only
    split
    · rfl
    · rfl

theorem parsePrecision_append (part : PrecisionPart) {ptr : List UInt8}
    (hpoint : ptr.head? ≠ some 46) (hptr : Avoids startsNumber ptr) (args : VaList) :
    parsePrecision (part.format ++ ptr) (part.words ++ₛ args) = (part.value, ptr, args) := by
  cases part with
  | none => exact if_neg hpoint
  | digits precision =>
    have next : parsePrecision (46 :: (precision.digits ++ ptr)) args =
        if (precision.digits ++ ptr).head? = some 42 then
          (if args.head.toInt < 0 then -1 else args.head, (precision.digits ++ ptr).tail, args.tail)
        else ((parseDigits 0 (precision.digits ++ ptr)).1,
          (parseDigits 0 (precision.digits ++ ptr)).2, args) := rfl
    refine next.trans ?_
    rw [if_neg (head?_digits precision hptr), parseDigits_zero precision hptr.digit]
    rfl
  | star word => rfl

theorem parseLength_append (part : LengthPart) {ptr : List UInt8} (hl : ptr.head? ≠ some 108)
    (hh : ptr.head? ≠ some 104) : parseLength (part.format ++ ptr) = ptr := by
  cases part with
  | none =>
    have plain : parseLength ptr = ptr := by rw [parseLength, if_neg hl, if_neg hh]
    exact plain
  | l => rfl
  | h => rfl

/-- A character that can stand in front of a conversion. -/
def inSpec (c : UInt8) : Bool :=
  isFlag c || startsNumber c || c = 46 || c = 108 || c = 104

theorem Spec.mem_format (spec : Spec) : ∀ c ∈ spec.format, inSpec c = true := by
  have digit : ∀ width : Width, ∀ c ∈ width.digits, inSpec c = true := by
    intro width c hc
    simp only [inSpec, startsNumber, width.isDigit c hc, Bool.true_or, Bool.or_true]
  intro c hc
  rw [Spec.format, List.mem_append, List.mem_append, List.mem_append] at hc
  rcases hc with hflag | hwidth | hprecision | hlength
  · simp only [inSpec, spec.areFlags c hflag, Bool.true_or]
  · cases hpart : spec.width with
    | digits width noFlag => exact digit width c (by rwa [hpart] at hwidth)
    | star word =>
      rw [hpart] at hwidth
      rw [List.mem_singleton.mp hwidth]
      rfl
  · cases hpart : spec.precision with
    | none =>
      rw [hpart] at hprecision
      exact absurd hprecision List.not_mem_nil
    | digits precision =>
      rw [hpart] at hprecision
      rcases List.mem_cons.mp hprecision with rfl | hprecision
      · rfl
      · exact digit precision c hprecision
    | star word =>
      rw [hpart] at hprecision
      rcases List.mem_cons.mp hprecision with rfl | hprecision
      · rfl
      · rw [List.mem_singleton.mp hprecision]
        rfl
  · cases hpart : spec.length with
    | none =>
      rw [hpart] at hlength
      exact absurd hlength List.not_mem_nil
    | l =>
      rw [hpart] at hlength
      rw [List.mem_singleton.mp hlength]
      rfl
    | h =>
      rw [hpart] at hlength
      rw [List.mem_singleton.mp hlength]
      rfl

theorem parseDirective_append (spec : Spec) {ptr : List UInt8} (hptr : Avoids inSpec ptr)
    (args : VaList) :
    parseDirective (spec.format ++ ptr) (spec.words ++ₛ args) = (spec.directive, ptr, args) := by
  have flag : Avoids isFlag ptr := hptr.mono fun c hc => by
    simp only [inSpec, Bool.or_eq_false_iff] at hc
    exact hc.1.1.1.1
  have number : Avoids startsNumber ptr := hptr.mono fun c hc => by
    simp only [inSpec, Bool.or_eq_false_iff] at hc
    exact hc.1.1.1.2
  have hlength : parseLength (spec.length.format ++ ptr) = ptr :=
    parseLength_append spec.length (head?_ne (p := inSpec) rfl hptr)
      (head?_ne (p := inSpec) rfl hptr)
  have hpoint : (spec.length.format ++ ptr).head? ≠ some 46 := by
    have point : Avoids (fun c => c = 46) ptr := hptr.mono fun c hc => by
      simp only [inSpec, Bool.or_eq_false_iff] at hc
      exact hc.1.1.2
    exact head?_ne rfl (point.length rfl rfl spec.length)
  have hnumber := number.length rfl rfl spec.length
  have hflags := parseFlags_append spec.areFlags
    (((flag.length rfl rfl spec.length).precision rfl spec.precision).width spec.width) Flags.none
  rw [Spec.format, Spec.words, List.append_assoc, List.append_assoc, List.append_assoc,
    Stream'.append_append_stream, parseDirective, hflags]
  dsimp only
  rw [parseWidth_append spec.width _ (hnumber.precision rfl spec.precision)]
  dsimp only
  rw [parsePrecision_append spec.precision hpoint hnumber]
  dsimp only
  rw [hlength]
  rfl

/-! ## Conversions and pieces -/

/-- A conversion with the word it takes. -/
inductive Conversion where
  | size (num : BitVec 32)
  | string (s : BitVec 32)
  | signed (i : Bool) (num : BitVec 32)
  | hex (upper : Bool) (num : BitVec 32)
  | octal (num : BitVec 32)
  | character (num : BitVec 32)
  | unsigned (num : BitVec 32)
  | pointer (num : BitVec 32)
  | percent
  deriving DecidableEq

namespace Conversion

def letter : Conversion → UInt8
  | .size _ => 122
  | .string _ => 115
  | .signed i _ => if i then 105 else 100
  | .hex upper _ => if upper then 88 else 120
  | .octal _ => 111
  | .character _ => 99
  | .unsigned _ => 117
  | .pointer _ => 112
  | .percent => 37

/-- The `u` of a `%zu`. -/
def behind : Conversion → List UInt8
  | .size _ => [117]
  | _ => []

def words : Conversion → List (BitVec 32)
  | .size num => [num]
  | .string s => [s]
  | .signed _ num => [num]
  | .hex _ num => [num]
  | .octal num => [num]
  | .character num => [num]
  | .unsigned num => [num]
  | .pointer num => [num]
  | .percent => []

section Memory

variable (text : BitVec 32 → CString) (d : Directive)

/-- What is printed and what is counted. -/
def field : Conversion → Field
  | .size num => d.putSize num
  | .string s => d.putString (stringAt text s)
  | .signed _ num => d.putSigned num
  | .hex _ num => d.putHex num
  | .octal num => d.putOctal num
  | .character num => d.putCharacter num
  | .unsigned num => d.putText (numText num 10)
  | .pointer num => putPointer num
  | .percent => { out := [37], counted := 1 }

/-- The length of the field. -/
def length : Conversion → Int
  | .size num => max d.width.toInt (cutTo d.precision.toInt (numText num 10).length)
  | .string s => paddedLength d.width (cutLen (strlenInt (stringAt text s)) d.precision)
  | .signed _ num => signedLength d num
  | .hex _ num => hexLength d num
  | .octal num => max d.width.toInt (cutTo d.precision.toInt (octalText d num).length)
  | .character _ => max d.width.toInt 1
  | .unsigned num => max d.width.toInt (cutTo d.precision.toInt (numText num 10).length)
  | .pointer num => 2 + (numText num 16).length
  | .percent => 1

/-- What is counted over the length. -/
def surplus : Conversion → Int
  | .size num => sizeSurplus d.width.toInt d.precision.toInt (numText num 10).length
  | .string s => stringSurplus d.width (cutLen (strlenInt (stringAt text s)) d.precision)
  | .signed _ num => signedSurplus d num
  | .octal num => cutSurplus d.width.toInt d.precision.toInt (octalText d num).length
  | .unsigned num => cutSurplus d.width.toInt d.precision.toInt (numText num 10).length
  | _ => 0

theorem field_counts (conversion : Conversion) :
    (conversion.field text d).Counts (conversion.length text d) (conversion.surplus text d) := by
  cases conversion with
  | size num => exact putSize_counts d num
  | string s => exact putString_counts d _
  | signed i num => exact putSigned_counts d num
  | hex upper num => exact putHex_counts d num
  | octal num => exact putOctal_counts d num
  | character num => exact putCharacter_counts d num
  | unsigned num => exact putText_counts d (numText_short num (by decide) (by decide))
  | pointer num => exact putPointer_counts num
  | percent => exact ⟨rfl, rfl⟩

theorem vprintfConv_eq (fixed : BitVec 64 → CString) (conversion : Conversion) (ptr : List UInt8)
    (args : VaList) :
    vprintfConv text fixed d conversion.letter (conversion.behind ++ ptr)
        (conversion.words ++ₛ args) = (conversion.field text d, ptr, args) := by
  cases conversion with
  | signed i num =>
    cases i
    all_goals rfl
  | hex upper num =>
    cases upper
    all_goals rfl
  | _ => rfl

end Memory

theorem letter_facts (conversion : Conversion) :
    conversion.letter ≠ 0 ∧ inSpec conversion.letter = false := by
  cases conversion with
  | signed i num =>
    cases i
    all_goals exact ⟨ne_of_beq_false rfl, rfl⟩
  | hex upper num =>
    cases upper
    all_goals exact ⟨ne_of_beq_false rfl, rfl⟩
  | _ => exact ⟨ne_of_beq_false rfl, rfl⟩

end Conversion

/-- A character of the literal text or a directive. -/
inductive Piece where
  | literal (c : UInt8) (plain : c ≠ 0 ∧ c ≠ 37)
  | directive (spec : Spec) (conversion : Conversion)

namespace Piece

def format : Piece → List UInt8
  | .literal c _ => [c]
  | .directive spec conversion => 37 :: (spec.format ++ conversion.letter :: conversion.behind)

def words : Piece → List (BitVec 32)
  | .literal _ _ => []
  | .directive spec conversion => spec.words ++ conversion.words

section Memory

variable (text : BitVec 32 → CString)

def field : Piece → Field
  | .literal c _ => { out := [c], counted := 1 }
  | .directive spec conversion => conversion.field text spec.directive

def length : Piece → Int
  | .literal _ _ => 1
  | .directive spec conversion => conversion.length text spec.directive

def surplus : Piece → Int
  | .literal _ _ => 0
  | .directive spec conversion => conversion.surplus text spec.directive

theorem field_counts (p : Piece) : (p.field text).Counts (p.length text) (p.surplus text) := by
  cases p with
  | literal c plain => exact ⟨rfl, rfl⟩
  | directive spec conversion => exact conversion.field_counts text spec.directive

end Memory

theorem noNul (p : Piece) : (0 : UInt8) ∉ p.format := by
  intro h
  cases p with
  | literal c plain => exact plain.1 (List.mem_singleton.mp h).symm
  | directive spec conversion =>
    rcases List.mem_cons.mp h with hpercent | h
    · exact absurd hpercent (by decide)
    · rcases List.mem_append.mp h with hspec | h
      · exact absurd (spec.mem_format 0 hspec) (by decide)
      · rcases List.mem_cons.mp h with hletter | hbehind
        · exact conversion.letter_facts.1 hletter.symm
        · cases conversion with
          | size num =>
            exact absurd (List.mem_singleton.mp hbehind) (by decide : (0 : UInt8) ≠ 117)
          | _ => exact List.not_mem_nil hbehind

end Piece

/-- The format that pieces make up. -/
def formatOf (pieces : List Piece) : CString where
  bytes := pieces.flatMap Piece.format
  noNul h := by
    obtain ⟨p, -, hp⟩ := List.mem_flatMap.mp h
    exact p.noNul hp

/-- The words that match it. -/
def wordsOf (pieces : List Piece) : List (BitVec 32) := pieces.flatMap Piece.words

/-! ## The run -/

section Run

variable (text : BitVec 32 → CString) (fixed : BitVec 64 → CString)

theorem vprintfTurn_piece (p : Piece) (ptr : List UInt8) (args : VaList) (out : List UInt8)
    (charsWritten : BitVec 32) :
    vprintfTurn text fixed { ptr := p.format ++ ptr, args := p.words ++ₛ args, out, charsWritten } =
      some { ptr, args, out := out ++ (p.field text).out,
             charsWritten := charsWritten + (p.field text).counted } := by
  cases p with
  | literal c plain => exact if_neg fun h => plain.2 h.1
  | directive spec conversion =>
    have avoids := avoids_cons conversion.letter_facts.2 (conversion.behind ++ ptr)
    have parsed := parseDirective_append spec avoids (conversion.words ++ₛ args)
    have text_ptr : (Piece.directive spec conversion).format ++ ptr =
        37 :: (spec.format ++ (conversion.letter :: (conversion.behind ++ ptr))) := by
      rw [Piece.format, List.cons_append, List.append_assoc, List.cons_append]
    have some_ptr : spec.format ++ (conversion.letter :: (conversion.behind ++ ptr)) ≠ [] :=
      List.append_ne_nil_of_right_ne_nil _ (List.cons_ne_nil _ _)
    rw [text_ptr, Piece.words, Stream'.append_append_stream, vprintfTurn]
    dsimp only
    rw [if_pos ⟨rfl, some_ptr⟩, parsed]
    dsimp only
    rw [conversion.vprintfConv_eq text spec.directive fixed ptr args]
    rfl

/-- A run over pieces, with enough turns. -/
theorem turns_pieces (pieces : List Piece) (args : VaList) (out : List UInt8)
    (charsWritten : BitVec 32) {n : ℕ} (hn : (formatOf pieces).bytes.length ≤ n) :
    turns Vprintf.done (vprintfTurn text fixed) n
        { ptr := (formatOf pieces).bytes, args := wordsOf pieces ++ₛ args, out, charsWritten } =
      some { ptr := [], args, out := out ++ pieces.flatMap fun p => (p.field text).out,
             charsWritten := charsWritten + BitVec.ofInt 32
               ((pieces.map fun p => p.length text + p.surplus text).sum) } := by
  induction pieces generalizing out charsWritten n with
  | nil =>
    have empty : Vprintf.done { ptr := [], args, out, charsWritten } = true := rfl
    refine (turns_of_done empty n).trans ?_
    have zero : charsWritten + BitVec.ofInt 32 0 = charsWritten := BitVec.add_zero charsWritten
    rw [List.flatMap_nil, List.append_nil, List.map_nil, List.sum_nil, zero]
  | cons p pieces ih =>
    obtain ⟨c, format, hformat⟩ : ∃ c format, p.format = c :: format := by
      cases p with
      | literal c plain => exact ⟨c, [], rfl⟩
      | directive spec conversion => exact ⟨37, _, rfl⟩
    have whole : (formatOf (p :: pieces)).bytes = p.format ++ (formatOf pieces).bytes := rfl
    have words : wordsOf (p :: pieces) ++ₛ args = p.words ++ₛ (wordsOf pieces ++ₛ args) :=
      Stream'.append_append_stream _ _ _
    have counts := p.field_counts text
    rw [whole, hformat, List.cons_append, List.length_cons, List.length_append] at hn
    obtain ⟨n, rfl⟩ : ∃ m, n = m + 1 := ⟨n - 1, by omega⟩
    have more : Vprintf.done
        { ptr := p.format ++ (formatOf pieces).bytes
          args := p.words ++ₛ (wordsOf pieces ++ₛ args)
          out, charsWritten } = false := by
      rw [hformat]
      rfl
    rw [whole, words, turns_succ more, vprintfTurn_piece]
    refine (ih _ _ (by omega)).trans ?_
    rw [List.flatMap_cons, List.append_assoc, List.map_cons, List.sum_cons, BitVec.ofInt_add,
      BitVec.add_assoc, counts.counted]

/-- What `vprintf` leaves of a format and its matching words. -/
theorem vprintf_pieces (pieces : List Piece) (args : VaList) :
    vprintf text fixed (formatOf pieces) (wordsOf pieces ++ₛ args) =
      some { ptr := [], args, out := pieces.flatMap fun p => (p.field text).out,
             charsWritten := BitVec.ofInt 32
               ((pieces.map fun p => p.length text + p.surplus text).sum) } := by
  refine (turns_pieces text fixed pieces args [] 0 (le_refl _)).trans ?_
  have zero : ∀ count : BitVec 32, 0 + count = count := BitVec.zero_add
  rw [List.nil_append, zero]

end Run

/-! ## The value returned -/

section Counted

variable (text : BitVec 32 → CString)

theorem length_out (pieces : List Piece) :
    ((pieces.flatMap fun p => (p.field text).out).length : Int) =
      (pieces.map fun p => p.length text).sum := by
  induction pieces with
  | nil => rfl
  | cons p pieces ih =>
    rw [List.flatMap_cons, List.length_append, List.map_cons, List.sum_cons, ← ih,
      ← (p.field_counts text).printed]
    exact Int.natCast_add _ _

/-- The surpluses make up for each other, and the characters can be counted. -/
def CountsAll (pieces : List Piece) : Prop :=
  (2 ^ 32 : Int) ∣ (pieces.map fun p => p.surplus text).sum ∧
    (pieces.map fun p => p.length text).sum < 2 ^ 31

theorem sum_counted (pieces : List Piece) :
    (pieces.map fun p => p.length text + p.surplus text).sum =
      (pieces.map fun p => p.length text).sum + (pieces.map fun p => p.surplus text).sum :=
  List.sum_map_add

/-- A number comes back from an `int` with a surplus where the surplus wraps away. -/
theorem bmod_add_eq_iff {length surplus : Int} (h : 0 ≤ length) :
    (length + surplus).bmod (2 ^ 32) = length ↔ (2 ^ 32 : Int) ∣ surplus ∧ length < 2 ^ 31 := by
  constructor
  · intro heq
    have wraps := Int.dvd_self_sub_of_bmod_eq heq
    have below := Int.bmod_lt (x := length + surplus) (m := 2 ^ 32) (by decide)
    rw [add_sub_cancel_left] at wraps
    exact ⟨wraps, by omega⟩
  · rintro ⟨⟨k, rfl⟩, hsmall⟩
    have wraps := Int.add_mul_bmod_self_left length (2 ^ 32) k
    exact wraps.trans (Int.bmod_eq_of_le (by omega) (by omega))

end Counted

/-! ## The width of a field -/

/-- The least length of a field that has one: that of a `%s`, a `%d`, a `%u` or a `%c`. -/
def Piece.minLength : Piece → Option ℕ
  | .directive spec (.string _) => some spec.width.written
  | .directive spec (.signed _ _) => some spec.width.written
  | .directive spec (.unsigned _) => some spec.width.written
  | .directive spec (.character _) => some spec.width.written
  | _ => none

/-- The width is an `int`. Behind a string that is too long for one, the padding is too. -/
def Piece.KeepsWidth (text : BitVec 32 → CString) : Piece → Prop
  | .directive spec (.string s) =>
    let len := cutLen (strlenInt (stringAt text s)) spec.directive.precision
    spec.width.written = 0 ∨
      spec.width.written < 2 ^ 31 ∧ spec.width.written - len.toInt < 2 ^ 31
  | .directive spec (.signed _ _) => spec.width.written < 2 ^ 31
  | .directive spec (.unsigned _) => spec.width.written < 2 ^ 31
  | .directive spec (.character _) => spec.width.written < 2 ^ 31
  | _ => True

theorem WidthPart.value_toInt {part : WidthPart} (h : part.written < 2 ^ 31) (flags : Flags) :
    (part.value flags).2.toInt = part.written := by
  cases part with
  | digits width noFlag =>
    have small : digitsValue width.digits < 2 ^ 31 := h
    rw [WidthPart.value, BitVec.toInt_ofNat']
    exact Int.bmod_eq_of_le (by omega) (by omega)
  | star word =>
    have small : word.toInt.natAbs < 2 ^ 31 := h
    unfold WidthPart.value WidthPart.written
    dsimp only
    split
    · next hneg =>
      have notMin : word ≠ BitVec.intMin 32 := by
        rintro rfl
        exact absurd small (by decide)
      exact toInt_neg_eq_natAbs hneg notMin
    · next hpos =>
      dsimp only
      omega

/-- A field at least as long as the width that the code computes, and of a length that is an
`int`. -/
theorem written_le_iff {spec : Spec} {length : Int} (hwidth : spec.directive.width.toInt ≤ length)
    (hlength : length < 2 ^ 31) :
    (spec.width.written : Int) ≤ length ↔ spec.width.written < 2 ^ 31 := by
  constructor
  · intro h
    omega
  · intro h
    have value := WidthPart.value_toInt h (spec.flags.foldl Flags.set Flags.none)
    have same : spec.directive.width.toInt = spec.width.written := value
    omega

theorem signedLength_bounds (d : Directive) (num : BitVec 32) :
    d.width.toInt ≤ signedLength d num ∧ signedLength d num < 2 ^ 31 := by
  have high := BitVec.toInt_lt (x := d.width)
  have short := signedText_short d num
  have cut := cutTo_le d.precision.toInt (signedText d num).length
  unfold signedLength
  split
  all_goals omega

/-- A padded string, whatever its length. -/
theorem written_le_padded_iff (spec : Spec) (len : BitVec 32) :
    (spec.width.written : Int) ≤ paddedLength spec.directive.width len ↔
      spec.width.written = 0 ∨
        spec.width.written < 2 ^ 31 ∧ spec.width.written - len.toInt < 2 ^ 31 := by
  have high := BitVec.toInt_lt (x := len)
  have wide := BitVec.toInt_lt (x := spec.directive.width)
  by_cases hlen : 0 ≤ len.toInt
  · have padded := paddedLength_eq spec.directive.width hlen
    rw [padded, written_le_iff (le_max_left _ _) (by omega)]
    omega
  · -- the length is below 0, and every width is above it
    have negative : len.toInt.toNat = 0 := by omega
    have low := BitVec.le_toInt len
    by_cases hwritten : spec.width.written < 2 ^ 31
    · have value := WidthPart.value_toInt hwritten (spec.flags.foldl Flags.set Flags.none)
      have same : spec.directive.width.toInt = spec.width.written := value
      have difference : (spec.directive.width - len).toInt =
          (spec.directive.width.toInt - len.toInt).bmod (2 ^ 32) := BitVec.toInt_sub
      have above : spec.directive.width.toInt > len.toInt := by omega
      rw [paddedLength, negative, if_pos above, difference, same]
      have wraps := Int.bmod_def (spec.width.written - len.toInt) (2 ^ 32)
      omega
    · have padded := BitVec.toInt_lt
        (x := if spec.directive.width.toInt > len.toInt then spec.directive.width - len else 0)
      rw [paddedLength, negative]
      omega

theorem forall_mem_some (width : ℕ) (P : ℕ → Prop) : (∀ w ∈ some width, P w) ↔ P width :=
  ⟨fun h => h width rfl, fun h _ hw => Option.some.inj hw ▸ h⟩

theorem Piece.minLength_le_iff (text : BitVec 32 → CString) (p : Piece) :
    (∀ width ∈ p.minLength, (width : Int) ≤ p.length text) ↔ p.KeepsWidth text := by
  have plain : ∀ {spec : Spec} {length : Int}, spec.directive.width.toInt ≤ length →
      length < 2 ^ 31 → ((∀ width ∈ some spec.width.written, (width : Int) ≤ length) ↔
        spec.width.written < 2 ^ 31) := by
    intro spec length hwidth hlength
    exact (forall_mem_some _ _).trans (written_le_iff hwidth hlength)
  cases p with
  | literal c plain =>
    exact iff_of_true (fun width h => absurd h.symm (Option.some_ne_none _)) trivial
  | directive spec conversion =>
    have wide := BitVec.toInt_lt (x := spec.directive.width)
    cases conversion with
    | string s => exact (forall_mem_some _ _).trans (written_le_padded_iff spec _)
    | signed i num =>
      obtain ⟨hwidth, hlength⟩ := signedLength_bounds spec.directive num
      exact plain hwidth hlength
    | unsigned num =>
      have short : (numText num 10).length ≤ 33 := length_numText_le (by decide) (by decide) num
      have cut := cutTo_le spec.directive.precision.toInt (numText num 10).length
      exact plain (le_max_left _ _) (max_lt wide (by omega))
    | character num => exact plain (le_max_left _ _) (max_lt wide (by decide))
    | _ => exact iff_of_true (fun width h => absurd h.symm (Option.some_ne_none _)) trivial

/-- `vprintf` returns the number of characters it has printed, with every field as long as its
width, exactly where the surpluses make up for each other, fewer than 2^31 characters are printed
and the widths are kept. -/
theorem vprintf_counts_iff (text : BitVec 32 → CString) (fixed : BitVec 64 → CString)
    (pieces : List Piece) (args : VaList) :
    ∃ s, vprintf text fixed (formatOf pieces) (wordsOf pieces ++ₛ args) = some s ∧
      s.out = (pieces.flatMap fun p => (p.field text).out) ∧
      ((s.ret = s.out.length ∧
          ∀ p ∈ pieces, ∀ width ∈ p.minLength, width ≤ (p.field text).out.length) ↔
        CountsAll text pieces ∧ ∀ p ∈ pieces, p.KeepsWidth text) := by
  refine ⟨_, vprintf_pieces text fixed pieces args, rfl, and_congr ?_ ?_⟩
  · have length := length_out text pieces
    have nonneg : 0 ≤ (pieces.map fun p => p.length text).sum := length ▸ Int.natCast_nonneg _
    rw [Vprintf.ret, BitVec.toInt_ofInt, sum_counted, length]
    exact bmod_add_eq_iff nonneg
  · refine forall₂_congr fun p _ => ?_
    rw [← p.minLength_le_iff text, ← (p.field_counts text).printed]
    simp only [Nat.cast_le]

/-- A `%.0d`. -/
def cutNumber : Piece :=
  .directive { Spec.plain with precision := .digits ⟨[48], List.forall_mem_singleton.mpr rfl⟩ }
    (.signed false 0)

/-- With 0 it prints nothing and counts one character. -/
theorem vprintf_cutNumber :
    ∃ s, vprintf (fun _ => .empty) (fun _ => .empty) (formatOf [cutNumber])
        (wordsOf [cutNumber] ++ₛ Stream'.const 0) = some s ∧ s.out.length = 0 ∧ s.ret = 1 :=
  ⟨_, rfl, rfl, rfl⟩

end Vprintf

end Unics
