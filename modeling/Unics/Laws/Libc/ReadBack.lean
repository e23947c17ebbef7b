import Unics.Laws.Libc.Printf
import Unics.Laws.Libc.ScanReaders

/-!
# What is printed and read again

`sscanf` with the format that `vsprintf` has printed with. A number is read back if its text is the
numeral of it, and if nothing behind the text can be taken for a part of it; a word is read up to
whitespace. A blank of the format stands for nothing in `sscanf`, which takes whitespace in front of
numbers and words only. So a format reads back what it printed if each field agrees with what is
behind it (`ReadsBack`).
-/

namespace Unics

open Unics.Lib

/-! ## Fields -/

/-- An item of a format for both functions, with what is printed for it. -/
inductive FormatField where
  | literal (c : UInt8) (plain : c ≠ 0 ∧ c ≠ 37 ∧ isspace c = false)
  | blank (c : UInt8) (space : isspace c = true)
  | percent
  | number (conv : NumberConv) (num : BitVec 32)
  | char (num : BitVec 32)
  | string (s : CString)

theorem blank_plain {c : UInt8} (space : isspace c = true) : c ≠ 0 ∧ c ≠ 37 := by
  constructor
  all_goals
    rintro rfl
    exact absurd space (by decide)

def NumberConv.printLetter : NumberConv → NumberLetter
  | .d => .d
  | .i => .i
  | .u => .u
  | .x => .x

namespace FormatField

/-- What `sscanf` makes of it. -/
def item : FormatField → ScanItem
  | .literal c plain => .literal c plain
  | .blank c space => .blank c space
  | .percent => .percent
  | .number conv _ => .number conv
  | .char _ => .char
  | .string _ => .string

/-- What `vsprintf` makes of it. -/
def piece : FormatField → Piece
  | .literal c plain => .literal c ⟨plain.1, plain.2.1⟩
  | .blank c space => .literal c (blank_plain space)
  | .percent => .percent
  | .number conv num => .conv .none (.number conv.printLetter num)
  | .char num => .conv .none (.char num)
  | .string s => .conv .none (.str (some s))

/-- What should be stored for it. -/
def values : FormatField → List ScanValue
  | .number _ num => [.int num]
  | .char num => [.char (UInt8.ofBitVec (num.setWidth 8))]
  | .string s => [.string s.bytes]
  | _ => []

theorem format_piece (f : FormatField) : f.piece.format = f.item.text := by
  cases f with
  | number conv num =>
    cases conv
    all_goals rfl
  | _ => rfl

theorem noWidth_piece (f : FormatField) : f.piece.NoWidth := by
  cases f
  all_goals trivial

end FormatField

variable {fields : List FormatField}

/-- The pieces of a format and its items are the same text. -/
theorem formatOf_pieces (fields : List FormatField) :
    formatOf (fields.map FormatField.piece) = scanFormat (fields.map FormatField.item) := by
  refine CString.ext ?_
  show (fields.map _).flatMap _ = (fields.map _).flatMap _
  rw [List.flatMap_map, List.flatMap_map]
  exact List.flatMap_congr fun f _ => f.format_piece

/-- What is printed for fields. -/
def printedFields (fields : List FormatField) : List UInt8 := fields.flatMap (·.piece.text)

/-! ## Where fields end -/

/-- The text of the number says what the number is. -/
def NumberConv.Prints (num : BitVec 32) : NumberConv → Prop
  | .d => num ≠ BitVec.intMin 32
  | .i => num ≠ BitVec.intMin 32
  | .u => num.toNat < 2 ^ 31
  | .x => num.toNat < 2 ^ 31

/-- A character that may be taken for a part of the number in front of it. -/
def NumberConv.joins : NumberConv → UInt8 → Bool
  | .x, c => isDigitOf 16 c || c = 120 || c = 88
  | _, c => isDigitOf 10 c

/-- Blanks in front of the fields are gone over. -/
def TakesBlanks : List FormatField → Prop
  | .literal _ _ :: _ => False
  | .percent :: _ => False
  | .char _ :: _ => False
  | _ => True

/-- A field is read back in front of others. -/
def FormatField.Before (fields : List FormatField) : FormatField → Prop
  | .literal _ _ => True
  | .blank _ _ => TakesBlanks fields
  | .percent => True
  | .number conv num => conv.Prints num ∧ HeadNot conv.joins (printedFields fields)
  | .char num => UInt8.ofBitVec (num.setWidth 8) ≠ 0
  | .string s =>
    s ≠ .empty ∧ (∀ c ∈ s.bytes, isspace c = false) ∧
      HeadNot (fun c => !isspace c) (printedFields fields)

/-- Every field is read back in front of the fields behind it. -/
def ReadsBack : List FormatField → Prop
  | [] => True
  | f :: fields => f.Before fields ∧ ReadsBack fields

/-! ## Numbers -/

section Numbers

variable {conv : NumberConv} {num : BitVec 32} {n : ℕ} {rest : List UInt8}

/-- The text that is printed for a number. -/
def NumberConv.printed (conv : NumberConv) (num : BitVec 32) : List UInt8 :=
  numText num conv.printLetter.base

/-- A numeral begins with a digit. -/
theorem headNot_numeral {p : UInt8 → Bool} (hp : ∀ c, p c = true → byteDigit c = none) {b : ℕ}
    (hb : 1 < b) (hmax : b ≤ 36) (n : ℕ) (rest : List UInt8) : HeadNot p (numeral b n ++ rest) := by
  obtain ⟨c, digits, hnumeral⟩ := List.exists_cons_of_ne_nil (numeral_ne_nil b n)
  obtain ⟨d, hd, rfl⟩ := mem_numeral hb (c := c) (n := n) (hnumeral ▸ List.mem_cons_self)
  rw [hnumeral, List.cons_append]
  refine headNot_of_digit hp ?_ _
  rw [byteDigit_digitByte (hd.trans_le hmax)]
  rfl

theorem byteDigit_isspace (c : UInt8) (h : isspace c = true) : byteDigit c = none :=
  forall_byte (P := fun c => isspace c = true → byteDigit c = none) (b := 256) (by decide +kernel)
    c.toNat_lt h

theorem strtolSign_of_headNot {t : List UInt8} (h : HeadNot isSign t) : strtolSign t = (1, t) := by
  cases t with
  | nil => rfl
  | cons c t =>
    have plain := h c rfl
    refine strtolSign_plain ?_ ?_ t
    all_goals
      rintro rfl
      exact absurd plain (by decide)

/-- No prefix is in front of a numeral, unless the text behind it makes one of a zero. -/
theorem strtolPrefix_numeral (hrest : HeadNot (NumberConv.joins .x) rest) :
    strtolPrefix (numeral 16 n ++ rest) = none := by
  refine Option.eq_none_iff_forall_ne_some.mpr fun t ht => ?_
  obtain ⟨x, hx, htext⟩ := strtolPrefix_eq_some.mp ht
  obtain ⟨c, digits, hnumeral⟩ := List.exists_cons_of_ne_nil (numeral_ne_nil 16 n)
  rw [hnumeral, List.cons_append] at htext
  have behind : digits ++ rest = x :: t := (List.cons.inj htext).2
  cases digits with
  | nil =>
    have joins := hrest x (congrArg List.head? behind)
    rcases hx with rfl | rfl
    all_goals exact absurd joins (by decide)
  | cons d digits =>
    obtain rfl : d = x := (List.cons.inj behind).1
    have digit : isDigitOf 16 d = true :=
      isDigitOf_numeral (n := n) (by decide) (by decide) d
        (hnumeral ▸ List.mem_cons_of_mem c List.mem_cons_self)
    rw [isDigitOf_x hx (by decide)] at digit
    exact Bool.false_ne_true digit

/-- What the text of a number is, in the base of its conversion. -/
structure NumberConv.Parts (conv : NumberConv) (num : BitVec 32) (rest : List UInt8)
    (sign : Int) (n : ℕ) : Prop where
  parts : conv.parts (conv.printed num ++ rest) = (sign, numeral conv.base n ++ rest)
  value : BitVec.ofInt 32 (sign * n) = num
  head : HeadNot isspace (conv.printed num ++ rest)

theorem ofInt_one_mul_toNat (num : BitVec 32) : BitVec.ofInt 32 (1 * num.toNat) = num := by
  rw [Int.one_mul, BitVec.ofInt_natCast, BitVec.ofNat_toNat, BitVec.setWidth_eq]

theorem numberParts_signed (hnum : num ≠ BitVec.intMin 32) (rest : List UInt8) :
    ∃ sign n, NumberConv.Parts .d num rest sign n := by
  have text : NumberConv.printed .d num = toText num (10 : ℕ) :=
    numText_eq (by decide) (by decide) num
  by_cases hsign : 0 ≤ num.toInt
  · have printed := text.trans (toText_of_nonneg (by decide) (by decide) hsign)
    refine ⟨1, num.toNat, ?_, ofInt_one_mul_toNat num, ?_⟩
    · rw [printed]
      exact strtolSign_of_headNot
        (headNot_numeral (fun c => byteDigit_sign) (by decide) (by decide) _ rest)
    · rw [printed]
      exact headNot_numeral byteDigit_isspace (by decide) (by decide) _ rest
  · have printed := text.trans (toText_of_neg (Int.not_le.mp hsign) hnum)
    refine ⟨-1, num.toInt.natAbs, ?_, ?_, ?_⟩
    · rw [printed]
      rfl
    · have value : -1 * (num.toInt.natAbs : Int) = num.toInt := by omega
      rw [value, BitVec.ofInt_toInt]
    · rw [printed]
      exact HeadNot.cons (by decide) _

theorem numberParts (h : conv.Prints num) (hrest : HeadNot conv.joins rest) :
    ∃ sign n, conv.Parts num rest sign n := by
  cases conv with
  | d => exact numberParts_signed h rest
  | i =>
    obtain ⟨sign, n, parts⟩ := numberParts_signed h rest
    exact ⟨sign, n, parts.parts, parts.value, parts.head⟩
  | u =>
    have printed : NumberConv.printed .u num = numeral 10 num.toNat :=
      (numText_eq_numeral_iff (by decide) (by decide) num).mpr h
    refine ⟨1, num.toNat, ?_, ofInt_one_mul_toNat num, ?_⟩
    · rw [printed]
      rfl
    · rw [printed]
      exact headNot_numeral byteDigit_isspace (by decide) (by decide) _ rest
  | x =>
    have printed : NumberConv.printed .x num = numeral 16 num.toNat :=
      (numText_eq_numeral_iff (by decide) (by decide) num).mpr h
    refine ⟨1, num.toNat, ?_, ofInt_one_mul_toNat num, ?_⟩
    · rw [printed, NumberConv.parts, strtolPrefix_numeral hrest]
      rfl
    · rw [printed]
      exact headNot_numeral byteDigit_isspace (by decide) (by decide) _ rest

theorem NumberConv.base_bounds (conv : NumberConv) : 1 < conv.base ∧ conv.base ≤ 36 := by
  cases conv
  all_goals decide

theorem NumberConv.headNot_digit (hrest : HeadNot conv.joins rest) :
    HeadNot (isDigitOf conv.base) rest := by
  intro c hc
  have joins := hrest c hc
  cases conv with
  | x =>
    rw [NumberConv.joins, Bool.or_eq_false_iff, Bool.or_eq_false_iff] at joins
    exact joins.1.1
  | _ => exact joins

/-- A number is read back behind whitespace, up to what is behind it. -/
theorem readText_printed (h : conv.Prints num) (hrest : HeadNot conv.joins rest)
    {front : List UInt8} (hfront : ∀ c ∈ front, isspace c = true) :
    readText (.number conv) (front ++ (conv.printed num ++ rest)) =
      some (.stores (.int num) rest) := by
  obtain ⟨sign, n, parts⟩ := numberParts h hrest
  obtain ⟨hb, hmax⟩ := conv.base_bounds
  have digits : ∀ c ∈ numeral conv.base n, isDigitOf conv.base c = true :=
    isDigitOf_numeral hb hmax
  have behind := NumberConv.headNot_digit hrest
  have skipped : skipBlanks (front ++ (conv.printed num ++ rest)) = conv.printed num ++ rest :=
    parts.head.dropWhile hfront
  have begins : conv.Begins (skipBlanks (front ++ (conv.printed num ++ rest))) := by
    obtain ⟨c, tail, hnumeral⟩ := List.exists_cons_of_ne_nil (numeral_ne_nil conv.base n)
    rw [skipped, NumberConv.Begins, parts.parts, hnumeral]
    exact digits c (hnumeral ▸ List.mem_cons_self)
  rw [readText_number begins, skipped, NumberConv.value, NumberConv.behind, parts.parts]
  dsimp only
  rw [behind.takeWhile digits, behind.dropWhile digits, digitsValue_numeral hb hmax, parts.value]

end Numbers

/-! ## Words -/

/-- A word is read back behind whitespace, up to whitespace. -/
theorem readText_word {s : CString} {front rest : List UInt8} (hne : s ≠ .empty)
    (hword : ∀ c ∈ s.bytes, isspace c = false) (hrest : HeadNot (fun c => !isspace c) rest)
    (hfront : ∀ c ∈ front, isspace c = true) :
    readText .string (front ++ (s.bytes ++ rest)) = some (.stores (.string s.bytes) rest) := by
  have inside : ∀ c ∈ s.bytes, (!isspace c) = true := fun c hc => by rw [hword c hc]; rfl
  obtain ⟨c, word, hbytes⟩ : ∃ c word, s.bytes = c :: word :=
    List.exists_cons_of_ne_nil fun h => hne (CString.ext h)
  have head : HeadNot isspace (s.bytes ++ rest) := by
    rw [hbytes]
    exact HeadNot.cons (hword c (hbytes ▸ List.mem_cons_self)) _
  have skipped : skipBlanks (front ++ (s.bytes ++ rest)) = s.bytes ++ rest :=
    head.dropWhile hfront
  have there : skipBlanks (front ++ (s.bytes ++ rest)) ≠ [] := by
    rw [skipped, hbytes]
    exact List.cons_ne_nil c _
  rw [readText_string there, skipped, wordOf, behindWord, hrest.takeWhile inside,
    hrest.dropWhile inside]

/-! ## Formats -/

/-- What is left to read for fields: what is printed for them, behind blanks that a format has
passed. -/
structure LeftFor (fields : List FormatField) (input : List UInt8) : Prop where
  back : ReadsBack fields
  text : ∃ front, (∀ c ∈ front, isspace c = true) ∧ input = front ++ printedFields fields ∧
    (front = [] ∨ TakesBlanks fields)

theorem ReadsBack.left (h : ReadsBack fields) : LeftFor fields (printedFields fields) where
  back := h
  text := ⟨[], fun _ hc => absurd hc List.not_mem_nil, rfl, .inl rfl⟩

theorem readText_literal {c : UInt8} (plain : c ≠ 0 ∧ c ≠ 37 ∧ isspace c = false)
    (rest : List UInt8) : readText (.literal c plain) (c :: rest) = some (.passes rest) :=
  congrArg some (if_pos rfl)

/-- One field. -/
theorem LeftFor.takes {f : FormatField} {input : List UInt8} (h : LeftFor (f :: fields) input) :
    Reading.Takes f.values (LeftFor fields) (readText f.item input) := by
  obtain ⟨⟨before, back⟩, front, hfront, rfl, hblanks⟩ := h
  have next : LeftFor fields (printedFields fields) := back.left
  have printed : printedFields (f :: fields) = f.piece.text ++ printedFields fields := rfl
  rw [printed]
  cases f with
  | literal c plain =>
    obtain rfl := hblanks.resolve_right id
    have read := readText_literal plain (printedFields fields)
    exact read ▸ ⟨rfl, next⟩
  | blank c space =>
    -- the reader passes the blank of the format, and the blank that is printed stays
    refine ⟨rfl, back, front ++ [c], ?_, (List.append_assoc front _ _).symm, .inr before⟩
    intro d hd
    rcases List.mem_append.mp hd with hd | hd
    · exact hfront d hd
    · exact List.mem_singleton.mp hd ▸ space
  | percent =>
    obtain rfl := hblanks.resolve_right id
    exact ⟨rfl, next⟩
  | number conv num =>
    have read := readText_printed before.1 before.2 hfront
    exact read ▸ ⟨rfl, next⟩
  | char num =>
    obtain rfl := hblanks.resolve_right id
    exact ⟨rfl, next⟩
  | string s =>
    have read := readText_word before.1 before.2.1 before.2.2 hfront
    exact read ▸ ⟨rfl, next⟩

/-- No character that is printed ends the text. -/
theorem ReadsBack.noNul (h : ReadsBack fields) : (0 : UInt8) ∉ printedFields fields := by
  induction fields with
  | nil => exact List.not_mem_nil
  | cons f fields ih =>
    obtain ⟨before, back⟩ := h
    intro hmem
    rcases List.mem_append.mp hmem with hmem | hmem
    · cases f with
      | literal c plain => exact plain.1 (List.mem_singleton.mp hmem).symm
      | blank c space => exact (blank_plain space).1 (List.mem_singleton.mp hmem).symm
      | percent => exact absurd hmem (by decide)
      | number conv num =>
        have text : conv.printed num = toText num conv.base := by
          cases conv
          all_goals exact numText_eq (by decide) (by decide) num
        obtain ⟨hb, hmax⟩ := conv.base_bounds
        exact toText_noNul hb hmax num 0 (text ▸ hmem) rfl
      | char num => exact before (List.mem_singleton.mp hmem).symm
      | string s => exact s.noNul hmem
    · exact ih back hmem

/-- No empty word is at the end. -/
theorem ReadsBack.not_endsEmpty (h : ReadsBack fields) :
    ¬ EndsEmpty (fields.map FormatField.piece) := by
  rintro ⟨width, hlast⟩
  rw [List.getLast?_map, Option.map_eq_some_iff] at hlast
  obtain ⟨f, hf, hpiece⟩ := hlast
  have words : ∀ fields, ReadsBack fields → FormatField.string .empty ∉ fields := by
    intro fields h hmem
    induction fields with
    | nil => exact absurd hmem List.not_mem_nil
    | cons g fields ih =>
      rcases List.mem_cons.mp hmem with rfl | hmem
      · exact h.1.1 rfl
      · exact ih h.2 hmem
  cases f with
  | string s =>
    obtain rfl : s = .empty := by
      injection hpiece with _ hconv
      exact Option.some.inj (Conversion.str.inj hconv)
    exact words fields h (List.mem_of_getLast? hf)
  | literal c plain => exact absurd hpiece Piece.noConfusion
  | blank c space => exact absurd hpiece Piece.noConfusion
  | percent => exact absurd hpiece Piece.noConfusion
  | number conv num =>
    injection hpiece with _ hconv
    exact absurd hconv Conversion.noConfusion
  | char num =>
    injection hpiece with _ hconv
    exact absurd hconv Conversion.noConfusion

/-- `sscanf` reads back what `vsprintf`, and `vsnprintf` with room for it, print with the same
format: every number, character and word, whatever they are and however many, where each field ends
in front of the next. -/
theorem sscanf_reads_back (fields : List FormatField) (h : ReadsBack fields) (args : List Arg) :
    ∃ text : CString,
      vsprintf (scanFormat (fields.map FormatField.item))
          (argsOf (fields.map FormatField.piece) ++ args) =
        some { bytes := text.bytes, ret := text.strlen, args } ∧
      (∀ n, text.strlen < n → vsnprintf n (scanFormat (fields.map FormatField.item))
          (argsOf (fields.map FormatField.piece) ++ args) =
        some { bytes := text.bytes, ret := text.strlen, args }) ∧
      (sscanf text (scanFormat (fields.map FormatField.item))).map Scan.result =
        some ((fields.flatMap FormatField.values).length, fields.flatMap FormatField.values) := by
  have printed : printedOf (fields.map FormatField.piece) = printedFields fields :=
    List.flatMap_map ..
  refine ⟨⟨printedFields fields, h.noNul⟩, ?_, fun n hn => ?_, ?_⟩
  · rw [← formatOf_pieces, vsprintf_pieces, printed]
    rfl
  · have fits : (printedOf (fields.map FormatField.piece)).length ≤ (n : Int) - 1 := by
      have length : (printedFields fields).length < n := hn
      rw [printed]
      omega
    have buffer := vsnprintfLoop_pieces (fields.map FormatField.piece)
      (List.forall_mem_map.mpr fun f _ => f.noWidth_piece) [] args fits fun _ => h.not_endsEmpty
    rw [← formatOf_pieces, vsnprintf, buffer, List.nil_append, printed]
    rfl
  · refine (sscanf_reads.scan _ rfl).trans ?_
    exact readItems_takes (fun f fields input => LeftFor.takes) h.left

/-- "%d, %s" -/
def numberAndWord : List FormatField :=
  [.number .d (-5), .literal 44 (by decide), .blank 32 rfl, .string (.char 97 CString.a_ne_zero)]

theorem readsBack_numberAndWord : ReadsBack numberAndWord := by
  have prints : NumberConv.Prints (-5) .d := (by decide : (-5 : BitVec 32) ≠ BitVec.intMin 32)
  refine ⟨⟨prints, HeadNot.cons (by decide) _⟩, trivial, trivial, ⟨by decide, ?_, ?_⟩, trivial⟩
  · exact List.forall_mem_singleton.mpr rfl
  · exact fun _ h => absurd h.symm (Option.some_ne_none _)

theorem sscanf_reads_back_numberAndWord :
    ∃ text : CString,
      vsprintf (scanFormat (numberAndWord.map FormatField.item))
          (argsOf (numberAndWord.map FormatField.piece) ++ []) =
        some { bytes := text.bytes, ret := text.strlen, args := [] } ∧
      (∀ n, text.strlen < n → vsnprintf n (scanFormat (numberAndWord.map FormatField.item))
          (argsOf (numberAndWord.map FormatField.piece) ++ []) =
        some { bytes := text.bytes, ret := text.strlen, args := [] }) ∧
      (sscanf text (scanFormat (numberAndWord.map FormatField.item))).map Scan.result =
        some ((numberAndWord.flatMap FormatField.values).length,
          numberAndWord.flatMap FormatField.values) :=
  sscanf_reads_back numberAndWord readsBack_numberAndWord []

end Unics
