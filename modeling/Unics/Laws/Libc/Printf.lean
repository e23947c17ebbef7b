import Mathlib.Data.List.TakeWhile
import Mathlib.Tactic.ByContra
import Unics.Lib.Checked
import Unics.Laws.Libc.Numbers

/-!
# A format and its matching arguments

A format is read in pieces, and a piece says which argument it takes and what it stands for.
`vsprintf` prints piece after piece. `vsnprintf` does the same as long as no piece has a width: a
width it prints, and leaves the argument to the next conversion.
-/

namespace Unics

open Unics.Lib

/-! ## Pieces of a format -/

/-- The letters that print a number. -/
inductive NumberLetter where
  | d
  | i
  | x
  | X
  | u
  deriving DecidableEq

def NumberLetter.byte : NumberLetter → UInt8
  | .d => 100
  | .i => 105
  | .x => 120
  | .X => 88
  | .u => 117

def NumberLetter.base : NumberLetter → Int
  | .d => 10
  | .i => 10
  | .x => 16
  | .X => 16
  | .u => 10

/-- A conversion with the argument it is for. -/
inductive Conversion where
  | str (s : Option CString)
  | number (letter : NumberLetter) (num : BitVec 32)
  | char (num : BitVec 32)
  | ptr (p : UIntPtr)
  deriving DecidableEq

namespace Conversion

def letter : Conversion → UInt8
  | .str _ => 115
  | .number letter _ => letter.byte
  | .char _ => 99
  | .ptr _ => 112

def arg : Conversion → Arg
  | .str s => .str s
  | .number _ num => .int num
  | .char num => .int num
  | .ptr p => .ptr p

def text : Conversion → List UInt8
  | .str s => strText s
  | .number letter num => numText num letter.base
  | .char num => [UInt8.ofBitVec (num.setWidth 8)]
  | .ptr p => [48, 120] ++ numText p 16

end Conversion

/-- The digits between a `%` and the letter of a conversion, which may be none. -/
structure Width where
  digits : List UInt8
  isDigit : ∀ c ∈ digits, isFormatDigit c = true
  deriving DecidableEq

def Width.none : Width := ⟨[], fun _ h => absurd h List.not_mem_nil⟩

/-- A character of the literal text, a `%%` or a conversion. -/
inductive Piece where
  | literal (c : UInt8) (plain : c ≠ 0 ∧ c ≠ 37)
  | percent
  | conv (width : Width) (conversion : Conversion)
  deriving DecidableEq

namespace Piece

def format : Piece → List UInt8
  | .literal c _ => [c]
  | .percent => [37, 37]
  | .conv width conversion => 37 :: (width.digits ++ [conversion.letter])

def args : Piece → List Arg
  | .conv _ conversion => [conversion.arg]
  | _ => []

def text : Piece → List UInt8
  | .literal c _ => [c]
  | .percent => [37]
  | .conv _ conversion => conversion.text

/-- No width stands in the piece. -/
def NoWidth : Piece → Prop
  | .conv width _ => width.digits = []
  | _ => True

instance : DecidablePred NoWidth
  | .literal _ _ => isTrue trivial
  | .percent => isTrue trivial
  | .conv width _ => inferInstanceAs (Decidable (width.digits = []))

end Piece

theorem NumberLetter.byte_ne (letter : NumberLetter) :
    letter.byte ≠ 0 ∧ letter.byte ≠ 37 ∧ isFormatDigit letter.byte = false := by
  cases letter
  all_goals decide

theorem Conversion.letter_ne (conversion : Conversion) :
    conversion.letter ≠ 0 ∧ isFormatDigit conversion.letter = false := by
  cases conversion with
  | str s => exact (by decide : (115 : UInt8) ≠ 0 ∧ isFormatDigit 115 = false)
  | number letter num => exact ⟨letter.byte_ne.1, letter.byte_ne.2.2⟩
  | char num => exact (by decide : (99 : UInt8) ≠ 0 ∧ isFormatDigit 99 = false)
  | ptr p => exact (by decide : (112 : UInt8) ≠ 0 ∧ isFormatDigit 112 = false)

theorem Conversion.letter_ne_percent (conversion : Conversion) : conversion.letter ≠ 37 := by
  cases conversion with
  | str s => exact (by decide : (115 : UInt8) ≠ 37)
  | number letter num => exact letter.byte_ne.2.1
  | char num => exact (by decide : (99 : UInt8) ≠ 37)
  | ptr p => exact (by decide : (112 : UInt8) ≠ 37)

theorem Piece.noNul (p : Piece) : (0 : UInt8) ∉ p.format := by
  intro h
  cases p with
  | literal c plain => exact plain.1 (List.mem_singleton.mp h).symm
  | percent =>
    simp only [format, List.mem_cons, List.not_mem_nil, or_false, or_self] at h
    exact absurd h (by decide)
  | conv width conversion =>
    rcases List.mem_cons.mp h with hpercent | h
    · exact absurd hpercent (by decide)
    · rcases List.mem_append.mp h with hdigit | hletter
      · exact absurd (width.isDigit 0 hdigit) (by decide)
      · exact conversion.letter_ne.1 (List.mem_singleton.mp hletter).symm

/-- The format that pieces make up. -/
def formatOf (pieces : List Piece) : CString where
  bytes := pieces.flatMap Piece.format
  noNul h := by
    obtain ⟨p, -, hp⟩ := List.mem_flatMap.mp h
    exact p.noNul hp

/-- The arguments that match it. -/
def argsOf (pieces : List Piece) : List Arg := pieces.flatMap Piece.args

/-- What it stands for. -/
def printedOf (pieces : List Piece) : List UInt8 := pieces.flatMap Piece.text

theorem formatOf_cons (p : Piece) (pieces : List Piece) :
    (formatOf (p :: pieces)).bytes = p.format ++ (formatOf pieces).bytes := rfl

theorem argsOf_cons_append (p : Piece) (pieces : List Piece) (args : List Arg) :
    argsOf (p :: pieces) ++ args = p.args ++ (argsOf pieces ++ args) :=
  List.append_assoc _ _ _

theorem append_printedOf_cons (dst : List UInt8) (p : Piece) (pieces : List Piece) :
    dst ++ printedOf (p :: pieces) = dst ++ p.text ++ printedOf pieces :=
  (List.append_assoc _ _ _).symm

/-- The last piece is a `%s` for the empty string. -/
def EndsEmpty (pieces : List Piece) : Prop :=
  ∃ width, pieces.getLast? = some (.conv width (.str (some .empty)))

theorem EndsEmpty.cons {pieces : List Piece} (h : EndsEmpty pieces) (p : Piece) :
    EndsEmpty (p :: pieces) := by
  obtain ⟨width, hlast⟩ := h
  refine ⟨width, ?_⟩
  rw [List.getLast?_cons, hlast]
  rfl

/-! ## `vsprintf` -/

theorem vsprintfConv_eq (conversion : Conversion) (dst : List UInt8) (args : List Arg) :
    vsprintfConv conversion.letter dst (conversion.arg :: args) =
      some (dst ++ conversion.text, args) := by
  cases conversion with
  | number letter num =>
    cases letter
    all_goals rfl
  | ptr p => exact congrArg (fun text => some (text, args)) (List.append_assoc dst _ _)
  | _ => rfl

theorem vsprintfLoop_digits (digits : List UInt8) (h : ∀ c ∈ digits, isFormatDigit c = true)
    (format dst : List UInt8) (args : List Arg) :
    vsprintfLoop true (digits ++ format) dst args = vsprintfLoop true format dst args := by
  induction digits with
  | nil => rfl
  | cons c digits ih =>
    rw [List.cons_append, vsprintfLoop, if_pos (h c List.mem_cons_self)]
    exact ih fun d hd => h d (List.mem_cons_of_mem c hd)

/-- One piece, whatever its width. -/
theorem vsprintfLoop_piece (p : Piece) (format dst : List UInt8) (args : List Arg) :
    vsprintfLoop false (p.format ++ format) dst (p.args ++ args) =
      vsprintfLoop false format (dst ++ p.text) args := by
  cases p with
  | literal c plain => exact if_pos (.inl plain.2)
  | percent => rfl
  | conv width conversion =>
    have next : width.digits ++ [conversion.letter] ++ format ≠ [] := by
      simp only [ne_eq, List.append_eq_nil_iff, List.cons_ne_nil, and_false, false_and,
        not_false_eq_true]
    calc vsprintfLoop false (37 :: (width.digits ++ [conversion.letter] ++ format)) dst
          (conversion.arg :: args)
      _ = vsprintfLoop true (width.digits ++ [conversion.letter] ++ format) dst
          (conversion.arg :: args) := if_neg (not_or.mpr ⟨fun h => h rfl, next⟩)
      _ = vsprintfLoop true (conversion.letter :: format) dst (conversion.arg :: args) := by
        rw [List.append_assoc]
        exact vsprintfLoop_digits width.digits width.isDigit _ dst _
      _ = vsprintfLoop false format (dst ++ conversion.text) args := by
        rw [vsprintfLoop, if_neg (Bool.not_eq_true _ ▸ conversion.letter_ne.2), vsprintfConv_eq]
        rfl

theorem vsprintfLoop_pieces (pieces : List Piece) (dst : List UInt8) (args : List Arg) :
    vsprintfLoop false (formatOf pieces).bytes dst (argsOf pieces ++ args) =
      some (dst ++ printedOf pieces, args) := by
  induction pieces generalizing dst with
  | nil => exact congrArg (fun text => some (text, args)) (List.append_nil dst).symm
  | cons p pieces ih =>
    rw [formatOf_cons, argsOf_cons_append, append_printedOf_cons, vsprintfLoop_piece]
    apply ih

/-- `vsprintf` prints what the format stands for and takes the arguments that match it. -/
theorem vsprintf_pieces (pieces : List Piece) (args : List Arg) :
    vsprintf (formatOf pieces) (argsOf pieces ++ args) =
      some { bytes := printedOf pieces, ret := (printedOf pieces).length, args } := by
  unfold vsprintf
  rw [vsprintfLoop_pieces]
  rfl

/-- Only a `%s` can stand for nothing. -/
theorem Piece.text_eq_nil_iff (p : Piece) :
    p.text = [] ↔ ∃ width, p = .conv width (.str (some .empty)) := by
  constructor
  · intro h
    cases p with
    | literal c plain => exact absurd h (List.cons_ne_nil _ _)
    | percent => exact absurd h (List.cons_ne_nil _ _)
    | conv width conversion =>
      refine ⟨width, congrArg (Piece.conv width) ?_⟩
      cases conversion with
      | str s =>
        cases s with
        | none => exact absurd h (List.cons_ne_nil _ _)
        | some s => exact congrArg (fun s => Conversion.str (some s)) (CString.ext h)
      | number letter num =>
        cases letter
        all_goals exact absurd h (numText_ne_nil (by decide) (by decide) num)
      | char num => exact absurd h (List.cons_ne_nil _ _)
      | ptr p => exact absurd h (List.cons_ne_nil _ _)
  · rintro ⟨width, rfl⟩
    rfl

theorem endsEmpty_of_printedOf {pieces : List Piece} (hne : pieces ≠ [])
    (h : printedOf pieces = []) : EndsEmpty pieces := by
  have last := List.flatMap_eq_nil_iff.mp h (pieces.getLast hne) (List.getLast_mem hne)
  obtain ⟨width, hlast⟩ := (Piece.text_eq_nil_iff _).mp last
  exact ⟨width, (List.getLast?_eq_some_getLast hne).trans (congrArg some hlast)⟩

/-! ## `vsnprintf` -/

/-- A loop that stores characters stores as many as there is room for. -/
theorem putUpTo_take (stop : Nat) (dst text : List UInt8) :
    putUpTo stop dst text = dst ++ text.take (stop - dst.length) := by
  induction text generalizing dst with
  | nil => rw [putUpTo, List.take_nil, List.append_nil]
  | cons c text ih =>
    rw [putUpTo]
    by_cases hroom : dst.length < stop
    · have more : stop - dst.length = stop - (dst ++ [c]).length + 1 := by
        rw [List.length_append, List.length_singleton]
        omega
      rw [if_pos (by omega), ih, more, List.take_succ_cons, List.append_assoc]
      rfl
    · have full : stop - dst.length = 0 := by omega
      rw [if_neg (by omega), full, List.take_zero, List.append_nil]

section Limited

variable {stop : Int}

theorem putUpTo_eq (text dst : List UInt8) (h : (dst ++ text).length ≤ stop) :
    putUpTo stop dst text = dst ++ text := by
  obtain ⟨room, rfl⟩ := Int.eq_ofNat_of_zero_le (by omega : 0 ≤ stop)
  rw [List.length_append] at h
  rw [putUpTo_take, List.take_of_length_le (by omega)]

/-- A conversion that has room for what it prints. -/
theorem vsnprintfConv_eq (conversion : Conversion) (dst : List UInt8) (args : List Arg)
    (h : (dst ++ conversion.text).length ≤ stop) :
    vsnprintfConv stop conversion.letter dst (conversion.arg :: args) =
      some (dst ++ conversion.text, args) := by
  cases conversion with
  | str s => exact congrArg (fun text => some (text, args)) (putUpTo_eq _ dst h)
  | number letter num =>
    have put := congrArg (fun text => some (text, args)) (putUpTo_eq _ dst h)
    cases letter
    all_goals exact put
  | char num =>
    have room : dst.length < stop := by
      rw [List.length_append] at h
      have one : (Conversion.char num).text.length = 1 := rfl
      omega
    exact congrArg (fun text => some (text, args)) (if_pos room)
  | ptr p =>
    have digits : 1 ≤ (numText p 16).length :=
      List.length_pos_iff.mpr (numText_ne_nil (by decide) (by decide) p)
    have length : (dst ++ (Conversion.ptr p).text).length =
        dst.length + 2 + (numText p 16).length := by
      rw [List.length_append, Conversion.text, List.length_append, ← Nat.add_assoc]
      rfl
    have room : (dst.length : Int) + 2 < stop := by omega
    have put : putUpTo stop (dst ++ [48, 120]) (numText p 16) = dst ++ (Conversion.ptr p).text := by
      refine (putUpTo_eq _ _ ?_).trans (List.append_assoc _ _ _)
      rw [List.append_assoc]
      exact h
    exact congrArg (fun text => some (text, args)) ((if_pos room).trans put)

/-- A `%` and the character behind it, where the output is not full. -/
theorem vsnprintfLoop_directive {dst : List UInt8} (hroom : dst.length < stop) (c : UInt8)
    (format : List UInt8) (args : List Arg) :
    vsnprintfLoop stop false (37 :: c :: format) dst args =
      (vsnprintfConv stop c dst args).bind fun printing =>
        vsnprintfLoop stop false format printing.1 printing.2 := by
  have directive : ¬ ((37 : UInt8) ≠ 37 ∨ c :: format = []) :=
    not_or.mpr ⟨fun h => h rfl, List.cons_ne_nil c format⟩
  rw [vsnprintfLoop, if_neg (not_not.mpr hroom), if_neg directive]
  rfl

/-- One piece without a width. -/
theorem vsnprintfLoop_piece {p : Piece} (hp : p.NoWidth) (format dst : List UInt8)
    (args : List Arg) (hroom : dst.length < stop) (h : (dst ++ p.text).length ≤ stop) :
    vsnprintfLoop stop false (p.format ++ format) dst (p.args ++ args) =
      vsnprintfLoop stop false format (dst ++ p.text) args := by
  cases p with
  | literal c plain =>
    exact (if_neg (not_not.mpr hroom)).trans (if_pos (.inl plain.2))
  | percent =>
    have conv : vsnprintfConv stop 37 dst args = some (dst ++ [37], args) :=
      congrArg (fun text => some (text, args)) (if_pos hroom)
    refine (vsnprintfLoop_directive hroom 37 format args).trans ?_
    rw [conv]
    rfl
  | conv width conversion =>
    have hformat : (Piece.conv width conversion).format ++ format =
        37 :: conversion.letter :: format := by
      rw [Piece.format, show width.digits = [] from hp]
      rfl
    rw [hformat]
    refine (vsnprintfLoop_directive hroom conversion.letter format _).trans ?_
    rw [Piece.args, List.cons_append, vsnprintfConv_eq conversion dst _ h]
    rfl

/-- Pieces without a width. The output may only be full where nothing is left to read. -/
theorem vsnprintfLoop_pieces (pieces : List Piece) (hwidth : ∀ p ∈ pieces, p.NoWidth)
    (dst : List UInt8) (args : List Arg) (h : (dst ++ printedOf pieces).length ≤ stop)
    (hend : (dst ++ printedOf pieces).length = stop → ¬ EndsEmpty pieces) :
    vsnprintfLoop stop false (formatOf pieces).bytes dst (argsOf pieces ++ args) =
      some (dst ++ printedOf pieces, args) := by
  induction pieces generalizing dst with
  | nil => exact congrArg (fun text => some (text, args)) (List.append_nil dst).symm
  | cons p pieces ih =>
    have hroom : dst.length < stop := by
      by_contra hfull
      have empty : printedOf (p :: pieces) = [] := by
        rw [← List.length_eq_zero_iff]
        rw [List.length_append] at h
        omega
      refine hend ?_ (endsEmpty_of_printedOf (List.cons_ne_nil p pieces) empty)
      rw [empty, List.append_nil] at h ⊢
      omega
    rw [append_printedOf_cons] at h hend ⊢
    have hpiece : (dst ++ p.text).length ≤ stop := by
      rw [List.length_append] at h
      omega
    rw [formatOf_cons, argsOf_cons_append,
      vsnprintfLoop_piece (hwidth p List.mem_cons_self) _ dst _ hroom hpiece]
    apply ih (fun q hq => hwidth q (List.mem_cons_of_mem p hq)) (dst ++ p.text) h
    intro hfull hempty
    exact hend hfull (hempty.cons p)

/-! What goes unread leaves its arguments. -/

/-- The most arguments that `vsnprintf` takes for a piece. -/
def Piece.taken (p : Piece) : Nat := if p.NoWidth then p.args.length else 0

theorem Piece.taken_le (p : Piece) : p.taken ≤ p.args.length := by
  unfold Piece.taken
  split
  · exact Nat.le_refl _
  · exact Nat.zero_le _

/-- A conversion that takes an argument and prints something. -/
theorem take_of_eq_some {β : Type} {va : List Arg → Option (β × List Arg)}
    {put : β × List Arg → Option Printing} {args : List Arg} {r : Printing}
    (hva : ∀ {b rest}, va args = some (b, rest) → args.length = rest.length + 1)
    (hput : ∀ b rest, (put (b, rest)).map Prod.snd = some rest)
    (h : va args >>= put = some r) : args.length ≤ r.2.length + 1 := by
  obtain ⟨⟨b, rest⟩, hb, hr⟩ := Option.bind_eq_some_iff.mp h
  have left : r.2 = rest := by
    have same := hput b rest
    rw [hr] at same
    exact Option.some.inj same
  rw [left]
  exact Nat.le_of_eq (hva hb)

theorem vaInt_length {args rest : List Arg} {num : BitVec 32}
    (h : vaInt args = some (num, rest)) : args.length = rest.length + 1 := by
  unfold vaInt at h
  split at h
  · cases h
    rfl
  · simp only [reduceCtorEq] at h

theorem vaStr_length {args rest : List Arg} {s : Option CString}
    (h : vaStr args = some (s, rest)) : args.length = rest.length + 1 := by
  unfold vaStr at h
  split at h
  · cases h
    rfl
  · simp only [reduceCtorEq] at h

theorem vaPtr_length {args rest : List Arg} {p : UIntPtr}
    (h : vaPtr args = some (p, rest)) : args.length = rest.length + 1 := by
  unfold vaPtr at h
  split at h
  · cases h
    rfl
  · simp only [reduceCtorEq] at h

theorem vsnprintfConv_takes {c : UInt8} {dst : List UInt8} {args : List Arg} {r : Printing}
    (h : vsnprintfConv stop c dst args = some r) : args.length ≤ r.2.length + 1 := by
  have printed : ∀ dst : List UInt8, some (dst, args) = some r → args.length ≤ r.2.length + 1 := by
    intro dst hr
    obtain rfl := Option.some.inj hr
    exact Nat.le_succ _
  have int : ∀ {put : BitVec 32 × List Arg → Option Printing},
      (∀ num rest, (put (num, rest)).map Prod.snd = some rest) →
        vaInt args >>= put = some r → args.length ≤ r.2.length + 1 :=
    fun hput => take_of_eq_some vaInt_length hput
  revert h
  unfold vsnprintfConv
  refine of_ite_eq_some (take_of_eq_some vaStr_length fun _ _ => rfl) ?_
  refine of_ite_eq_some (int fun _ _ => rfl) ?_
  refine of_ite_eq_some (int fun _ _ => rfl) ?_
  refine of_ite_eq_some (int fun _ _ => rfl) ?_
  refine of_ite_eq_some (int fun _ _ => rfl) ?_
  refine of_ite_eq_some (take_of_eq_some vaPtr_length fun _ _ => rfl) ?_
  exact of_ite_eq_some (printed _) (printed _)

/-- A digit is no conversion. -/
theorem vsnprintfConv_digit {c : UInt8} (hc : isFormatDigit c = true) {dst : List UInt8}
    {args : List Arg} {r : Printing} (h : vsnprintfConv stop c dst args = some r) :
    r.2 = args := by
  have other : ∀ k : UInt8, isFormatDigit k = false → c ≠ k := by
    rintro k hk rfl
    exact Bool.false_ne_true (hk.symm.trans hc)
  unfold vsnprintfConv at h
  rw [if_neg (other _ (by decide)), if_neg (not_or.mpr ⟨other _ (by decide), other _ (by decide)⟩),
    if_neg (not_or.mpr ⟨other _ (by decide), other _ (by decide)⟩), if_neg (other _ (by decide)),
    if_neg (other _ (by decide)), if_neg (other _ (by decide)), if_neg (other _ (by decide))] at h
  rw [← Option.some.inj h]

/-- A character that is no `%`. -/
theorem vsnprintfLoop_plain {c : UInt8} (hc : c ≠ 37) {format dst : List UInt8} {args : List Arg}
    {r : Printing} (h : vsnprintfLoop stop false (c :: format) dst args = some r) :
    r.2 = args ∨ ∃ dst, vsnprintfLoop stop false format dst args = some r := by
  rw [vsnprintfLoop] at h
  split at h
  · exact .inl (congrArg Prod.snd (Option.some.inj h)).symm
  · rw [if_pos (.inl hc)] at h
    exact .inr ⟨_, h⟩

theorem vsnprintfLoop_plains {text : List UInt8} (htext : ∀ c ∈ text, c ≠ 37)
    {format dst : List UInt8} {args : List Arg} {r : Printing}
    (h : vsnprintfLoop stop false (text ++ format) dst args = some r) :
    r.2 = args ∨ ∃ dst, vsnprintfLoop stop false format dst args = some r := by
  induction text generalizing dst with
  | nil => exact .inr ⟨dst, h⟩
  | cons c text ih =>
    rcases vsnprintfLoop_plain (htext c List.mem_cons_self) h with hleft | ⟨dst, h⟩
    · exact .inl hleft
    · exact ih (fun d hd => htext d (List.mem_cons_of_mem c hd)) h

/-- A `%` and the character behind it. -/
theorem vsnprintfLoop_conv {c : UInt8} {format dst : List UInt8} {args : List Arg} {r : Printing}
    (h : vsnprintfLoop stop false (37 :: c :: format) dst args = some r) :
    r.2 = args ∨ ∃ printed, vsnprintfConv stop c dst args = some printed ∧
      vsnprintfLoop stop false format printed.1 printed.2 = some r := by
  rw [vsnprintfLoop] at h
  split at h
  · exact .inl (congrArg Prod.snd (Option.some.inj h)).symm
  · rw [if_neg (not_or.mpr ⟨fun h => h rfl, List.cons_ne_nil _ _⟩), vsnprintfLoop] at h
    exact .inr (Option.bind_eq_some_iff.mp h)

theorem vsnprintfLoop_takes_piece {p : Piece} {format dst : List UInt8} {args : List Arg}
    {r : Printing} (h : vsnprintfLoop stop false (p.format ++ format) dst args = some r) :
    r.2 = args ∨ ∃ dst left, args.length ≤ left.length + p.taken ∧
      vsnprintfLoop stop false format dst left = some r := by
  cases p with
  | literal c plain =>
    refine (vsnprintfLoop_plain plain.2 h).imp_right ?_
    rintro ⟨dst, h⟩
    exact ⟨dst, args, Nat.le_add_right _ _, h⟩
  | percent =>
    refine (vsnprintfLoop_conv h).imp_right ?_
    rintro ⟨printed, hconv, h⟩
    refine ⟨printed.1, printed.2, ?_, h⟩
    have same : printed.2 = args := congrArg Prod.snd (Option.some.inj hconv).symm
    rw [same]
    exact Nat.le_add_right _ _
  | conv width conversion =>
    cases hdigits : width.digits with
    | nil =>
      have hformat : (Piece.conv width conversion).format ++ format =
          37 :: conversion.letter :: format := by
        rw [Piece.format, hdigits]
        rfl
      have one : (Piece.conv width conversion).taken = 1 := if_pos hdigits
      rw [hformat] at h
      refine (vsnprintfLoop_conv h).imp_right ?_
      rintro ⟨printed, hconv, h⟩
      refine ⟨printed.1, printed.2, ?_, h⟩
      rw [one]
      exact vsnprintfConv_takes hconv
    | cons c digits =>
      -- the first digit is taken for a letter, and what is left for text
      have hformat : (Piece.conv width conversion).format ++ format =
          37 :: c :: (digits ++ [conversion.letter] ++ format) := by
        rw [Piece.format, hdigits]
        rfl
      have hdigit : ∀ d ∈ c :: digits, isFormatDigit d = true := hdigits ▸ width.isDigit
      have plain : ∀ d ∈ digits ++ [conversion.letter], d ≠ 37 := by
        intro d hd
        rcases List.mem_append.mp hd with hd | hd
        · rintro rfl
          exact absurd (hdigit 37 (List.mem_cons_of_mem c hd)) (by decide)
        · rw [List.mem_singleton.mp hd]
          exact conversion.letter_ne_percent
      rw [hformat] at h
      rcases vsnprintfLoop_conv h with hleft | ⟨printed, hconv, h⟩
      · exact .inl hleft
      · have same := vsnprintfConv_digit (hdigit c List.mem_cons_self) hconv
        rw [same] at h
        refine (vsnprintfLoop_plains plain h).imp_right ?_
        rintro ⟨dst, h⟩
        exact ⟨dst, args, Nat.le_add_right _ _, h⟩

/-- At most the arguments of the conversions without a width are taken. -/
theorem vsnprintfLoop_takes {pieces : List Piece} {dst : List UInt8} {args : List Arg}
    {r : Printing} (h : vsnprintfLoop stop false (formatOf pieces).bytes dst args = some r) :
    args.length ≤ r.2.length + (pieces.map Piece.taken).sum := by
  induction pieces generalizing dst args with
  | nil =>
    have same : args = r.2 := congrArg Prod.snd (Option.some.inj h)
    rw [same]
    exact Nat.le_add_right _ _
  | cons p pieces ih =>
    rw [formatOf_cons] at h
    rw [List.map_cons, List.sum_cons]
    rcases vsnprintfLoop_takes_piece h with hleft | ⟨dst, left, hone, h⟩
    · rw [hleft]
      exact Nat.le_add_right _ _
    · have rest := ih h
      omega

theorem sum_taken_le (pieces : List Piece) :
    (pieces.map Piece.taken).sum ≤ (argsOf pieces).length := by
  induction pieces with
  | nil => exact Nat.le_refl 0
  | cons p pieces ih =>
    have one := p.taken_le
    rw [argsOf, List.flatMap_cons, List.length_append, List.map_cons, List.sum_cons]
    exact Nat.add_le_add one ih

/-- Where all arguments are taken, no conversion has a width. -/
theorem noWidth_of_taken {pieces : List Piece}
    (h : (argsOf pieces).length ≤ (pieces.map Piece.taken).sum) : ∀ p ∈ pieces, p.NoWidth := by
  induction pieces with
  | nil => exact fun p hp => absurd hp List.not_mem_nil
  | cons p pieces ih =>
    have one := p.taken_le
    have rest := sum_taken_le pieces
    have length : (argsOf (p :: pieces)).length = p.args.length + (argsOf pieces).length :=
      List.length_append
    rw [length, List.map_cons, List.sum_cons] at h
    refine List.forall_mem_cons.mpr ⟨?_, ih (by omega)⟩
    by_contra hwidth
    have none_taken : p.taken = 0 := if_neg hwidth
    have no_args : p.args.length = 0 := by omega
    cases p with
    | conv width conversion => exact absurd no_args (by decide : 1 ≠ 0)
    | _ => exact hwidth trivial

/-- Nothing is read when the output is full. -/
theorem vsnprintfLoop_full {dst : List UInt8} (h : ¬ dst.length < stop) (format : List UInt8)
    (args : List Arg) : vsnprintfLoop stop false format dst args = some (dst, args) := by
  cases format with
  | nil => rfl
  | cons c format => exact if_pos h

theorem EndsEmpty.argsOf_ne_nil {pieces : List Piece} (h : EndsEmpty pieces) :
    argsOf pieces ≠ [] := by
  obtain ⟨width, hlast⟩ := h
  intro hnil
  have none_there := List.flatMap_eq_nil_iff.mp hnil _ (List.mem_of_getLast? hlast)
  exact absurd none_there (List.cons_ne_nil _ _)

/-- The output is full at the latest before a `%s` for the empty string at the end, and its
argument is left. -/
theorem vsnprintfLoop_endsEmpty {pieces : List Piece} (hwidth : ∀ p ∈ pieces, p.NoWidth)
    (hempty : EndsEmpty pieces) (dst : List UInt8) (args : List Arg)
    (h : (dst ++ printedOf pieces).length = stop) :
    vsnprintfLoop stop false (formatOf pieces).bytes dst (argsOf pieces ++ args) ≠
      some (dst ++ printedOf pieces, args) := by
  induction pieces generalizing dst with
  | nil =>
    obtain ⟨width, hlast⟩ := hempty
    exact absurd hlast.symm (Option.some_ne_none _)
  | cons p pieces ih =>
    by_cases hroom : dst.length < stop
    · have hmore : EndsEmpty pieces := by
        cases pieces with
        | nil =>
          -- the only piece stands for nothing, so the output would be full
          obtain ⟨width, hlast⟩ := hempty
          obtain rfl := Option.some.inj hlast
          have nothing : printedOf [Piece.conv width (.str (some .empty))] = [] := rfl
          rw [nothing, List.append_nil] at h
          exact absurd h (Int.ne_of_lt hroom)
        | cons q pieces =>
          obtain ⟨width, hlast⟩ := hempty
          exact ⟨width, (List.getLast?_cons_cons).symm.trans hlast⟩
      rw [append_printedOf_cons] at h ⊢
      have hpiece : (dst ++ p.text).length ≤ stop := by
        rw [List.length_append] at h
        omega
      rw [formatOf_cons, argsOf_cons_append,
        vsnprintfLoop_piece (hwidth p List.mem_cons_self) _ dst _ hroom hpiece]
      exact ih (fun q hq => hwidth q (List.mem_cons_of_mem p hq)) hmore (dst ++ p.text) h
    · rw [vsnprintfLoop_full hroom]
      intro hall
      have left : argsOf (p :: pieces) ++ args = args := congrArg Prod.snd (Option.some.inj hall)
      exact hempty.argsOf_ne_nil (List.append_left_eq_self.mp left)

end Limited

/-- With room for all of it: `vsprintf` prints what the format stands for, and `vsnprintf` does the
same exactly where no conversion has a width and no `%s` for the empty string ends the format just
where the output is full. -/
theorem vsnprintf_eq_vsprintf_iff (pieces : List Piece) (args : List Arg) (n : Nat)
    (hn : (printedOf pieces).length < n) :
    vsprintf (formatOf pieces) (argsOf pieces ++ args) =
        some { bytes := printedOf pieces, ret := (printedOf pieces).length, args } ∧
      (vsnprintf n (formatOf pieces) (argsOf pieces ++ args) =
          vsprintf (formatOf pieces) (argsOf pieces ++ args) ↔
        (∀ p ∈ pieces, p.NoWidth) ∧ ¬ (n = (printedOf pieces).length + 1 ∧ EndsEmpty pieces)) := by
  have whole := vsprintf_pieces pieces args
  refine ⟨whole, ?_⟩
  have printed : vsnprintf n (formatOf pieces) (argsOf pieces ++ args) =
        vsprintf (formatOf pieces) (argsOf pieces ++ args) ↔
      vsnprintfLoop ((n : Int) - 1) false (formatOf pieces).bytes [] (argsOf pieces ++ args) =
        some (printedOf pieces, args) := by
    rw [whole, vsnprintf]
    constructor
    · intro h
      obtain ⟨⟨dst, left⟩, hloop, hr⟩ := Option.bind_eq_some_iff.mp h
      cases hr
      exact hloop
    · intro h
      rw [h]
      rfl
  have fits : (([] ++ printedOf pieces).length : Int) ≤ (n : Int) - 1 := by
    rw [List.nil_append]
    omega
  rw [printed]
  constructor
  · intro h
    have taken := vsnprintfLoop_takes h
    dsimp only at taken
    rw [List.length_append] at taken
    have hwidth := noWidth_of_taken (by omega : (argsOf pieces).length ≤ _)
    refine ⟨hwidth, ?_⟩
    rintro ⟨hfull, hempty⟩
    refine vsnprintfLoop_endsEmpty hwidth hempty [] args ?_ h
    rw [List.nil_append]
    omega
  · rintro ⟨hwidth, hend⟩
    refine vsnprintfLoop_pieces pieces hwidth [] args fits ?_
    intro hfull hempty
    refine hend ⟨?_, hempty⟩
    rw [List.nil_append] at hfull
    omega

/-- A `%s` for the string "a". -/
def plainString : Piece := .conv .none (.str (some (.char 97 CString.a_ne_zero)))

/-- A `%5s` for the string "a". -/
def wideString : Piece :=
  .conv ⟨[53], List.forall_mem_singleton.mpr rfl⟩ (.str (some (.char 97 CString.a_ne_zero)))

/-- The format "%%%s" with room for more than it prints. -/
theorem vsnprintf_eq_vsprintf_iff_string :
    vsprintf (formatOf [.percent, plainString]) (argsOf [.percent, plainString] ++ []) =
        some { bytes := printedOf [.percent, plainString],
               ret := (printedOf [.percent, plainString]).length, args := [] } ∧
      (vsnprintf 8 (formatOf [.percent, plainString]) (argsOf [.percent, plainString] ++ []) =
          vsprintf (formatOf [.percent, plainString]) (argsOf [.percent, plainString] ++ []) ↔
        (∀ p ∈ [.percent, plainString], p.NoWidth) ∧
          ¬ (8 = (printedOf [.percent, plainString]).length + 1 ∧
            EndsEmpty [.percent, plainString])) :=
  vsnprintf_eq_vsprintf_iff [.percent, plainString] [] 8 (by decide)

/-- With "%5s" one prints the string, and the other prints the format and takes no argument. -/
theorem vsnprintf_wideString :
    vsprintf (formatOf [wideString]) (argsOf [wideString]) =
        some { bytes := [97], ret := 1, args := [] } ∧
      vsnprintf 10 (formatOf [wideString]) (argsOf [wideString]) =
        some { bytes := [37, 53, 115], ret := 3, args := argsOf [wideString] } :=
  ⟨rfl, rfl⟩

end Unics
