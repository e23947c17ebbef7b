import Unics.Bin.Numbers
import Unics.Laws.Bin.Bc
import Unics.Laws.Libc.Fields
import Unics.Laws.Libc.Time

/-!
# What `expr` accepts

`expr` takes the operands that `strtol` reads to their end, whatever number that gives in 32 bits
(`Loose`), and then computes in 32 bits. So it also succeeds where there is no value to print,
unless it is stopped by the one quotient that does not fit, which traps. Where there is a value it
prints it, but for the least number, whose text is spoiled.
-/

namespace Unics

open Unics.Lib

/-! ## The value of an expression -/

/-- A number that an `int` can have. -/
def IsInt (z : Int) : Prop := -2 ^ 31 ≤ z ∧ z < 2 ^ 31

/-- An optional sign and digits, with a value that fits. -/
inductive IntOperand (t : CString) : Int → Prop
  | mk {sign digits : List UInt8} {s : Int} {n : ℕ} : SignText sign s → Magnitude 10 digits n →
      t.bytes = sign ++ digits → IsInt (s * n) → IntOperand t (s * n)

/-- The exact operation. A division truncates, and there is none by zero. -/
def BcOp.exact : BcOp → Int → Int → Option Int
  | .add, x, y => some (x + y)
  | .sub, x, y => some (x - y)
  | .mul, x, y => some (x * y)
  | .div, x, y => if y = 0 then none else some (x.tdiv y)

/-- The three arguments are an expression with this value. -/
inductive ExprValue (a o b : CString) : Int → Prop
  | mk {op : BcOp} {x y r : Int} : IntOperand a x → o.bytes = op.text → IntOperand b y →
      op.exact x y = some r → IsInt r → ExprValue a o b r

/-- The decimal text of an integer. -/
def decimal (z : Int) : List UInt8 := (if z < 0 then [45] else []) ++ numeral 10 z.natAbs

/-- The command succeeds exactly on the expressions with a value, and prints the value. -/
structure ExprFollows (name a o b : CString) : Prop where
  accepts : (∃ printed, exprMain [name, a, o, b] = .exit 0 printed) ↔ ∃ r, ExprValue a o b r
  prints : ∀ r, ExprValue a o b r →
    exprMain [name, a, o, b] = .exit 0 (decimal r ++ text "\n")

/-! ## The operands that are taken -/

/-- Blanks, an optional sign and digits, any of which may be missing. -/
inductive Loose (t : CString) : Int → Prop
  | mk {blanks sign digits : List UInt8} {s : Int} : (∀ c ∈ blanks, isStrtolSpace c = true) →
      SignText sign s → (∀ c ∈ digits, isDigitOf 10 c = true) →
      t.bytes = blanks ++ (sign ++ digits) → Loose t (s * digitsValue 10 0 digits)

/-- The inputs on which the command does not do what is expected: an expression with the least
value, and operands that are taken although there is no value, unless the division traps. -/
inductive ExprSlips (a o b : CString) : Prop
  | least : ExprValue a o b (-2 ^ 31) → ExprSlips a o b
  | taken {op : BcOp} {x y : Int} : Loose a x → o.bytes = op.text → Loose b y →
      (∀ r, ¬ ExprValue a o b r) →
      ¬ QuotientOverflows op (BitVec.ofInt 32 x) (BitVec.ofInt 32 y) → ExprSlips a o b

section Operands

variable {t : CString} {x : Int}

theorem magnitude_ten {digits : List UInt8} {n : ℕ} (h : Magnitude 10 digits n) :
    (∀ c ∈ digits, isDigitOf 10 c = true) ∧ n = digitsValue 10 0 digits :=
  h.of_plain fun hb => absurd hb (by decide)

theorem IntOperand.loose (h : IntOperand t x) : Loose t x := by
  cases h with
  | mk hsign hdigits hbytes _ =>
    obtain ⟨hten, rfl⟩ := magnitude_ten hdigits
    exact .mk (fun c hc => absurd hc List.not_mem_nil) hsign hten hbytes

theorem IntOperand.isInt (h : IntOperand t x) : IsInt x := by
  cases h with
  | mk _ _ _ hint => exact hint

/-- What `strtol` reads in base 10. -/
theorem strtol_decimal (t : CString) :
    strtol t 10 =
      (BitVec.ofInt 32 ((strtolSign (t.bytes.dropWhile isStrtolSpace)).1 *
          digitsValue 10 0 (t.unsigned.takeWhile (isDigitOf 10))),
        t.unsigned.dropWhile (isDigitOf 10)) := by
  have plain : prefixed 10 t.unsigned = none := if_neg (by decide)
  exact strtol_eq (b := 10) (strtolBase_plain plain)

theorem isStrtolSpace_digit {c : UInt8} (h : isStrtolSpace c = true) : byteDigit c = none :=
  apart_isspace.digit c (isspace_of_isStrtolSpace h)

theorem isStrtolSpace_sign {c : UInt8} (h : isStrtolSpace c = true) : isSign c = false :=
  apart_isspace.sign c (isspace_of_isStrtolSpace h)

theorem apart_isStrtolSpace : Apart isStrtolSpace :=
  ⟨fun _ => isStrtolSpace_digit, fun _ => isStrtolSpace_sign⟩

/-- Digits, or none, do not begin otherwise. -/
theorem headNot_digits {p : UInt8 → Bool} (hp : ∀ c, p c = true → byteDigit c = none)
    {digits : List UInt8} (h : ∀ c ∈ digits, isDigitOf 10 c = true) : HeadNot p digits := by
  cases digits with
  | nil => exact fun c hc => nomatch hc
  | cons c rest =>
    obtain ⟨d, hd, -⟩ := isDigitOf_iff.mp (h c List.mem_cons_self)
    exact headNot_of_digit hp (hd ▸ rfl) rest

/-- A loose operand is read to its end. -/
theorem Loose.strtol (h : Loose t x) : Unics.strtol t 10 = (BitVec.ofInt 32 x, []) := by
  cases h with
  | @mk blanks sign digits s hblanks hsign hdigits hbytes =>
    have front := headNot_sign_append apart_isStrtolSpace hsign
      (headNot_digits apart_isStrtolSpace.digit hdigits)
    have behind : t.bytes.dropWhile isStrtolSpace = sign ++ digits := by
      have parts := List.takeWhile_append_dropWhile (p := isStrtolSpace) (l := t.bytes)
      rw [hbytes, front.takeWhile hblanks] at parts
      rw [hbytes]
      exact List.append_cancel_left parts
    have signed := strtolSign_append hsign (headNot_digits (fun _ => byteDigit_sign) hdigits)
    have unsigned : t.unsigned = digits := by rw [CString.unsigned, behind, signed]
    rw [strtol_decimal, unsigned, behind, signed, List.takeWhile_eq_self_iff.mpr hdigits,
      List.dropWhile_eq_nil_iff.mpr hdigits]

/-- An operand is read as its value. -/
theorem IntOperand.strtol (h : IntOperand t x) : (Unics.strtol t 10).1.toInt = x := by
  rw [h.loose.strtol]
  exact BitVec.toInt_ofInt_eq_self (by decide) h.isInt.1 h.isInt.2

/-- No comparison with the limits of an `int` rejects a number. -/
theorem exprRejects_iff {num : BitVec 32} {endptr : List UInt8} :
    exprRejects num endptr = true ↔ endptr ≠ [] := by
  have low := BitVec.le_toInt num
  have high := BitVec.toInt_lt (x := num)
  have no_low : ¬ num.toInt < -2147483648 := by omega
  have no_high : ¬ num.toInt > 2147483647 := by omega
  rw [exprRejects, decide_eq_false no_low, decide_eq_false no_high, Bool.or_false, Bool.or_false]
  cases endptr with
  | nil => simp
  | cons c rest => simp

/-- What is read to its end is loose. -/
theorem exists_loose (h : (strtol t 10).2 = []) : ∃ x, Loose t x := by
  obtain ⟨sign, hsign, happend⟩ := strtolSign_text (t.bytes.dropWhile isStrtolSpace)
  have digits : ∀ c ∈ t.unsigned, isDigitOf 10 c = true := by
    rw [strtol_decimal] at h
    exact List.dropWhile_eq_nil_iff.mp h
  have blanks : ∀ c ∈ t.bytes.takeWhile isStrtolSpace, isStrtolSpace c = true :=
    fun c hc => List.mem_takeWhile_imp hc
  refine ⟨_, .mk blanks hsign digits ?_⟩
  exact List.takeWhile_append_dropWhile.symm.trans (congrArg (_ ++ ·) happend)

end Operands

/-! ## The number that is printed -/

/-- Without flags, width and precision, a number is put out with its sign and its digits. -/
theorem percentD_eq_signedText (num : BitVec 32) :
    percentD num = signedText { flags := Flags.none, width := 0, precision := -1 } num := by
  rw [percentD, putSigned_plain _ _ fun h => absurd h.2.1 Bool.false_ne_true]
  exact outputWithFormat_plain ((signedText_short _ num).trans_lt (by decide))

/-- The format `"%d\n"`. -/
theorem vprintf_percentD (text : BitVec 32 → CString) (fixed : BitVec 64 → CString)
    (args : VaList) :
    (vprintf text fixed (CString.ofBytes [37, 100, 10]) args).map Vprintf.out =
      some (percentD args.head ++ [10]) := rfl

/-- A number with a counterpart is printed in decimal. -/
theorem percentD_ofInt {r : Int} (h : IsInt r) (hleast : r ≠ -2 ^ 31) :
    percentD (BitVec.ofInt 32 r) = decimal r := by
  obtain ⟨low, high⟩ := h
  have value : (BitVec.ofInt 32 r).toInt = r := BitVec.toInt_ofInt_eq_self (by decide) low high
  rw [percentD_eq_signedText, signedText, decimal, Directive.signChar, value]
  by_cases hneg : r < 0
  · have counterpart : (-BitVec.ofInt 32 r).toInt = -r := by
      rw [← BitVec.ofInt_neg]
      exact BitVec.toInt_ofInt_eq_self (by decide) (by omega) (by omega)
    have unsigned := toInt_eq_toNat_of_nonneg (x := -BitVec.ofInt 32 r) (by omega)
    have same : (-BitVec.ofInt 32 r).toNat = r.natAbs := by omega
    have digits := (numText_eq_numeral_iff (b := 10) (by decide) (by decide)
      (-BitVec.ofInt 32 r)).mpr (by omega)
    rw [if_pos hneg, if_pos hneg, if_pos hneg, ← same]
    exact congrArg ([45] ++ ·) digits
  · have unsigned := toInt_eq_toNat_of_nonneg (x := BitVec.ofInt 32 r) (by omega)
    have same : (BitVec.ofInt 32 r).toNat = r.natAbs := by omega
    have digits := (numText_eq_numeral_iff (b := 10) (by decide) (by decide)
      (BitVec.ofInt 32 r)).mpr (by omega)
    rw [if_neg hneg, if_neg hneg, if_neg hneg, ← same]
    exact digits

/-- The least number is not. -/
theorem percentD_intMin : percentD (BitVec.intMin 32) ≠ decimal (-2 ^ 31) := by
  intro h
  obtain ⟨c, hc, high⟩ := exists_mem_numeral_gt (b := 10) (n := 2 ^ 31) (by decide) (by decide)
    (by decide)
  have shown : c ∈ decimal (-2 ^ 31) := List.mem_cons_of_mem 45 hc
  rw [← h, percentD_eq_signedText] at shown
  rcases List.mem_cons.mp shown with rfl | hdigit
  · exact absurd high (by decide)
  · have digits : c ∈ toText (BitVec.intMin 32) (10 : ℕ) := by
      rw [← numText_eq (by decide) (by decide)]
      exact hdigit
    have low : c ≤ 48 ∧ c ≠ 0 :=
      toText_low (b := 10) (by decide) (by decide) (by decide) (.inr rfl) c digits
    exact absurd low.1 (UInt8.not_le.mpr high)

/-! ## The calculation -/

/-- The character of an operator. -/
def BcOp.char : BcOp → UInt8
  | .add => 43
  | .sub => 45
  | .mul => 42
  | .div => 47

theorem BcOp.text_eq (op : BcOp) : op.text = [op.char] := by
  cases op
  all_goals rfl

section Calculation

variable {op : BcOp} {num1 num2 : BitVec 32} {x y r : Int}

theorem calculate_div (num1 num2 : BitVec 32) :
    calculate num1 num2 BcOp.div.char =
      if num2 = 0 then some (text "expr: division by zero\n", 0)
      else (idiv num1 num2).map fun quotient => ([], quotient) := rfl

theorem calculate_overflows (h : QuotientOverflows op num1 num2) :
    calculate num1 num2 op.char = none := by
  obtain ⟨rfl, rfl, rfl⟩ := h
  rfl

/-- Elsewhere there is a result. -/
theorem calculate_fits (h : ¬ QuotientOverflows op num1 num2) :
    ∃ printed result, calculate num1 num2 op.char = some (printed, result) := by
  cases op with
  | add => exact ⟨_, _, rfl⟩
  | sub => exact ⟨_, _, rfl⟩
  | mul => exact ⟨_, _, rfl⟩
  | div =>
    rw [calculate_div]
    by_cases hzero : num2 = 0
    · exact ⟨_, _, if_pos hzero⟩
    · have fits : idiv num1 num2 = some (num1.sdiv num2) :=
        if_neg fun hno => hno.elim hzero fun hover => h ⟨rfl, hover⟩
      rw [if_neg hzero, fits]
      exact ⟨_, _, rfl⟩

/-- The exact quotient, rounded towards zero, where it fits. -/
theorem idiv_ofInt (hx : IsInt x) (hy : IsInt y) (hr : IsInt (x.tdiv y)) (hne : y ≠ 0) :
    BitVec.ofInt 32 y ≠ 0 ∧
      idiv (BitVec.ofInt 32 x) (BitVec.ofInt 32 y) = some (BitVec.ofInt 32 (x.tdiv y)) := by
  have xvalue : (BitVec.ofInt 32 x).toInt = x := BitVec.toInt_ofInt_eq_self (by decide) hx.1 hx.2
  have yvalue : (BitVec.ofInt 32 y).toInt = y := BitVec.toInt_ofInt_eq_self (by decide) hy.1 hy.2
  have nonzero : ¬ BitVec.ofInt 32 y = 0 := by
    intro hzero
    rw [hzero] at yvalue
    exact hne yvalue.symm
  -- the quotient 2^31 does not fit
  have fits : ¬ (BitVec.ofInt 32 x = BitVec.intMin 32 ∧ BitVec.ofInt 32 y = -1) := by
    rintro ⟨hleast, hminus⟩
    rw [hleast] at xvalue
    rw [hminus] at yvalue
    obtain rfl : x = -2 ^ 31 := xvalue.symm
    obtain rfl : y = -1 := yvalue.symm
    exact absurd hr.2 (by decide)
  have quotient : (BitVec.ofInt 32 x).sdiv (BitVec.ofInt 32 y) = BitVec.ofInt 32 (x.tdiv y) := by
    refine BitVec.eq_of_toInt_eq ?_
    rw [BitVec.toInt_sdiv, xvalue, yvalue, BitVec.toInt_ofInt]
  rw [idiv, if_neg (not_or.mpr ⟨nonzero, fits⟩), quotient]
  exact ⟨nonzero, rfl⟩

/-- Where the exact operation has a value that fits, it is the result. -/
theorem calculate_exact (hx : IsInt x) (hy : IsInt y) (hr : IsInt r) (h : op.exact x y = some r) :
    calculate (BitVec.ofInt 32 x) (BitVec.ofInt 32 y) op.char = some ([], BitVec.ofInt 32 r) := by
  cases op with
  | add =>
    obtain rfl := Option.some.inj h
    rw [BitVec.ofInt_add]
    rfl
  | sub =>
    obtain rfl := Option.some.inj h
    rw [Int.sub_eq_add_neg, BitVec.ofInt_add, BitVec.ofInt_neg, ← BitVec.sub_eq_add_neg]
    rfl
  | mul =>
    obtain rfl := Option.some.inj h
    rw [BitVec.ofInt_mul]
    rfl
  | div =>
    have divides : ¬ y = 0 := fun hzero => Option.some_ne_none r (h.symm.trans (if_pos hzero))
    obtain rfl : x.tdiv y = r := Option.some.inj ((if_neg divides).symm.trans h)
    obtain ⟨nonzero, quotient⟩ := idiv_ofInt hx hy hr divides
    rw [calculate_div, if_neg nonzero, quotient]
    rfl

end Calculation

/-! ## The command -/

section Command

variable {a o b : CString} {op : BcOp} {x y r : Int}

/-- The operator is one character of the four. -/
def takesOperator (o : CString) : Prop :=
  ¬ (o.strlen ≠ 1 ∨ strchr exprOperators (o.bytes.head?.getD 0) = none)

instance (o : CString) : Decidable (takesOperator o) := inferInstanceAs (Decidable (¬ _))

theorem exprMain_eq (name a o b : CString) :
    exprMain [name, a, o, b] =
      if exprRejects (strtol a 10).1 (strtol a 10).2 then
        .exit 1 (text "expr: invalid number: " ++ a.bytes ++ text "\n")
      else if exprRejects (strtol b 10).1 (strtol b 10).2 then
        .exit 1 (text "expr: invalid number: " ++ b.bytes ++ text "\n")
      else if o.strlen ≠ 1 ∨ strchr exprOperators (o.bytes.head?.getD 0) = none then
        .exit 1 (text "expr: invalid operator: " ++ o.bytes ++ text "\n")
      else exprPrint (calculate (strtol a 10).1 (strtol b 10).1 (o.bytes.head?.getD 0)) := rfl

theorem takesOperator_iff : takesOperator o ↔ ∃ op : BcOp, o.bytes = op.text := by
  constructor
  · intro h
    obtain ⟨hlen, hchar⟩ := not_or.mp h
    obtain ⟨c, hc⟩ := List.length_eq_one_iff.mp (not_not.mp hlen)
    have chars : exprOperators.bytes = [43, 45, 42, 47] := rfl
    rw [hc, List.head?_cons, Option.getD_some, strchr, chars] at hchar
    by_cases hadd : 43 = c
    · exact ⟨.add, hc.trans (congrArg (fun c => [c]) hadd.symm)⟩
    by_cases hsub : 45 = c
    · exact ⟨.sub, hc.trans (congrArg (fun c => [c]) hsub.symm)⟩
    by_cases hmul : 42 = c
    · exact ⟨.mul, hc.trans (congrArg (fun c => [c]) hmul.symm)⟩
    by_cases hdiv : 47 = c
    · exact ⟨.div, hc.trans (congrArg (fun c => [c]) hdiv.symm)⟩
    have nonzero : ¬ c = 0 := by
      rintro rfl
      exact o.noNul (hc ▸ List.mem_singleton.mpr rfl)
    rw [strchrLoop, if_neg hadd, strchrLoop, if_neg hsub, strchrLoop, if_neg hmul, strchrLoop,
      if_neg hdiv, strchrLoop, if_neg nonzero] at hchar
    exact absurd rfl hchar
  · rintro ⟨op, h⟩
    rw [takesOperator, CString.strlen, h]
    cases op
    all_goals decide

/-- The command computes with operands that are taken. -/
theorem exprMain_taken (name : CString) (ha : Loose a x) (ho : o.bytes = op.text)
    (hb : Loose b y) :
    exprMain [name, a, o, b] =
      exprPrint (calculate (BitVec.ofInt 32 x) (BitVec.ofInt 32 y) op.char) := by
  have rejects (num : BitVec 32) : ¬ exprRejects num [] = true := fun hno =>
    exprRejects_iff.mp hno rfl
  have operator : o.bytes.head?.getD 0 = op.char := by rw [ho, op.text_eq]; rfl
  have takes : takesOperator o := takesOperator_iff.mpr ⟨op, ho⟩
  rw [exprMain_eq, ha.strtol, hb.strtol, if_neg (rejects _), if_neg (rejects _), if_neg takes,
    operator]

/-- The command refuses everything else. -/
theorem exprMain_refuses (name : CString)
    (h : ∀ (op : BcOp) x y, Loose a x → o.bytes = op.text → ¬ Loose b y) :
    ∃ printed, exprMain [name, a, o, b] = .exit 1 printed := by
  rw [exprMain_eq]
  by_cases ha : (strtol a 10).2 = []
  · obtain ⟨x, hx⟩ := exists_loose ha
    rw [if_neg fun hno => exprRejects_iff.mp hno ha]
    by_cases hb : (strtol b 10).2 = []
    · obtain ⟨y, hy⟩ := exists_loose hb
      rw [if_neg fun hno => exprRejects_iff.mp hno hb]
      have unknown : ¬ takesOperator o := fun htakes => by
        obtain ⟨op, hop⟩ := takesOperator_iff.mp htakes
        exact h op x y hx hop hy
      exact ⟨_, if_pos (not_not.mp unknown)⟩
    · exact ⟨_, if_pos (exprRejects_iff.mpr hb)⟩
  · exact ⟨_, if_pos (exprRejects_iff.mpr ha)⟩

/-- An expression with a value is computed. -/
theorem exprMain_value (name : CString) (h : ExprValue a o b r) :
    exprMain [name, a, o, b] = .exit 0 (percentD (BitVec.ofInt 32 r) ++ text "\n") := by
  cases h with
  | mk ha ho hb hexact hr =>
    rw [exprMain_taken name ha.loose ho hb.loose, calculate_exact ha.isInt hb.isInt hr hexact]
    rfl

end Command

/-- `expr` computes or refuses as expected, but for the least value and for what it takes without a
value. -/
theorem exprMain_follows_iff (name a o b : CString) :
    ExprFollows name a o b ↔ ¬ ExprSlips a o b := by
  constructor
  · intro h hslips
    cases hslips with
    | least hvalue =>
      have shown := (exprMain_value name hvalue).symm.trans (h.prints _ hvalue)
      exact percentD_intMin (List.append_cancel_right (ExprResult.exit.inj shown).2)
    | taken ha ho hb hno hfits =>
      obtain ⟨printed, result, hcalculate⟩ := calculate_fits hfits
      obtain ⟨r, hr⟩ := h.accepts.mp ⟨printed ++ percentD result ++ text "\n", by
        rw [exprMain_taken name ha ho hb, hcalculate]
        rfl⟩
      exact hno r hr
  · intro h
    refine ⟨⟨fun ⟨printed, hexit⟩ => ?_, fun ⟨r, hr⟩ => ⟨_, exprMain_value name hr⟩⟩,
      fun r hr => ?_⟩
    · by_contra hnone
      refine h ?_
      by_cases htaken : ∃ op x y, Loose a x ∧ o.bytes = BcOp.text op ∧ Loose b y
      · obtain ⟨op, x, y, ha, ho, hb⟩ := htaken
        refine .taken ha ho hb (fun r hr => hnone ⟨r, hr⟩) fun hover => ?_
        rw [exprMain_taken name ha ho hb, calculate_overflows hover] at hexit
        exact ExprResult.noConfusion hexit
      · obtain ⟨shown, hrefused⟩ := exprMain_refuses name fun op x y ha ho hb =>
          htaken ⟨op, x, y, ha, ho, hb⟩
        have status := (ExprResult.exit.inj (hrefused.symm.trans hexit)).1
        exact absurd status (by decide)
    · have small : r ≠ -2 ^ 31 := fun hleast => h (.least (hleast ▸ hr))
      cases hr with
      | mk ha ho hb hexact hint =>
        rw [exprMain_value name (.mk ha ho hb hexact hint), percentD_ofInt hint small]

/-- `6 / 0` has no value, and the command succeeds and prints 0. -/
theorem exprMain_six_zero :
    (∃ printed, exprMain [CString.empty, CString.ofBytes [54], CString.ofBytes [47],
        CString.ofBytes [48]] = .exit 0 printed) ∧
      ∀ r, ¬ ExprValue (CString.ofBytes [54]) (CString.ofBytes [47]) (CString.ofBytes [48]) r := by
  refine ⟨⟨_, rfl⟩, fun r h => ?_⟩
  cases h with
  | @mk op x y r _ ho hb hexact _ =>
    have zero : y = 0 := hb.strtol.symm.trans (by decide)
    have division : op = .div := by
      cases op with
      | div => rfl
      | _ => exact absurd ho (by decide)
    rw [division, BcOp.exact, if_pos zero] at hexact
    exact Option.some_ne_none r hexact.symm

end Unics
