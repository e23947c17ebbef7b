import Unics.Bin.Numbers
import Unics.Laws.Libc.Strtol

/-!
# What `bc` accepts

`bc` evaluates the complete pairs of operator and operand, whatever `atoi` makes of the operands,
and drops an operator without an operand. So a list that is not an expression is evaluated too,
unless one of its pairs stops the evaluation (`BcStops`). One of these reasons also stops an
expression that has a value: the least number divided by -1.
-/

namespace Unics

open Unics.Lib

/-! ## Expressions -/

inductive BcOp where
  | add
  | sub
  | mul
  | div
  deriving DecidableEq

/-- How an operator is written. -/
def BcOp.text : BcOp → List UInt8
  | .add => [43]
  | .sub => [45]
  | .mul => [42]
  | .div => [47]

/-- The operation on numbers of 32 bits, undefined for a division by zero. -/
def BcOp.apply : BcOp → BitVec 32 → BitVec 32 → Option (BitVec 32)
  | .add, a, b => some (a + b)
  | .sub, a, b => some (a - b)
  | .mul, a, b => some (a * b)
  | .div, a, b => if b = 0 then none else some (a.sdiv b)

/-- The operations from left to right. -/
def foldOps : BitVec 32 → List (BcOp × BitVec 32) → Option (BitVec 32)
  | a, [] => some a
  | a, (op, b) :: ps => op.apply a b >>= fun c => foldOps c ps

/-- An optionally signed decimal integer, and its value in 32 bits. -/
inductive Operand (t : CString) : BitVec 32 → Prop
  | mk {sign digits : List UInt8} {s : Int} {n : ℕ} : SignText sign s → Magnitude 10 digits n →
      t.bytes = sign ++ digits → Operand t (BitVec.ofInt 32 (s * n))

/-- Operators and operands in turn. -/
inductive BcPairs : List CString → List (BcOp × BitVec 32) → Prop
  | nil : BcPairs [] []
  | cons {o t : CString} {ts : List CString} {op : BcOp} {b : BitVec 32}
      {ps : List (BcOp × BitVec 32)} : o.bytes = op.text → Operand t b → BcPairs ts ps →
      BcPairs (o :: t :: ts) ((op, b) :: ps)

/-- The tokens of an expression. -/
inductive BcForm : List CString → BitVec 32 → List (BcOp × BitVec 32) → Prop
  | mk {t : CString} {ts : List CString} {a : BitVec 32} {ps : List (BcOp × BitVec 32)} :
      Operand t a → BcPairs ts ps → BcForm (t :: ts) a ps

/-- The tokens are an expression with this value. -/
def BcAccepts (tokens : List CString) (r : BitVec 32) : Prop :=
  ∃ a ps, BcForm tokens a ps ∧ foldOps a ps = some r

/-! ## Tokens as they are read -/

/-- The operator of a token, if it is one. -/
def readOp (o : CString) : Option BcOp :=
  if o.bytes = [43] then some .add
  else if o.bytes = [45] then some .sub
  else if o.bytes = [42] then some .mul
  else if o.bytes = [47] then some .div
  else none

/-- The complete pairs, with what `atoi` makes of the operands. -/
def readPairs : List CString → List (Option BcOp × BitVec 32)
  | o :: t :: ts => (readOp o, atoi t) :: readPairs ts
  | _ => []

/-- A pair stops the evaluation: its operator is unknown, it divides by zero, or its quotient does
not fit. -/
inductive BcStops : BitVec 32 → List (Option BcOp × BitVec 32) → Prop
  | unknown {a b : BitVec 32} {ps : List (Option BcOp × BitVec 32)} : BcStops a ((none, b) :: ps)
  | zero {a : BitVec 32} {ps : List (Option BcOp × BitVec 32)} : BcStops a ((some .div, 0) :: ps)
  | overflow {ps : List (Option BcOp × BitVec 32)} :
      BcStops (BitVec.intMin 32) ((some .div, -1) :: ps)
  | later {op : BcOp} {a b c : BitVec 32} {ps : List (Option BcOp × BitVec 32)} :
      op.apply a b = some c → BcStops c ps → BcStops a ((some op, b) :: ps)

/-- The evaluation of `eval_expr` agrees with that of expressions. -/
def BcFollows (tokens : List CString) : Prop := ∀ r, evalExpr tokens = .ok r ↔ BcAccepts tokens r

/-! ## One pair -/

section Pair

variable {a b : BitVec 32}

/-- The quotient that does not fit. -/
def QuotientOverflows (op : BcOp) (a b : BitVec 32) : Prop :=
  op = .div ∧ a = BitVec.intMin 32 ∧ b = -1

instance (op : BcOp) (a b : BitVec 32) : Decidable (QuotientOverflows op a b) :=
  inferInstanceAs (Decidable (_ ∧ _ ∧ _))

/-- How a pair stops the evaluation or lets it go on. -/
inductive PairStep (o t : CString) (ts : List CString) (a : BitVec 32) : Prop
  | stops : BcStops a (readPairs (o :: t :: ts)) → (∀ r, evalLoop a (o :: t :: ts) ≠ .ok r) →
      PairStep o t ts a
  | goes {op : BcOp} {c : BitVec 32} : readOp o = some op → op.apply a (atoi t) = some c →
      ¬ QuotientOverflows op a (atoi t) → evalLoop a (o :: t :: ts) = evalLoop c ts →
      PairStep o t ts a

theorem pairStep (o t : CString) (ts : List CString) (a : BitVec 32) : PairStep o t ts a := by
  have head {x : Option BcOp} (h : readOp o = x) :
      readPairs (o :: t :: ts) = (x, atoi t) :: readPairs ts := by rw [readPairs, h]
  by_cases hadd : o.bytes = [43]
  · refine .goes (if_pos hadd) rfl (fun h => BcOp.noConfusion h.1) ?_
    rw [evalLoop, if_pos hadd]
  by_cases hsub : o.bytes = [45]
  · refine .goes ((if_neg hadd).trans (if_pos hsub)) rfl (fun h => BcOp.noConfusion h.1) ?_
    rw [evalLoop, if_neg hadd, if_pos hsub]
  by_cases hmul : o.bytes = [42]
  · refine .goes ((if_neg hadd).trans ((if_neg hsub).trans (if_pos hmul))) rfl
      (fun h => BcOp.noConfusion h.1) ?_
    rw [evalLoop, if_neg hadd, if_neg hsub, if_pos hmul]
  by_cases hdiv : o.bytes = [47]
  · have op : readOp o = some .div := by
      rw [readOp, if_neg hadd, if_neg hsub, if_neg hmul, if_pos hdiv]
    have division : evalLoop a (o :: t :: ts) =
        if atoi t = 0 then .error (text "bc: division by zero\n")
        else if a = BitVec.intMin 32 ∧ atoi t = -1 then .trap
        else evalLoop (a.sdiv (atoi t)) ts := by
      rw [evalLoop, if_neg hadd, if_neg hsub, if_neg hmul, if_pos hdiv]
    by_cases hzero : atoi t = 0
    · rw [if_pos hzero] at division
      refine .stops ?_ fun r h => BcResult.noConfusion (division.symm.trans h)
      rw [head op, hzero]
      exact .zero
    · rw [if_neg hzero] at division
      by_cases hover : a = BitVec.intMin 32 ∧ atoi t = -1
      · rw [if_pos hover] at division
        refine .stops ?_ fun r h => BcResult.noConfusion (division.symm.trans h)
        rw [head op, hover.1, hover.2]
        exact .overflow
      · exact .goes op (if_neg hzero) (fun h => hover h.2) (division.trans (if_neg hover))
  · refine .stops ?_ fun r h => ?_
    · rw [head (x := none)]
      · exact .unknown
      · rw [readOp, if_neg hadd, if_neg hsub, if_neg hmul, if_neg hdiv]
    · rw [evalLoop, if_neg hadd, if_neg hsub, if_neg hmul, if_neg hdiv] at h
      exact BcResult.noConfusion h

/-- Behind a pair that goes through, what stops the evaluation comes later. -/
theorem BcStops.of_goes {op : BcOp} {c : BitVec 32} {ps : List (Option BcOp × BitVec 32)}
    (happly : op.apply a b = some c) (hfits : ¬ QuotientOverflows op a b)
    (h : BcStops a ((some op, b) :: ps)) : BcStops c ps := by
  cases h with
  | zero => exact absurd happly (Option.some_ne_none c).symm
  | overflow => exact absurd ⟨rfl, rfl, rfl⟩ hfits
  | later happly' hstops =>
    cases Option.some.inj (happly'.symm.trans happly)
    exact hstops

end Pair

/-! ## All pairs -/

/-- The evaluation returns a result exactly if no pair stops it. -/
theorem evalLoop_ok_iff : ∀ (ts : List CString) (a : BitVec 32),
    (∃ r, evalLoop a ts = .ok r) ↔ ¬ BcStops a (readPairs ts)
  | [], a => iff_of_true ⟨a, rfl⟩ fun h => nomatch h
  | [_], a => iff_of_true ⟨a, rfl⟩ fun h => nomatch h
  | o :: t :: ts, a => by
    cases pairStep o t ts a with
    | stops hstops hno => exact iff_of_false (fun ⟨r, hr⟩ => hno r hr) (not_not.mpr hstops)
    | @goes op c hop happly hfits heval =>
      rw [heval, evalLoop_ok_iff ts c, readPairs, hop]
      exact not_congr ⟨.later happly, .of_goes happly hfits⟩

/-- The result is what the operations give from left to right. -/
theorem foldOps_of_evalLoop :
    ∀ (ts : List CString) (a r : BitVec 32) (ps : List (BcOp × BitVec 32)),
      readPairs ts = ps.map (fun p => (some p.1, p.2)) → evalLoop a ts = .ok r →
      foldOps a ps = some r
  | [], a, r, ps, hread, heval => by
    obtain rfl := List.map_eq_nil_iff.mp hread.symm
    cases heval
    rfl
  | [_], a, r, ps, hread, heval => by
    obtain rfl := List.map_eq_nil_iff.mp hread.symm
    cases heval
    rfl
  | o :: t :: ts, a, r, ps, hread, heval => by
    cases pairStep o t ts a with
    | stops _ hno => exact absurd heval (hno r)
    | @goes op c hop happly _ hloop =>
      rw [readPairs, hop] at hread
      cases ps with
      | nil => exact absurd hread (List.cons_ne_nil _ _)
      | cons p ps =>
        obtain ⟨hp, hrest⟩ := List.cons.inj hread
        obtain ⟨hop, hval⟩ := Prod.mk.inj hp
        rw [foldOps, ← Option.some.inj hop, ← hval, happly]
        exact foldOps_of_evalLoop ts c r ps hrest (hloop.symm.trans heval)

/-! ## Well-formed tokens -/

/-- `strtolSign` takes off the sign of a text. -/
theorem strtolSign_append {sign text : List UInt8} {s : Int} (hsign : SignText sign s)
    (htext : HeadNot isSign text) : strtolSign (sign ++ text) = (s, text) := by
  cases hsign with
  | none =>
    cases text with
    | nil => rfl
    | cons c rest =>
      have plain := htext c rfl
      refine strtolSign_plain ?_ ?_ rest
      · rintro rfl
        exact absurd plain (by decide)
      · rintro rfl
        exact absurd plain (by decide)
  | plus => rfl
  | minus => rfl

/-- `atoi` reads an operand. -/
theorem Operand.atoi_eq {t : CString} {v : BitVec 32} (h : Operand t v) : atoi t = v := by
  cases h with
  | @mk sign digits s n hsign hdigits hbytes =>
    obtain ⟨c, rest, rfl, hc⟩ := hdigits.head
    have plain := hdigits.of_plain fun hb => absurd hb (by decide)
    have headBlank := headNot_of_digit apart_isspace.digit hc rest
    have headSign := headNot_of_digit (fun _ => byteDigit_sign) hc rest
    have whole : t.bytes.dropWhile isspace = sign ++ c :: rest := by
      have front := (headNot_sign_append apart_isspace hsign headBlank).takeWhile
        fun d (hd : d ∈ []) => absurd hd List.not_mem_nil
      rw [List.nil_append] at front
      have parts := List.takeWhile_append_dropWhile (p := isspace) (l := sign ++ c :: rest)
      rw [front, List.nil_append] at parts
      rw [hbytes, parts]
    have value : t.decimal = n := by
      have digitsTen : ∀ d ∈ c :: rest, isDigitOf 10 d = true := plain.1
      rw [CString.decimal, whole, strtolSign_append hsign headSign]
      dsimp only
      rw [List.takeWhile_eq_self_iff.mpr digitsTen]
      exact plain.2.symm
    rw [Unics.atoi_eq, whole, strtolSign_append hsign headSign, value, BitVec.ofInt_mul,
      BitVec.ofInt_natCast]

theorem readOp_eq {o : CString} {op : BcOp} (h : o.bytes = op.text) : readOp o = some op := by
  rw [readOp, h]
  cases op with
  | add => rfl
  | sub => rfl
  | mul => rfl
  | div => rfl

theorem BcPairs.read {ts : List CString} {ps : List (BcOp × BitVec 32)} (h : BcPairs ts ps) :
    readPairs ts = ps.map fun p => (some p.1, p.2) := by
  induction h with
  | nil => rfl
  | cons hop hval _ ih => rw [readPairs, readOp_eq hop, hval.atoi_eq, ih, List.map_cons]

/-- Tokens are those of one expression only: that which `bc` reads. -/
theorem BcForm.read {t : CString} {ts : List CString} {a : BitVec 32}
    {ps : List (BcOp × BitVec 32)} (h : BcForm (t :: ts) a ps) :
    a = atoi t ∧ readPairs ts = ps.map fun p => (some p.1, p.2) := by
  cases h with
  | mk hval hpairs => exact ⟨hval.atoi_eq.symm, hpairs.read⟩

theorem map_some_injective {ps qs : List (BcOp × BitVec 32)}
    (h : (ps.map fun p => (some p.1, p.2)) = qs.map fun p => (some p.1, p.2)) : ps = qs := by
  refine List.map_injective_iff.mpr (fun p q hpq => ?_) h
  exact Prod.ext (Option.some.inj (congrArg (·.1) hpq)) (congrArg (·.2) hpq)

/-- For an expression, `bc` agrees if it has no value or nothing stops its evaluation. -/
theorem bcFollows_of_form {t : CString} {ts : List CString} {a : BitVec 32}
    {ps : List (BcOp × BitVec 32)} (h : BcForm (t :: ts) a ps) :
    BcFollows (t :: ts) ↔ ∀ r, foldOps a ps = some r → ¬ BcStops a (readPairs ts) := by
  obtain ⟨ha, hread⟩ := h.read
  have accepts (r : BitVec 32) : BcAccepts (t :: ts) r ↔ foldOps a ps = some r := by
    refine ⟨fun ⟨a', ps', h', hfold⟩ => ?_, fun hfold => ⟨a, ps, h, hfold⟩⟩
    obtain ⟨ha', hread'⟩ := h'.read
    rw [map_some_injective (hread.symm.trans hread'), ha, ← ha']
    exact hfold
  have evaluates (r : BitVec 32) : evalExpr (t :: ts) = .ok r ↔ evalLoop a ts = .ok r := by
    rw [ha]
    exact Iff.rfl
  constructor
  · intro hfollows r hfold
    refine (evalLoop_ok_iff ts a).mp ⟨r, (evaluates r).mp ?_⟩
    exact (hfollows r).mpr ((accepts r).mpr hfold)
  · intro hstops r
    rw [evaluates, accepts]
    constructor
    · exact foldOps_of_evalLoop ts a r ps hread
    · intro hfold
      obtain ⟨r', hr'⟩ := (evalLoop_ok_iff ts a).mpr (hstops r hfold)
      have same := (foldOps_of_evalLoop ts a r' ps hread hr').symm.trans hfold
      rw [hr', Option.some.inj same]

/-- `bc` agrees with the expressions where no quotient overflows in an expression with a value, and
where tokens that are not an expression have a pair that stops the evaluation. -/
theorem evalExpr_follows_iff (tokens : List CString) :
    BcFollows tokens ↔
      (∀ a ps r, BcForm tokens a ps → foldOps a ps = some r →
          ¬ BcStops a (readPairs tokens.tail)) ∧
        ((∀ a ps, ¬ BcForm tokens a ps) → ∀ t ts, tokens = t :: ts →
          BcStops (atoi t) (readPairs ts)) := by
  cases tokens with
  | nil =>
    refine iff_of_true (fun r => ?_) ⟨fun a ps r h => (nomatch h), fun _ t ts h => nomatch h⟩
    exact iff_of_false (fun h => BcResult.noConfusion h) fun ⟨a, ps, h, _⟩ => nomatch h
  | cons t ts =>
    by_cases hform : ∃ a ps, BcForm (t :: ts) a ps
    · obtain ⟨a, ps, hform⟩ := hform
      rw [bcFollows_of_form hform]
      constructor
      · intro h
        refine ⟨fun a' ps' r hform' hfold => ?_, fun hno => absurd hform (hno a ps)⟩
        obtain ⟨ha, hread⟩ := hform.read
        obtain ⟨ha', hread'⟩ := hform'.read
        rw [ha', ← ha]
        rw [map_some_injective (hread'.symm.trans hread), ha', ← ha] at hfold
        exact h r hfold
      · intro h r
        exact h.1 a ps r hform
    · have no_form : ∀ a ps, ¬ BcForm (t :: ts) a ps := fun a ps h => hform ⟨a, ps, h⟩
      have no_value (r : BitVec 32) : ¬ BcAccepts (t :: ts) r := fun ⟨a, ps, h, _⟩ => no_form a ps h
      constructor
      · intro h
        refine ⟨fun a ps r h' => absurd h' (no_form a ps), fun _ t' ts' heq => ?_⟩
        obtain ⟨rfl, rfl⟩ := List.cons.inj heq
        by_contra hgoes
        obtain ⟨r, hr⟩ := (evalLoop_ok_iff ts (atoi t)).mpr hgoes
        exact no_value r ((h r).mp hr)
      · intro h r
        refine iff_of_false (fun hr => ?_) (no_value r)
        exact (evalLoop_ok_iff ts (atoi t)).mp ⟨r, hr⟩ (h.2 no_form t ts rfl)

/-- `3 +` is no expression, and has the result 3. -/
theorem evalExpr_dangling :
    evalExpr [CString.ofBytes [51], CString.ofBytes [43]] = .ok 3 ∧
      ∀ r, ¬ BcAccepts [CString.ofBytes [51], CString.ofBytes [43]] r := by
  refine ⟨by decide, fun r ⟨a, ps, h, _⟩ => ?_⟩
  cases h with
  | mk _ hpairs => cases hpairs

end Unics
