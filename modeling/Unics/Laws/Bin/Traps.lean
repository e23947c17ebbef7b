import Unics.Laws.Bin.Expr

/-!
# The divisions of `expr` and `bc`

Neither command divides by zero. Both divide the least number by -1, which traps: `expr` with
operands that are read as these two, and `bc` where the pairs so far have come to the least number.
-/

namespace Unics

open Unics.Lib

/-- The arguments of `expr` divide the least number by -1, as `strtol` reads them. -/
inductive ExprTraps : List CString → Prop
  | mk {name a o b : CString} {x y : Int} : Loose a x → o.bytes = BcOp.div.text → Loose b y →
      BitVec.ofInt 32 x = BitVec.intMin 32 → BitVec.ofInt 32 y = -1 → ExprTraps [name, a, o, b]

/-- The pairs of `bc` come to the least number, and -1 divides it. -/
inductive BcTraps : BitVec 32 → List (Option BcOp × BitVec 32) → Prop
  | here {ps : List (Option BcOp × BitVec 32)} : BcTraps (BitVec.intMin 32) ((some .div, -1) :: ps)
  | later {op : BcOp} {a b c : BitVec 32} {ps : List (Option BcOp × BitVec 32)} :
      op.apply a b = some c → BcTraps c ps → BcTraps a ((some op, b) :: ps)

/-- The arguments of `bc` do so. -/
def BcDivides : List CString → Prop
  | [] => False
  | t :: ts => BcTraps (atoi t) (readPairs ts)

/-! ## `expr` -/

/-- With another number of arguments, `expr` prints how it is used. -/
theorem exprMain_usage {argv : List CString} (h : argv.length ≠ 4) :
    exprMain argv = .exit 1 exprUsage := by
  match argv, h with
  | [], _ => rfl
  | [_], _ => rfl
  | [_, _], _ => rfl
  | [_, _, _], _ => rfl
  | [_, _, _, _], h => exact absurd rfl h
  | _ :: _ :: _ :: _ :: _ :: _, _ => rfl

theorem exprMain_trap_iff (argv : List CString) : exprMain argv = .trap ↔ ExprTraps argv := by
  by_cases hargc : argv.length = 4
  · obtain ⟨name, a, o, b, rfl⟩ := List.length_eq_four.mp hargc
    constructor
    · intro htrap
      by_cases htaken : ∃ op x y, Loose a x ∧ o.bytes = BcOp.text op ∧ Loose b y
      · obtain ⟨op, x, y, ha, ho, hb⟩ := htaken
        rw [exprMain_taken name ha ho hb] at htrap
        by_cases hover : QuotientOverflows op (BitVec.ofInt 32 x) (BitVec.ofInt 32 y)
        · exact .mk ha (hover.1 ▸ ho) hb hover.2.1 hover.2.2
        · obtain ⟨printed, result, hcalculate⟩ := calculate_fits hover
          rw [hcalculate] at htrap
          exact ExprResult.noConfusion htrap
      · obtain ⟨shown, hrefused⟩ := exprMain_refuses name fun op x y ha ho hb =>
          htaken ⟨op, x, y, ha, ho, hb⟩
        exact ExprResult.noConfusion (hrefused.symm.trans htrap)
    · intro h
      cases h with
      | mk ha ho hb hleast hminus =>
        rw [exprMain_taken name ha ho hb, calculate_overflows ⟨rfl, hleast, hminus⟩]
        rfl
  · rw [exprMain_usage hargc]
    refine iff_of_false (fun h => ExprResult.noConfusion h) fun h => ?_
    cases h
    exact hargc rfl

/-! ## `bc` -/

section Pairs

variable {o t : CString} {op : BcOp} {a b c : BitVec 32} {ts : List CString}
  {ps : List (Option BcOp × BitVec 32)}

theorem not_bcTraps_nil : ¬ BcTraps a [] := by
  intro h
  cases h

theorem not_bcTraps_unknown : ¬ BcTraps a ((none, b) :: ps) := by
  intro h
  cases h

/-- Behind a pair that goes through, the division comes later. -/
theorem BcTraps.of_goes (happly : op.apply a b = some c) (hfits : ¬ QuotientOverflows op a b)
    (h : BcTraps a ((some op, b) :: ps)) : BcTraps c ps := by
  cases h with
  | here => exact absurd ⟨rfl, rfl, rfl⟩ hfits
  | later happly' htraps =>
    cases Option.some.inj (happly'.symm.trans happly)
    exact htraps

/-- An operator is read from its text only. -/
theorem text_of_readOp (h : readOp o = some op) : o.bytes = op.text := by
  unfold readOp at h
  split at h
  · next hadd =>
    cases h
    exact hadd
  split at h
  · next hsub =>
    cases h
    exact hsub
  split at h
  · next hmul =>
    cases h
    exact hmul
  split at h
  · next hdiv =>
    cases h
    exact hdiv
  · exact absurd h.symm (Option.some_ne_none op)

/-- Without an operator the evaluation fails. -/
theorem evalLoop_unknown (h : readOp o = none) :
    evalLoop a (o :: t :: ts) =
      .error (text "bc: unknown operator '" ++ o.bytes ++ text "'\n") := by
  have other (op : BcOp) : ¬ o.bytes = op.text := fun htext =>
    Option.some_ne_none op ((readOp_eq htext).symm.trans h)
  rw [evalLoop]
  exact (if_neg (other .add)).trans ((if_neg (other .sub)).trans
    ((if_neg (other .mul)).trans (if_neg (other .div))))

theorem evalLoop_div (h : readOp o = some .div) :
    evalLoop a (o :: t :: ts) =
      if atoi t = 0 then .error (text "bc: division by zero\n")
      else if a = BitVec.intMin 32 ∧ atoi t = -1 then .trap
      else evalLoop (a.sdiv (atoi t)) ts := by
  rw [evalLoop, text_of_readOp h]
  rfl

/-- Only a division by zero has no result. -/
theorem BcOp.apply_eq_none (h : op.apply a b = none) : op = .div ∧ b = 0 := by
  cases op with
  | div =>
    refine ⟨rfl, ?_⟩
    by_contra hb
    exact Option.some_ne_none _ ((if_neg hb).symm.trans h)
  | _ => exact absurd h (Option.some_ne_none _)

/-- A pair with a result that fits is evaluated, and those behind it with its result. -/
theorem evalLoop_goes (h : readOp o = some op) (happly : op.apply a (atoi t) = some c)
    (hfits : ¬ QuotientOverflows op a (atoi t)) : evalLoop a (o :: t :: ts) = evalLoop c ts := by
  cases op with
  | div =>
    have nonzero : ¬ atoi t = 0 := fun hzero =>
      Option.some_ne_none c (happly.symm.trans (if_pos hzero))
    obtain rfl : a.sdiv (atoi t) = c := Option.some.inj ((if_neg nonzero).symm.trans happly)
    rw [evalLoop_div h, if_neg nonzero]
    exact if_neg fun hover => hfits ⟨rfl, hover⟩
  | _ =>
    cases happly
    rw [evalLoop, text_of_readOp h]
    rfl

end Pairs

/-- The evaluation traps exactly where the least number is divided by -1. -/
theorem evalLoop_trap_iff : ∀ (ts : List CString) (a : BitVec 32),
    evalLoop a ts = .trap ↔ BcTraps a (readPairs ts)
  | [], _ => iff_of_false (fun h => BcResult.noConfusion h) not_bcTraps_nil
  | [_], _ => iff_of_false (fun h => BcResult.noConfusion h) not_bcTraps_nil
  | o :: t :: ts, a => by
    rw [readPairs]
    cases hop : readOp o with
    | none =>
      rw [evalLoop_unknown hop]
      exact iff_of_false (fun h => BcResult.noConfusion h) not_bcTraps_unknown
    | some op =>
      cases happly : op.apply a (atoi t) with
      | none =>
        obtain ⟨rfl, hzero⟩ := BcOp.apply_eq_none happly
        rw [evalLoop_div hop, if_pos hzero]
        refine iff_of_false (fun h => BcResult.noConfusion h) fun h => ?_
        rw [hzero] at h happly
        cases h with
        | later happly' _ => exact Option.some_ne_none _ (happly'.symm.trans happly)
      | some c =>
        by_cases hover : QuotientOverflows op a (atoi t)
        · obtain ⟨rfl, rfl, hminus⟩ := hover
          have nonzero : ¬ atoi t = 0 := by
            rw [hminus]
            decide
          rw [evalLoop_div hop, if_neg nonzero, if_pos ⟨rfl, hminus⟩, hminus]
          exact iff_of_true rfl .here
        · rw [evalLoop_goes hop happly hover, evalLoop_trap_iff ts]
          exact ⟨.later happly, .of_goes happly hover⟩

theorem evalExpr_trap_iff (tokens : List CString) :
    evalExpr tokens = .trap ↔ BcDivides tokens := by
  cases tokens with
  | nil => exact iff_of_false (fun h => BcResult.noConfusion h) id
  | cons t ts => exact evalLoop_trap_iff ts (atoi t)

/-! ## Both commands -/

/-- No division of either command traps, unless it is that of the least number by -1. -/
theorem arithmetic_trap_iff (argv tokens : List CString) :
    (exprMain argv ≠ .trap ↔ ¬ ExprTraps argv) ∧
      (evalExpr tokens ≠ .trap ↔ ¬ BcDivides tokens) :=
  ⟨not_congr (exprMain_trap_iff argv), not_congr (evalExpr_trap_iff tokens)⟩

/-- `-2147483648 / -1` -/
def leastByMinusOne : List CString :=
  [CString.ofBytes [45, 50, 49, 52, 55, 52, 56, 51, 54, 52, 56], CString.ofBytes [47],
    CString.ofBytes [45, 49]]

theorem leastByMinusOne_traps :
    exprMain (CString.empty :: leastByMinusOne) = .trap ∧ evalExpr leastByMinusOne = .trap :=
  ⟨rfl, rfl⟩

end Unics
