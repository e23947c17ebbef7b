import Mathlib.Order.Bounds.Basic

/-!
# Scans that skip

A scan walks the places `i, i + 1, ...` up to `last` and stops at the first one that it accepts. A
turn that rejects its place may have seen enough to reject the next few as well, and skips them. As
long as the turns skip only places that do not fit, the scan stops at the least place that does: it
is a first fit, whatever its turns look at and however far they jump.
-/

namespace Unics.Lib

/-- What a turn decides: stop here, or go on, past the next `more` places as well. -/
inductive Turn where
  | found
  | skip (more : Nat)
  deriving DecidableEq, Repr

/-- The scan. The fuel bounds the number of turns. -/
def scan (turn : Nat → Turn) (last : Nat) : Nat → Nat → Option Nat
  | 0, _ => none
  | fuel + 1, i =>
    if i ≤ last then
      match turn i with
      | .found => some i
      | .skip more => scan turn last fuel (i + more + 1)
    else none

variable {turn : Nat → Turn} {last : Nat} {Fits : Nat → Prop}

/-- A turn at place `i` is sound for `Fits`: it stops at a place that fits, and the places it passes
over do not. -/
def Turn.Sound (Fits : Nat → Prop) (last i : Nat) : Turn → Prop
  | .found => Fits i
  | .skip more => ∀ j, i ≤ j → j ≤ i + more → j ≤ last → ¬ Fits j

/-- The places among which a scan from `i` chooses. -/
def fitting (Fits : Nat → Prop) (i last : Nat) : Set Nat := {j | i ≤ j ∧ j ≤ last ∧ Fits j}

/-- What a scan answers: the least place that fits, or nothing because no place does. -/
def FirstFit (Fits : Nat → Prop) (i last : Nat) : Option Nat → Prop
  | some k => IsLeast (fitting Fits i last) k
  | none => fitting Fits i last = ∅

/-- Places that do not fit make no difference to what comes first. -/
theorem FirstFit.of_skip {i i' : Nat} {res : Option Nat} (h : FirstFit Fits i' last res)
    (hle : i ≤ i') (hskip : ∀ j, i ≤ j → j < i' → j ≤ last → ¬ Fits j) :
    FirstFit Fits i last res := by
  have same : fitting Fits i last = fitting Fits i' last := by
    ext j
    constructor
    · rintro ⟨hij, hj, hfits⟩
      by_cases hlt : j < i'
      · exact absurd hfits (hskip j hij hlt hj)
      · exact ⟨Nat.le_of_not_lt hlt, hj, hfits⟩
    · rintro ⟨hij, hj, hfits⟩
      exact ⟨Nat.le_trans hle hij, hj, hfits⟩
  cases res with
  | some k =>
    show IsLeast (fitting Fits i last) k
    rw [same]
    exact h
  | none =>
    show fitting Fits i last = ∅
    rw [same]
    exact h

/-- A scan with sound turns and enough fuel is a first fit. -/
theorem scan_firstFit (hsound : ∀ i ≤ last, (turn i).Sound Fits last i) {fuel i : Nat}
    (hfuel : last < fuel + i) : FirstFit Fits i last (scan turn last fuel i) := by
  induction fuel generalizing i with
  | zero =>
    show fitting Fits i last = ∅
    refine Set.eq_empty_of_forall_notMem ?_
    rintro j ⟨hij, hj, _⟩
    omega
  | succ fuel ih =>
    rw [scan]
    split
    · next hi =>
      have sound := hsound i hi
      split
      · next heq =>
        rw [heq] at sound
        exact ⟨⟨Nat.le_refl i, hi, sound⟩, fun j hj => hj.1⟩
      · next more heq =>
        rw [heq] at sound
        have rest : FirstFit Fits (i + more + 1) last (scan turn last fuel (i + more + 1)) :=
          ih (by omega)
        exact rest.of_skip (by omega) fun j hij hlt => sound j hij (by omega)
    · next hi =>
      show fitting Fits i last = ∅
      refine Set.eq_empty_of_forall_notMem ?_
      rintro j ⟨hij, hj, _⟩
      omega

end Unics.Lib
