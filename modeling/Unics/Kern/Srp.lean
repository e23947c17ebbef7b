import Mathlib.Logic.Function.Basic
import Unics.Types

/-!
# Shared references

`kern/refcnt.c` and `kern/srp.c`. A `void *` is an optional value, `NULL` is `none`. The destructor
of a `srp_gc` is somebody else's code: what it is called with, and what is printed, leaves as an
effect.
-/

namespace Unics

/-! ## refcnt -/

/-- `r_refs` after `refcnt_init`. -/
def refcntInit : BitVec 32 := 1

def refcntTake (refs : BitVec 32) : BitVec 32 := refs + 1

/-- `r_refs` after `refcnt_rele`, and whether it was the last reference. -/
def refcntRele (refs : BitVec 32) : BitVec 32 × Bool := (refs - 1, refs - 1 = 0)

/-! ## srp -/

/-- What the code does to the outside. -/
inductive SrpEffect (P : Type) where
  /-- `srp_gc_dtor` is called. -/
  | dtor (cookie ptr : Option P)
  /-- The message of `refcnt_finalize`, with its two arguments. -/
  | stillHeld (msg : String) (refs : BitVec 32)
  deriving DecidableEq, Repr

/-- `refcnt_finalize`. -/
def refcntFinalize {P : Type} (refs : BitVec 32) (msg : String) : List (SrpEffect P) :=
  if refs ≠ 0 then [.stillHeld msg refs] else []

/-- A `srp_gc` and the SRPs that share it, with the effects so far, the first one first. -/
structure Srps (Srp P : Type) where
  cookie : Option P
  refcnt : BitVec 32
  ref : Srp → Option P
  effects : List (SrpEffect P)

variable {Srp P : Type}

/-- After `srp_gc_init`, and `srp_init` of every SRP. -/
def srpGcInit (cookie : Option P) : Srps Srp P where
  cookie
  refcnt := refcntInit
  ref := fun _ => none
  effects := []

/-- What follows the release of the last reference. -/
def Srps.destroy (s : Srps Srp P) (ptr : Option P) : Srps Srp P :=
  { s with
    effects := s.effects ++ .dtor s.cookie ptr :: refcntFinalize s.refcnt "srp_gc_finalize" }

variable [DecidableEq Srp]

/-- What the SRP pointed to, and the SRPs afterwards. -/
def srpSwapLocked (s : Srps Srp P) (srp : Srp) (ptr : Option P) : Option P × Srps Srp P :=
  (s.ref srp, { s with ref := Function.update s.ref srp ptr })

def srpUpdateLocked (s : Srps Srp P) (srp : Srp) (ptr : Option P) : Srps Srp P :=
  let (old, s) := srpSwapLocked s srp ptr
  let s := if ptr ≠ none then { s with refcnt := refcntTake s.refcnt } else s
  if old ≠ none then
    let (refs, last) := refcntRele s.refcnt
    let s := { s with refcnt := refs }
    if last then s.destroy old else s
  else s

omit [DecidableEq Srp] in
def srpGcFinalize (s : Srps Srp P) : Srps Srp P :=
  let (refs, last) := refcntRele s.refcnt
  let s := { s with refcnt := refs }
  if last then s.destroy none else s

end Unics
