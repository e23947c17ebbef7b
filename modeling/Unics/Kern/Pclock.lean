import Mathlib.Logic.Function.Basic
import Unics.Types

/-!
# pc_lock

`kern/pclock.c`. Loads, stores and compare-and-swaps of `pcl_gen` are the atomic steps, so a
function is a control state for each point between two of them, and a turn that runs it from one
point to the next. Any number of threads take turns in any order.
-/

namespace Unics

/-- `unsigned int`. -/
abbrev UInt := BitVec 32

/-- `_atomic_cas_uint`: what the cell holds afterwards, and the value returned, which is what the
cell held before. -/
def atomicCasUint (p e n : UInt) : UInt × UInt := (if p = e then n else p, p)

/-! ## Multiple producers -/

/-- A producer outside, in `pc_mprod_enter` with the generation it loaded, or inside with the value
that `pc_mprod_enter` returned. -/
inductive MprodPc where
  | out
  | loaded (gen : UInt)
  | inside (gen : UInt)
  deriving DecidableEq, Repr

/-- A producer's turn: what `pcl_gen` holds afterwards, and where the producer is. -/
def mprodTurn (cell : UInt) : MprodPc → UInt × MprodPc
  | .out => (cell, .loaded cell)
  | .loaded gen =>
    if gen &&& 1 = 0 then
      let (cell, returned) := atomicCasUint cell gen (gen + 1)
      -- the value returned is taken as a flag
      if returned ≠ 0 then (cell, .inside (gen + 1)) else (cell, .out)
    else (cell, .out)
  -- `pc_mprod_leave`
  | .inside gen => (gen + 1, .out)

/-- A lock and its producers. -/
structure Mprods (Tid : Type) where
  gen : UInt
  pc : Tid → MprodPc

/-- A turn of thread `t`. -/
def mprodStep {Tid : Type} [DecidableEq Tid] (s : Mprods Tid) (t : Tid) : Mprods Tid :=
  let (gen, pc) := mprodTurn s.gen (s.pc t)
  { gen, pc := Function.update s.pc t pc }

/-! ## One producer and consumers -/

/-- The producer, outside or in a section with the value that `pc_sprod_enter` returned. -/
inductive SprodPc where
  | out
  | entered (gen : UInt)
  deriving DecidableEq, Repr

/-- A consumer outside, in `pc_cons_enter` with `gen1`, or between `pc_cons_enter` and
`pc_cons_leave` with `*pgen`. -/
inductive ConsPc where
  | out
  | first (gen1 : UInt)
  | entered (pgen : UInt)
  deriving DecidableEq, Repr

/-- A consumer's turn, a load of `pcl_gen`: where the consumer is afterwards, and the value that
`pc_cons_leave` returns when the turn ends it. -/
def consTurn (cell : UInt) : ConsPc → ConsPc × Option Nat
  | .out => if cell &&& 1 ≠ 0 then (.out, none) else (.first cell, none)
  | .first gen1 =>
    if gen1 = cell ∧ cell &&& 1 = 0 then (.entered cell, none) else (.out, none)
  | .entered pgen => if cell ≠ pgen then (.out, some 1) else (.out, some 0)

/-! ## Nobody else about

What a call comes to when no other thread takes a turn. The two loops may turn for ever, so they
take a bound on the turns. -/

/-- `pcl_gen` after `pc_lock_init`. -/
def pcLockInit : UInt := 0

def pcSprodEnter (cell : UInt) : UInt := cell

/-- `pcl_gen` after `pc_sprod_leave`. -/
def pcSprodLeave (gen : UInt) : UInt := gen + 1

/-- `pc_mprod_enter` from a point of it on: `pcl_gen` and the value returned. -/
def pcMprodEnter : Nat → UInt → MprodPc → Option (UInt × UInt)
  | _, cell, .inside gen => some (cell, gen)
  | 0, _, _ => none
  | turns + 1, cell, pc => pcMprodEnter turns (mprodTurn cell pc).1 (mprodTurn cell pc).2

/-- `pcl_gen` after `pc_mprod_leave`. -/
def pcMprodLeave (gen : UInt) : UInt := gen + 1

/-- `pc_cons_enter` from a point of it on: `*pgen`. -/
def pcConsEnter : Nat → UInt → ConsPc → Option UInt
  | _, _, .entered pgen => some pgen
  | 0, _, _ => none
  | turns + 1, cell, pc => pcConsEnter turns cell (consTurn cell pc).1

end Unics
