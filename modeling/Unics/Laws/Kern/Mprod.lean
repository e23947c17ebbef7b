import Unics.Kern.Pclock
import Unics.Lib.Run
import Unics.Lib.Words

/-!
# Exclusion of multiple producers

A producer inside holds the lock by an odd generation: as long as the cell holds it, no compare and
swap of another producer succeeds. But `pc_mprod_enter` decides by the value that the compare and
swap returns, and a failed one returns the value it found, so it lets its producer in unless that
value is zero.
-/

namespace Unics

open Unics.Lib

variable {Tid : Type}

/-- At most one producer is inside. -/
def Exclusion (s : Mprods Tid) : Prop :=
  ∀ t u g h, s.pc t = .inside g → s.pc u = .inside h → t = u

/-- A compare and swap finds the generation that was loaded, or zero. -/
def CasFinds (s : Mprods Tid) (t : Tid) : Prop :=
  match s.pc t with
  | .loaded gen => gen &&& 1 = 0 → s.gen = gen ∨ s.gen = 0
  | _ => True

/-- Whoever is inside is alone, and the cell holds the odd generation it was given. -/
structure MprodSafe (s : Mprods Tid) : Prop where
  exclusion : Exclusion s
  held : ∀ t g, s.pc t = .inside g → s.gen = g ∧ g &&& 1 = 1

variable [DecidableEq Tid]

theorem mprodStep_pc (s : Mprods Tid) (t u : Tid) :
    (mprodStep s t).pc u = if u = t then (mprodTurn s.gen (s.pc t)).2 else s.pc u :=
  Function.update_apply ..

/-- A turn that leaves the cell alone and its producer outside. -/
theorem MprodSafe.outside {s : Mprods Tid} (h : MprodSafe s) {t : Tid} {pc : MprodPc}
    (hturn : mprodTurn s.gen (s.pc t) = (s.gen, pc)) (hout : ∀ g, pc ≠ .inside g) :
    MprodSafe (mprodStep s t) := by
  have old : ∀ u g, (mprodStep s t).pc u = .inside g → s.pc u = .inside g := by
    intro u g hu
    rw [mprodStep_pc, hturn] at hu
    split at hu
    · exact absurd hu (hout g)
    · exact hu
  have gen : (mprodStep s t).gen = s.gen := congrArg Prod.fst hturn
  refine ⟨fun u v g g' hu hv => h.exclusion u v g g' (old u g hu) (old v g' hv), fun u g hu => ?_⟩
  rw [gen]
  exact h.held u g (old u g hu)

/-- A turn that lets its producer in, or lets it out, when nobody else is inside. -/
theorem MprodSafe.alone {s : Mprods Tid} {t : Tid} {gen : UInt} {pc : MprodPc}
    (hturn : mprodTurn s.gen (s.pc t) = (gen, pc)) (hothers : ∀ u g, u ≠ t → s.pc u ≠ .inside g)
    (hheld : ∀ g, pc = .inside g → gen = g ∧ g &&& 1 = 1) : MprodSafe (mprodStep s t) := by
  have only : ∀ u g, (mprodStep s t).pc u = .inside g → u = t ∧ pc = .inside g := by
    intro u g hu
    rw [mprodStep_pc, hturn] at hu
    split at hu
    · next heq => exact ⟨heq, hu⟩
    · next hne => exact absurd hu (hothers u g hne)
  have cell : (mprodStep s t).gen = gen := congrArg Prod.fst hturn
  refine ⟨fun u v g g' hu hv => (only u g hu).1.trans (only v g' hv).1.symm, fun u g hu => ?_⟩
  rw [cell]
  exact hheld g (only u g hu).2

/-- A turn whose compare and swap, if it makes one, finds what was loaded or zero. -/
theorem MprodSafe.step {s : Mprods Tid} (h : MprodSafe s) {t : Tid} (hfinds : CasFinds s t) :
    MprodSafe (mprodStep s t) := by
  cases hpc : s.pc t with
  | out =>
    have turn : mprodTurn s.gen (s.pc t) = (s.gen, .loaded s.gen) := by rw [hpc]; rfl
    exact h.outside turn fun _ => MprodPc.noConfusion
  | loaded gen =>
    by_cases heven : gen &&& 1 = 0
    · by_cases hcell : s.gen = gen
      · -- the swap takes place; the cell was even, so nobody is inside
        have nobody : ∀ u g, s.pc u ≠ .inside g := by
          intro u g hu
          obtain ⟨hg, hodd⟩ := h.held u g hu
          rw [← hg, hcell, heven] at hodd
          exact absurd hodd (by decide)
        have turn : mprodTurn s.gen (s.pc t) =
            (gen + 1, if gen ≠ 0 then .inside (gen + 1) else .out) := by
          have swapped : atomicCasUint s.gen gen (gen + 1) = (gen + 1, gen) := by
            rw [atomicCasUint, if_pos hcell, hcell]
          rw [hpc, mprodTurn, if_pos heven, swapped]
          dsimp only
          split <;> rfl
        refine .alone turn (fun u g _ => nobody u g) fun g hg => ?_
        split at hg
        · obtain rfl := MprodPc.inside.inj hg
          exact ⟨rfl, odd_succ_of_even heven⟩
        · exact MprodPc.noConfusion hg
      · -- the swap fails on a cell that is zero, and zero is returned
        rw [CasFinds, hpc] at hfinds
        have zero : s.gen = 0 := (hfinds heven).resolve_left hcell
        have failed : atomicCasUint s.gen gen (gen + 1) = (s.gen, 0) := by
          rw [atomicCasUint, if_neg hcell, ← zero]
        have turn : mprodTurn s.gen (s.pc t) = (s.gen, .out) := by
          rw [hpc, mprodTurn, if_pos heven, failed]
          rfl
        exact h.outside turn fun _ => MprodPc.noConfusion
    · have turn : mprodTurn s.gen (s.pc t) = (s.gen, .out) := by
        rw [hpc]
        exact if_neg heven
      exact h.outside turn fun _ => MprodPc.noConfusion
  | inside gen =>
    have turn : mprodTurn s.gen (s.pc t) = (gen + 1, .out) := by rw [hpc]; rfl
    refine .alone turn (fun u g hne hu => hne ?_) fun _ => MprodPc.noConfusion
    exact h.exclusion u t g gen hu hpc

/-! ## Runs -/

/-- A lock with generation `gen` and nobody in it. -/
def mprodStart (gen : UInt) : Mprods Tid := { gen, pc := fun _ => .out }

/-- From any generation, for any number of producers and any order of turns: as long as every
compare and swap finds the generation that its producer loaded, or zero, at most one producer is
inside. -/
theorem mprod_exclusion {gen : UInt} {turns : List Tid}
    (hfinds : EveryStep mprodStep CasFinds (mprodStart gen) turns) :
    EveryState mprodStep Exclusion (mprodStart gen) turns :=
  hfinds.everyState (I := MprodSafe) (fun _ _ h hfinds => h.step hfinds) (fun _ h => h.exclusion)
    ⟨fun _ _ _ _ hu => MprodPc.noConfusion hu, fun _ _ hu => MprodPc.noConfusion hu⟩

/-- One producer after the other. -/
theorem mprod_exclusion_sequential :
    EveryState mprodStep Exclusion (mprodStart 2)
      [false, false, false, true, true, true] :=
  mprod_exclusion
    ⟨trivial, fun _ => .inl rfl, trivial, trivial, fun _ => .inl rfl, trivial, trivial⟩

/-- Two producers load generation 2; both compare and swaps return a value that is not zero. -/
theorem mprod_exclusion_fails :
    ¬ EveryState mprodStep Exclusion (mprodStart 2) [false, true, false, true] := by
  intro h
  have last := everyState_iff_prefix.mp h _ [] (List.append_nil _).symm
  exact absurd (last false true 3 3 (by decide) (by decide)) Bool.noConfusion

end Unics
