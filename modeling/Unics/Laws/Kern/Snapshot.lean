import Unics.Kern.Pclock
import Unics.Lib.Run

/-!
# Snapshots of a single producer

A consumer compares the generation before and after its reads. The generation goes up when a section
ends, so a write in a section that has ended by the second load is noticed. `pc_sprod_enter` does
not change it, so a write in a section that is still open is not. Consumers therefore see consistent
data exactly when none of them leaves while the producer is in such a section: `snapshot_iff`.

The history of an attempt is carried along: whether the producer has written since the consumer
entered, whether it has in the section that is open now, and how many sections have ended.
-/

namespace Unics

open Unics.Lib

variable {Tid : Type}

/-- What has happened since a consumer's `pc_cons_enter`. -/
structure Attempt where
  /-- The producer has written. -/
  written : Bool
  /-- The producer has written in the section that is open. -/
  openWrite : Bool
  /-- The number of sections that have ended. -/
  ended : Nat

/-- The lock, its producer and its consumers, with the history of each attempt. -/
structure PcTrace (Tid : Type) where
  gen : UInt
  producer : SprodPc
  consumer : Tid → ConsPc
  attempt : Tid → Attempt

/-- A step: of the producer, or a turn of a consumer. -/
inductive PcEvent (Tid : Type) where
  | enter
  | write
  | leave
  | cons (t : Tid)

/-- One step. The producer enters when it is outside, and writes and leaves when it is inside; a
step that is not its turn changes nothing. -/
def pcStep [DecidableEq Tid] (s : PcTrace Tid) : PcEvent Tid → PcTrace Tid
  | .enter =>
    match s.producer with
    -- `pc_sprod_enter` returns the generation
    | .out => { s with producer := .entered s.gen }
    | .entered _ => s
  | .write =>
    match s.producer with
    | .out => s
    | .entered _ =>
      { s with attempt := fun t => { s.attempt t with written := true, openWrite := true } }
  | .leave =>
    match s.producer with
    | .out => s
    -- `pc_sprod_leave`
    | .entered gen =>
      { s with
        gen := gen + 1
        producer := .out
        attempt := fun t =>
          { s.attempt t with openWrite := false, ended := (s.attempt t).ended + 1 } }
  | .cons t =>
    let pc := (consTurn s.gen (s.consumer t)).1
    { s with
      consumer := Function.update s.consumer t pc
      attempt :=
        match pc with
        -- `pc_cons_enter` returns
        | .entered _ =>
          Function.update s.attempt t { written := false, openWrite := false, ended := 0 }
        | _ => s.attempt }

/-- A lock with nobody in it. -/
def pcStart (gen : UInt) : PcTrace Tid :=
  { gen
    producer := .out
    consumer := fun _ => .out
    attempt := fun _ => { written := false, openWrite := false, ended := 0 } }

/-- A consumer whose `pc_cons_leave` returns 0 had no write since its `pc_cons_enter`. -/
def Consistent (s : PcTrace Tid) : PcEvent Tid → Prop
  | .cons t => (consTurn s.gen (s.consumer t)).2 = some 0 → (s.attempt t).written = false
  | _ => True

/-- Fewer than 2^31 sections have ended when a consumer leaves. -/
def FewSections (s : PcTrace Tid) : PcEvent Tid → Prop
  | .cons t => ∀ pgen, s.consumer t = .entered pgen → (s.attempt t).ended < 2 ^ 31
  | _ => True

/-- A consumer that leaves before any section has ended since it entered does not leave a section
open in which the producer has written since. -/
def LeavesNoOpenWrite (s : PcTrace Tid) : PcEvent Tid → Prop
  | .cons t => ∀ pgen, s.consumer t = .entered pgen → (s.attempt t).ended = 0 →
      (s.attempt t).openWrite = false
  | _ => True

/-- The generation counts the sections that end, and until one does, every write is one of the open
section. -/
structure PcInv (s : PcTrace Tid) : Prop where
  producer : ∀ gen, s.producer = .entered gen → gen = s.gen
  counts : ∀ t pgen, s.consumer t = .entered pgen →
    s.gen = pgen + BitVec.ofNat 32 (s.attempt t).ended
  writes : ∀ t, (s.attempt t).ended = 0 → (s.attempt t).written = (s.attempt t).openWrite

/-- A consumer's turn ends `pc_cons_leave` with 0 exactly when the generation is the one it had. -/
theorem consTurn_leave {cell : UInt} {pc : ConsPc} :
    (consTurn cell pc).2 = some 0 ↔ pc = .entered cell := by
  cases pc with
  | out | first =>
    simp only [consTurn]
    split <;> simp only [reduceCtorEq]
  | entered pgen =>
    rw [consTurn, ConsPc.entered.injEq]
    split
    · next h => exact iff_of_false (fun h1 => Nat.one_ne_zero (Option.some.inj h1)) (Ne.symm h)
    · next h => exact iff_of_true rfl (not_not.mp h).symm

/-- A consumer's turn that ends `pc_cons_enter` stores the generation. -/
theorem consTurn_entered {cell pgen : UInt} {pc : ConsPc}
    (h : (consTurn cell pc).1 = .entered pgen) : pgen = cell := by
  unfold consTurn at h
  split at h <;> split at h
  all_goals first
    | exact ConsPc.noConfusion h
    | exact (ConsPc.entered.inj h).symm

/-- Within the bound on sections, the generation is unchanged exactly when no section has ended. -/
theorem PcInv.unchanged_iff {s : PcTrace Tid} (h : PcInv s) {t : Tid} {pgen : UInt}
    (ht : s.consumer t = .entered pgen) (hfew : (s.attempt t).ended < 2 ^ 31) :
    pgen = s.gen ↔ (s.attempt t).ended = 0 := by
  have counts := h.counts t pgen ht
  constructor
  · intro heq
    have zero : BitVec.ofNat 32 (s.attempt t).ended = 0 := by
      generalize BitVec.ofNat 32 (s.attempt t).ended = n at counts ⊢
      bv_omega
    have := congrArg BitVec.toNat zero
    rw [BitVec.toNat_ofNat, Nat.mod_eq_of_lt (by omega)] at this
    exact this
  · intro h0
    rw [counts, h0]
    exact (BitVec.add_zero pgen).symm

/-- A consumer's turn is consistent exactly when it leaves no open write. -/
theorem PcInv.consistent_iff {s : PcTrace Tid} (h : PcInv s) (e : PcEvent Tid)
    (hfew : FewSections s e) : Consistent s e ↔ LeavesNoOpenWrite s e := by
  cases e with
  | cons t =>
    rw [Consistent, consTurn_leave]
    constructor
    · intro hc pgen ht h0
      have same := (h.unchanged_iff ht (hfew pgen ht)).mpr h0
      rw [← h.writes t h0]
      exact hc (same ▸ ht)
    · intro hl ht
      have h0 := (h.unchanged_iff ht (hfew _ ht)).mp rfl
      rw [h.writes t h0]
      exact hl _ ht h0
  | _ => exact Iff.rfl

variable [DecidableEq Tid]

/-- A consumer's turn that does not end `pc_cons_enter` leaves every attempt as it is. -/
theorem PcInv.cons_out {s : PcTrace Tid} (h : PcInv s) {t : Tid} {pc : ConsPc}
    (hpc : ∀ pgen, pc ≠ .entered pgen) :
    PcInv { s with consumer := Function.update s.consumer t pc } := by
  refine ⟨h.producer, fun u pgen hu => ?_, h.writes⟩
  by_cases hut : u = t
  · subst hut
    exact absurd ((Function.update_self u pc s.consumer).symm.trans hu) (hpc pgen)
  · exact h.counts u pgen ((Function.update_of_ne hut pc s.consumer).symm.trans hu)

theorem PcInv.step {s : PcTrace Tid} (h : PcInv s) (e : PcEvent Tid) : PcInv (pcStep s e) := by
  cases e with
  | enter =>
    cases hp : s.producer with
    | out =>
      simp only [pcStep, hp]
      exact ⟨fun gen hgen => (SprodPc.entered.inj hgen).symm, h.counts, h.writes⟩
    | entered =>
      simp only [pcStep, hp]
      exact h
  | write =>
    cases hp : s.producer with
    | out =>
      simp only [pcStep, hp]
      exact h
    | entered gen =>
      simp only [pcStep, hp]
      exact ⟨fun gen' hgen => h.producer gen' (hp.trans hgen), h.counts, fun _ _ => rfl⟩
  | leave =>
    cases hp : s.producer with
    | out =>
      simp only [pcStep, hp]
      exact h
    | entered gen =>
      simp only [pcStep, hp]
      refine ⟨fun _ => SprodPc.noConfusion, fun t pgen ht => ?_, fun _ h0 => ?_⟩
      · have := h.counts t pgen ht
        show gen + 1 = pgen + BitVec.ofNat 32 ((s.attempt t).ended + 1)
        rw [h.producer gen hp, this, BitVec.ofNat_add, BitVec.add_assoc]
        rfl
      · exact absurd h0 (Nat.succ_ne_zero _)
  | cons t =>
    cases hpc : (consTurn s.gen (s.consumer t)).1 with
    | out =>
      simp only [pcStep, hpc]
      exact h.cons_out fun _ => ConsPc.noConfusion
    | first =>
      simp only [pcStep, hpc]
      exact h.cons_out fun _ => ConsPc.noConfusion
    | entered pgen =>
      simp only [pcStep, hpc]
      -- the attempt starts now, with the generation of now
      refine ⟨h.producer, fun u pgen' hu => ?_, fun u h0 => ?_⟩
      · dsimp only at hu ⊢
        by_cases hut : u = t
        · subst hut
          rw [Function.update_self] at hu ⊢
          rw [← ConsPc.entered.inj hu, consTurn_entered hpc]
          exact (BitVec.add_zero _).symm
        · rw [Function.update_of_ne hut] at hu ⊢
          exact h.counts u pgen' hu
      · dsimp only at h0 ⊢
        by_cases hut : u = t
        · subst hut
          rw [Function.update_self]
        · rw [Function.update_of_ne hut] at h0 ⊢
          exact h.writes u h0

/-! ## Runs -/

/-- In every run, for any number of consumers, with fewer than 2^31 sections in an attempt: every
`pc_cons_leave` that returns 0 ends an attempt without a write, exactly when no consumer leaves,
before a section has ended, while a section is open in which the producer has written since it
entered. -/
theorem snapshot_iff {gen : UInt} {events : List (PcEvent Tid)}
    (hfew : EveryStep pcStep FewSections (pcStart gen) events) :
    EveryStep pcStep Consistent (pcStart gen) events ↔
      EveryStep pcStep LeavesNoOpenWrite (pcStart gen) events :=
  everyStep_iff_within (I := PcInv) (fun _ e h _ _ => h.step e)
    (fun _ e h hfew => h.consistent_iff e hfew)
    ⟨fun _ => SprodPc.noConfusion, fun _ _ => ConsPc.noConfusion, fun _ _ => rfl⟩ hfew

/-- A section before an attempt and one after it. -/
theorem snapshot_between :
    EveryStep pcStep Consistent (pcStart 1 : PcTrace Unit)
      [.enter, .write, .leave, .cons (), .cons (), .cons (), .enter, .write, .leave] := by
  refine (snapshot_iff ?_).mpr ?_
  · simp [FewSections, pcStep, pcStart, consTurn]
  · simp [LeavesNoOpenWrite, pcStep, pcStart, consTurn]

/-- A section begins and writes between a consumer's enter and leave: `pc_cons_leave` returns 0. -/
theorem snapshot_fails :
    EveryStep pcStep FewSections (pcStart 0 : PcTrace Unit)
        [.cons (), .cons (), .enter, .write, .cons ()] ∧
      ¬ EveryStep pcStep Consistent (pcStart 0 : PcTrace Unit)
        [.cons (), .cons (), .enter, .write, .cons ()] := by
  refine ⟨by simp [FewSections, pcStep, pcStart, consTurn], fun h => ?_⟩
  have last := everyStep_iff_prefix.mp h [.cons (), .cons (), .enter, .write] _ [] rfl
  exact absurd (last (by decide)) (by decide)

end Unics
