import Unics.Kern.Pclock
import Unics.Lib.Words

/-!
# A lock without contention
-/

namespace Unics

open Unics.Lib

/-!
## A lock with nobody in it

The generation of a lock is even when the lock is open. A section of `pc_mprod_enter` adds two to
it, one of `pc_sprod_enter` adds one, so after sections of both kinds the parity is that of the
number of the second kind; at an odd generation consumers and producers wait for a section to end
that is not there. And zero, where every lock starts, is not a generation that `pc_mprod_enter` can
take: its compare and swap answers with the zero it found, which reads as a failure.
-/

/-- The two kinds of section of a producer. -/
inductive PcSection where
  | sprod
  | mprod
  deriving DecidableEq, Repr

/-- A section runs to its end, nobody else about: the generation before and after it. -/
inductive Completes : UInt → PcSection → UInt → Prop
  | sprod (gen : UInt) : Completes gen .sprod (pcSprodLeave (pcSprodEnter gen))
  | mprod {gen cell held : UInt} {turns : Nat} :
      pcMprodEnter turns gen .out = some (cell, held) → Completes gen .mprod (pcMprodLeave held)

/-- Sections run to their ends, one after the other. -/
inductive Completed : UInt → List PcSection → UInt → Prop
  | nil (gen : UInt) : Completed gen [] gen
  | cons {gen gen' gen'' : UInt} {c : PcSection} {cs : List PcSection} : Completes gen c gen' →
      Completed gen' cs gen'' → Completed gen (c :: cs) gen''

/-- The lock is open: its generation is even, and neither a consumer nor a producer that comes now
waits for ever. -/
structure PcOpen (gen : UInt) : Prop where
  even : gen &&& 1 = 0
  consumer : ∃ turns pgen, pcConsEnter turns gen .out = some pgen
  producer : ∃ turns held, pcMprodEnter turns gen .out = some held

/-! ### Waiting -/

/-- At an odd generation a producer loads it again and again. -/
theorem pcMprodEnter_odd {gen : UInt} (hodd : gen &&& 1 = 1) {pc : MprodPc}
    (hpc : pc = .out ∨ pc = .loaded gen) (turns : Nat) : pcMprodEnter turns gen pc = none := by
  have ne : ¬ gen &&& 1 = 0 := by
    rw [hodd]
    decide
  induction turns generalizing pc with
  | zero => rcases hpc with rfl | rfl <;> rfl
  | succ turns ih =>
    rcases hpc with rfl | rfl
    · exact ih (.inr rfl)
    · have turn : mprodTurn gen (.loaded gen) = (gen, .out) := if_neg ne
      rw [pcMprodEnter, turn]
      · exact ih (.inl rfl)
      · exact fun _ => MprodPc.noConfusion

/-- The two turns of a producer that finds an even generation: it takes the lock, and returns unless
the generation was zero. -/
theorem mprodTurn_even {gen : UInt} (heven : gen &&& 1 = 0) :
    mprodTurn gen (.loaded gen) = (gen + 1, if gen ≠ 0 then .inside (gen + 1) else .out) := by
  have swapped : atomicCasUint gen gen (gen + 1) = (gen + 1, gen) := by
    rw [atomicCasUint, if_pos rfl]
  rw [mprodTurn, if_pos heven, swapped]
  dsimp only
  split <;> rfl

/-- `pc_mprod_enter` returns exactly at the even generations other than zero. -/
theorem pcMprodEnter_returns_iff {gen : UInt} {res : UInt × UInt} :
    (∃ turns, pcMprodEnter turns gen .out = some res) ↔
      gen &&& 1 = 0 ∧ gen ≠ 0 ∧ res = (gen + 1, gen + 1) := by
  by_cases heven : gen &&& 1 = 0
  · have turn := mprodTurn_even heven
    constructor
    · rintro ⟨turns, h⟩
      -- a load, then the compare and swap
      obtain _ | _ | turns := turns
      · cases h
      · cases h
      have h : pcMprodEnter turns (mprodTurn gen (.loaded gen)).1
          (mprodTurn gen (.loaded gen)).2 = some res := h
      rw [turn] at h
      by_cases hzero : gen = 0
      · rw [hzero] at h
        rw [if_neg (not_not_intro rfl), pcMprodEnter_odd (by decide) (.inl rfl)] at h
        cases h
      · rw [if_pos hzero, pcMprodEnter] at h
        exact ⟨heven, hzero, (Option.some.inj h).symm⟩
    · rintro ⟨-, hzero, rfl⟩
      refine ⟨2, ?_⟩
      show pcMprodEnter 0 (mprodTurn gen (.loaded gen)).1 (mprodTurn gen (.loaded gen)).2 = _
      rw [turn, if_pos hzero]
      rfl
  · refine iff_of_false ?_ fun h => heven h.1
    rintro ⟨turns, h⟩
    have odd : gen &&& 1 = 1 := by
      rw [and_one_eq_one_iff]
      rw [and_one_eq_zero_iff] at heven
      omega
    rw [pcMprodEnter_odd odd (.inl rfl)] at h
    cases h

/-- A consumer that finds an even generation enters with it. -/
theorem pcConsEnter_even {gen : UInt} (heven : gen &&& 1 = 0) :
    pcConsEnter 2 gen .out = some gen := by
  have first : consTurn gen .out = (.first gen, none) := if_neg (not_not_intro heven)
  have second : consTurn gen (.first gen) = (.entered gen, none) := if_pos ⟨rfl, heven⟩
  rw [pcConsEnter, first, pcConsEnter, second]
  · rfl
  · exact fun _ => ConsPc.noConfusion
  · exact fun _ => ConsPc.noConfusion

/-- The lock is open at the even generations other than zero. -/
theorem pcOpen_iff {gen : UInt} : PcOpen gen ↔ gen &&& 1 = 0 ∧ gen ≠ 0 := by
  constructor
  · intro h
    obtain ⟨turns, held, hres⟩ := h.producer
    exact ⟨h.even, (pcMprodEnter_returns_iff.mp ⟨turns, hres⟩).2.1⟩
  · intro h
    obtain ⟨turns, hres⟩ := pcMprodEnter_returns_iff.mpr ⟨h.1, h.2, rfl⟩
    exact ⟨h.1, ⟨2, gen, pcConsEnter_even h.1⟩, turns, _, hres⟩

/-! ### Sections -/

/-- What a section adds to the generation. -/
def PcSection.added : PcSection → Nat
  | .sprod => 1
  | .mprod => 2

/-- What the sections add to the generation. -/
def addedBy (sections : List PcSection) : Nat := (sections.map PcSection.added).sum

theorem Completes.gen {gen gen' : UInt} {c : PcSection} (h : Completes gen c gen') :
    gen' = gen + BitVec.ofNat 32 c.added := by
  cases h with
  | sprod => rfl
  | mprod h =>
    obtain ⟨-, -, heq⟩ := pcMprodEnter_returns_iff.mp ⟨_, h⟩
    obtain ⟨-, rfl⟩ := Prod.mk.inj heq
    show gen + 1 + 1 = gen + 2
    rw [BitVec.add_assoc]
    rfl

theorem Completed.gen {gen gen' : UInt} {sections : List PcSection}
    (h : Completed gen sections gen') : gen' = gen + BitVec.ofNat 32 (addedBy sections) := by
  induction h with
  | nil => exact (BitVec.add_zero _).symm
  | cons hc _ ih =>
    rw [ih, hc.gen, BitVec.add_assoc, ← BitVec.ofNat_add]
    rfl

/-- Sections of the second kind add an even number. -/
theorem addedBy_parity (sections : List PcSection) :
    addedBy sections % 2 = sections.count .sprod % 2 := by
  induction sections with
  | nil => rfl
  | cons c cs ih =>
    have sum : addedBy (c :: cs) = c.added + addedBy cs := List.sum_cons
    rw [sum]
    cases c with
    | sprod =>
      rw [List.count_cons_self, Nat.add_mod, ih]
      show (1 + cs.count .sprod % 2) % 2 = _
      omega
    | mprod =>
      rw [List.count_cons_of_ne (by decide), Nat.add_mod, ih]
      show (0 + cs.count .sprod % 2) % 2 = _
      omega

/-- After sections that all ran to their ends, the lock is open exactly when the sections of
`pc_sprod_enter` were even in number and the sections have not added a multiple of 2 ^ 32. -/
theorem quiescent_open_iff {sections : List PcSection} {gen : UInt}
    (h : Completed pcLockInit sections gen) :
    PcOpen gen ↔ sections.count .sprod % 2 = 0 ∧ addedBy sections % 2 ^ 32 ≠ 0 := by
  have value : gen.toNat = addedBy sections % 2 ^ 32 := by
    rw [h.gen]
    show (0#32 + BitVec.ofNat 32 (addedBy sections)).toNat = _
    rw [BitVec.zero_add, BitVec.toNat_ofNat]
  have parity := addedBy_parity sections
  have zero : gen ≠ 0 ↔ addedBy sections % 2 ^ 32 ≠ 0 := by
    rw [← value]
    exact not_congr BitVec.toNat_inj.symm
  rw [pcOpen_iff, and_one_eq_zero_iff, zero, value]
  omega

/-- Two sections of a single producer, and one of `pc_mprod_enter` after them. -/
theorem quiescent_open_three :
    PcOpen 4 ↔ [PcSection.sprod, .sprod, .mprod].count .sprod % 2 = 0 ∧
      addedBy [.sprod, .sprod, .mprod] % 2 ^ 32 ≠ 0 :=
  quiescent_open_iff (.cons (.sprod 0) (.cons (.sprod 1)
    (.cons (@Completes.mprod 2 3 3 2 (by decide)) (.nil 4))))

/-- One section of a single producer leaves the generation odd. -/
theorem quiescent_not_open :
    Completed pcLockInit [.sprod] 1 ∧ ¬ ((1 : UInt) &&& 1 = 0) ∧
      ∀ turns, pcMprodEnter turns 1 .out = none :=
  ⟨.cons (.sprod 0) (.nil 1), by decide, pcMprodEnter_odd (by decide) (.inl rfl)⟩

/-!
## A producer by itself

With nobody else about, `pc_mprod_enter` takes the lock at its first attempt, and reads off the
generation it found whether it did. Zero reads as a failure, and the lock is then odd for good. So
the only even generation that a producer cannot enter at is zero, where `pc_lock_init` starts.
-/

/-- `pc_mprod_enter` returns, with the next generation, which it leaves in the lock. -/
def TakesLock (gen : UInt) : Prop :=
  ∃ turns, pcMprodEnter turns gen .out = some (gen + 1, gen + 1)

/-- So many sections of `pc_mprod_enter` and `pc_mprod_leave`, one after the other, run to their
ends. -/
def PairsEnd (gen : UInt) (pairs : Nat) : Prop :=
  ∃ after, Completed gen (List.replicate pairs .mprod) after

section Even

variable {gen : UInt}

theorem takesLock_iff (heven : gen &&& 1 = 0) : TakesLock gen ↔ gen ≠ 0 :=
  pcMprodEnter_returns_iff.trans ⟨fun h => h.2.1, fun h => ⟨heven, h, rfl⟩⟩

theorem even_add_two (heven : gen &&& 1 = 0) : (gen + 2) &&& 1 = 0 := by
  rw [and_one_eq_zero_iff] at heven ⊢
  bv_omega

theorem completes_mprod_iff (heven : gen &&& 1 = 0) {after : UInt} :
    Completes gen .mprod after ↔ gen ≠ 0 ∧ after = gen + 2 := by
  constructor
  · intro h
    refine ⟨?_, h.gen⟩
    cases h with
    | mprod henter => exact (pcMprodEnter_returns_iff.mp ⟨_, henter⟩).2.1
  · rintro ⟨hzero, rfl⟩
    obtain ⟨turns, henter⟩ := (takesLock_iff heven).mpr hzero
    have two : gen + 2 = pcMprodLeave (gen + 1) := by
      rw [pcMprodLeave, BitVec.add_assoc]
      rfl
    rw [two]
    exact .mprod henter

theorem pairsEnd_succ (heven : gen &&& 1 = 0) (pairs : Nat) :
    PairsEnd gen (pairs + 1) ↔ gen ≠ 0 ∧ PairsEnd (gen + 2) pairs := by
  constructor
  · rintro ⟨after, h⟩
    rw [List.replicate_succ] at h
    cases h with
    | cons first rest =>
      obtain ⟨hzero, rfl⟩ := (completes_mprod_iff heven).mp first
      exact ⟨hzero, after, rest⟩
  · rintro ⟨hzero, after, rest⟩
    exact ⟨after, .cons ((completes_mprod_iff heven).mpr ⟨hzero, rfl⟩) rest⟩

theorem pairsEnd_iff (heven : gen &&& 1 = 0) (pairs : Nat) :
    PairsEnd gen pairs ↔ ∀ k < pairs, gen + BitVec.ofNat 32 (2 * k) ≠ 0 := by
  induction pairs generalizing gen with
  | zero => exact iff_of_true ⟨gen, .nil gen⟩ fun k hk => absurd hk (Nat.not_lt_zero k)
  | succ pairs ih =>
    have shift (k : Nat) :
        gen + BitVec.ofNat 32 (2 * (k + 1)) = gen + 2 + BitVec.ofNat 32 (2 * k) := by
      rw [Nat.mul_succ, Nat.add_comm, BitVec.ofNat_add, BitVec.add_assoc]
      rfl
    rw [pairsEnd_succ heven, ih (even_add_two heven), Nat.forall_lt_succ_left]
    simp only [shift]
    rw [Nat.mul_zero, BitVec.add_zero]

/-- At an even generation a producer gets the lock exactly when it is not zero, and so many sections
run to their ends exactly when none of them starts at zero. From `pc_lock_init` not one does. -/
theorem mprodEnter_uncontended_iff (heven : gen &&& 1 = 0) :
    (TakesLock gen ↔ gen ≠ 0) ∧
      (∀ pairs, PairsEnd gen pairs ↔ ∀ k < pairs, gen + BitVec.ofNat 32 (2 * k) ≠ 0) ∧
      ∀ pairs, PairsEnd pcLockInit pairs ↔ pairs = 0 := by
  refine ⟨takesLock_iff heven, pairsEnd_iff heven, fun pairs => ?_⟩
  rw [pairsEnd_iff (by decide)]
  constructor
  · intro h
    by_contra hpairs
    exact h 0 (Nat.pos_of_ne_zero hpairs) rfl
  · rintro rfl k hk
    exact absurd hk (Nat.not_lt_zero k)

end Even

/-- At generation two. -/
theorem mprodEnter_uncontended_two :
    (TakesLock 2 ↔ (2 : UInt) ≠ 0) ∧
      (∀ pairs, PairsEnd 2 pairs ↔ ∀ k < pairs, (2 : UInt) + BitVec.ofNat 32 (2 * k) ≠ 0) ∧
      ∀ pairs, PairsEnd pcLockInit pairs ↔ pairs = 0 :=
  mprodEnter_uncontended_iff (by decide)

/-- In a lock that nobody has used, a producer waits for itself. -/
theorem mprodEnter_fails :
    pcLockInit &&& 1 = 0 ∧ ¬ TakesLock pcLockInit ∧ ¬ PairsEnd pcLockInit 1 := by
  refine ⟨by decide, fun h => (takesLock_iff (by decide)).mp h rfl, fun h => ?_⟩
  exact (pairsEnd_iff (by decide) 1).mp h 0 Nat.zero_lt_one rfl

end Unics
