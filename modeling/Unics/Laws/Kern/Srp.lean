import Unics.Kern.Srp
import Unics.Lib.Contents
import Unics.Lib.Run

/-!
# Shared references and their destructor

The count of a `srp_gc` is kept right: it is the number of SRPs that hold a pointer, and one more
until `srp_gc_finalize`. But the destructor is tied to the count. A displaced pointer is destroyed
only when its reference was the last one of the whole `srp_gc`, which no pointer displaced before
`srp_gc_finalize` has, and after it only the last.
-/

namespace Unics

open Unics.Lib

variable {Srp P : Type}

/-! ## One update -/

/-- The pointer that an effect destroys. -/
def SrpEffect.destroys : SrpEffect P → Option P
  | .dtor _ ptr => ptr
  | .stillHeld _ _ => none

/-- The pointers other than `NULL` that the destructor was called with, the first one first. -/
def Srps.destroyed (s : Srps Srp P) : List P := s.effects.filterMap SrpEffect.destroys

/-- The destructor was called with no pointer that an SRP holds. -/
def Srps.Safe (s : Srps Srp P) : Prop := ∀ srp p, s.ref srp = some p → p ∉ s.destroyed

/-- The count is `base` and the number of SRPs that hold a pointer. -/
def Srps.Counted [Fintype Srp] (base : Nat) (s : Srps Srp P) : Prop :=
  s.refcnt.toNat = base + (occupied s.ref).card

theorem Srps.destroy_destroyed (s : Srps Srp P) (ptr : Option P) :
    (s.destroy ptr).destroyed = s.destroyed ++ ptr.toList := by
  have quiet : (refcntFinalize s.refcnt "srp_gc_finalize").filterMap
      (SrpEffect.destroys (P := P)) = [] := by
    unfold refcntFinalize
    split <;> rfl
  unfold Srps.destroyed Srps.destroy
  rw [List.filterMap_append]
  cases ptr with
  | none =>
    rw [List.filterMap_cons_none (f := SrpEffect.destroys) rfl, quiet]
    rfl
  | some p =>
    rw [List.filterMap_cons_some (f := SrpEffect.destroys) rfl, quiet]
    rfl

section Update

variable [DecidableEq Srp]

/-- The pointer is in the SRP and counted. -/
def Srps.installed (s : Srps Srp P) (srp : Srp) (ptr : Option P) : Srps Srp P :=
  { s with
    ref := Function.update s.ref srp ptr
    refcnt := s.refcnt + BitVec.ofNat 32 ptr.toList.length }

/-- A reference is released, and with the last one `ptr` destroyed. -/
def Srps.released (s : Srps Srp P) (ptr : Option P) : Srps Srp P :=
  let t := { s with refcnt := s.refcnt - 1 }
  if t.refcnt = 0 then t.destroy ptr else t

variable {s : Srps Srp P} {srp : Srp} {ptr : Option P} {p : P}

/-- `srp_update_locked` up to its second condition. -/
theorem srpInstall_eq :
    (if ptr ≠ none then { (srpSwapLocked s srp ptr).2 with
        refcnt := refcntTake (srpSwapLocked s srp ptr).2.refcnt }
      else (srpSwapLocked s srp ptr).2) = s.installed srp ptr := by
  cases ptr with
  | none =>
    rw [if_neg (not_not_intro rfl), Srps.installed]
    show _ = ({ s with ref := _, refcnt := s.refcnt + 0#32 } : Srps Srp P)
    rw [BitVec.add_zero]
    rfl
  | some p =>
    rw [if_pos (Option.some_ne_none p)]
    rfl

theorem srpUpdateLocked_of_none (h : s.ref srp = none) :
    srpUpdateLocked s srp ptr = s.installed srp ptr := by
  have old : (srpSwapLocked s srp ptr).1 = none := h
  unfold srpUpdateLocked
  dsimp only
  rw [srpInstall_eq, old, if_neg (not_not_intro rfl)]

theorem srpUpdateLocked_of_some (h : s.ref srp = some p) :
    srpUpdateLocked s srp ptr = (s.installed srp ptr).released (some p) := by
  have old : (srpSwapLocked s srp ptr).1 = some p := h
  unfold srpUpdateLocked
  dsimp only
  rw [srpInstall_eq, old, if_pos (Option.some_ne_none p)]
  unfold Srps.released refcntRele
  dsimp only
  rw [if_congr (decide_eq_true_iff) rfl rfl]

omit [DecidableEq Srp] in
theorem srpGcFinalize_eq : srpGcFinalize s = s.released none := by
  unfold srpGcFinalize Srps.released refcntRele
  dsimp only
  rw [if_congr (decide_eq_true_iff) rfl rfl]

omit [DecidableEq Srp] in
@[simp] theorem Srps.released_ref (s : Srps Srp P) (ptr : Option P) :
    (s.released ptr).ref = s.ref := by
  unfold Srps.released
  dsimp only
  split <;> rfl

omit [DecidableEq Srp] in
@[simp] theorem Srps.released_refcnt (s : Srps Srp P) (ptr : Option P) :
    (s.released ptr).refcnt = s.refcnt - 1 := by
  unfold Srps.released
  dsimp only
  split <;> rfl

omit [DecidableEq Srp] in
theorem Srps.released_destroyed (s : Srps Srp P) (ptr : Option P) :
    (s.released ptr).destroyed =
      s.destroyed ++ if s.refcnt - 1 = 0 then ptr.toList else [] := by
  unfold Srps.released
  dsimp only
  split
  · exact Srps.destroy_destroyed _ ptr
  · exact (List.append_nil s.destroyed).symm

theorem srpUpdateLocked_ref :
    (srpUpdateLocked s srp ptr).ref = Function.update s.ref srp ptr := by
  cases h : s.ref srp with
  | none => rw [srpUpdateLocked_of_none h]; rfl
  | some p => rw [srpUpdateLocked_of_some h, Srps.released_ref]; rfl

variable [Fintype Srp] {base : Nat}

/-- The SRPs are objects of four bytes each in an address space of 2 ^ 32 bytes. -/
def SrpsFit (Srp : Type) [Fintype Srp] : Prop := 4 * Fintype.card Srp ≤ 2 ^ 32

theorem Srps.Counted.update (h : s.Counted base) (hbase : base ≤ 1) (hfit : SrpsFit Srp) :
    (srpUpdateLocked s srp ptr).Counted base := by
  have trade := card_occupied_update s.ref srp ptr
  have few : (occupied s.ref).card ≤ Fintype.card Srp := Finset.card_le_univ _
  have few' : (occupied (Function.update s.ref srp ptr)).card ≤ Fintype.card Srp :=
    Finset.card_le_univ _
  have one : ptr.toList.length ≤ 1 := by cases ptr <;> simp
  unfold SrpsFit at hfit
  unfold Srps.Counted at h ⊢
  rw [srpUpdateLocked_ref]
  have value : (s.installed srp ptr).refcnt.toNat = s.refcnt.toNat + ptr.toList.length := by
    show (s.refcnt + BitVec.ofNat 32 ptr.toList.length).toNat = _
    rw [BitVec.toNat_add, BitVec.toNat_ofNat]
    omega
  cases hold : s.ref srp with
  | none =>
    rw [hold] at trade
    rw [srpUpdateLocked_of_none hold, value]
    simp only [Option.toList_none, List.length_nil] at trade
    omega
  | some p =>
    rw [hold] at trade
    rw [srpUpdateLocked_of_some hold, Srps.released_refcnt, BitVec.toNat_sub, value]
    simp only [Option.toList_some, List.length_singleton] at trade
    show (2 ^ 32 - 1 + _) % 2 ^ 32 = _
    omega

/-- A pointer is destroyed when, with it gone, the count is zero. -/
theorem Srps.Counted.update_destroyed (h : s.Counted base) (hbase : base ≤ 1)
    (hfit : SrpsFit Srp) :
    (srpUpdateLocked s srp ptr).destroyed = s.destroyed ++
      if base + (occupied (Function.update s.ref srp ptr)).card = 0 then (s.ref srp).toList
      else [] := by
  have after : (srpUpdateLocked s srp ptr).refcnt.toNat =
      base + (occupied (Function.update s.ref srp ptr)).card := by
    rw [← srpUpdateLocked_ref]
    exact h.update hbase hfit
  cases hold : s.ref srp with
  | none =>
    rw [srpUpdateLocked_of_none hold, Option.toList_none, ite_self]
    exact (List.append_nil s.destroyed).symm
  | some p =>
    have zero : (s.installed srp ptr).refcnt - 1 = 0 ↔
        base + (occupied (Function.update s.ref srp ptr)).card = 0 := by
      rw [← after, srpUpdateLocked_of_some hold, Srps.released_refcnt, ← BitVec.toNat_inj]
      rfl
    rw [srpUpdateLocked_of_some hold, Srps.released_destroyed, if_congr zero rfl rfl]
    rfl

omit [DecidableEq Srp] [Fintype Srp] in
theorem srpGcFinalize_ref : (srpGcFinalize s).ref = s.ref := by
  rw [srpGcFinalize_eq, Srps.released_ref]

omit [DecidableEq Srp] [Fintype Srp] in
/-- `NULL` is no pointer. -/
theorem srpGcFinalize_destroyed : (srpGcFinalize s).destroyed = s.destroyed := by
  rw [srpGcFinalize_eq, Srps.released_destroyed, Option.toList_none, ite_self, List.append_nil]

omit [DecidableEq Srp] in
theorem Srps.Counted.finalize (h : s.Counted 1) : (srpGcFinalize s).Counted 0 := by
  unfold Srps.Counted at h ⊢
  rw [srpGcFinalize_ref, srpGcFinalize_eq, Srps.released_refcnt, BitVec.toNat_sub, h]
  show (2 ^ 32 - 1 + _) % 2 ^ 32 = _
  omega

omit [DecidableEq Srp] in
theorem srpGcInit_counted (cookie : Option P) : (srpGcInit cookie : Srps Srp P).Counted 1 := by
  show 1 = 1 + (occupied (fun _ : Srp => (none : Option P))).card
  rw [← card_contents, contents_empty]
  rfl

end Update

/-! ## Runs -/

variable [DecidableEq Srp]

def srpUpdate (s : Srps Srp P) (u : Srp × Option P) : Srps Srp P := srpUpdateLocked s u.1 u.2

/-- The pointers that updates displace from SRPs, in their order. -/
def srpDisplaced (s : Srps Srp P) : List (Srp × Option P) → List P
  | [] => []
  | u :: us => (srpSwapLocked s u.1 u.2).1.toList ++ srpDisplaced (srpUpdate s u) us

theorem srpDisplaced_eq (s : Srps Srp P) (us : List (Srp × Option P)) :
    srpDisplaced s us = displaced s.ref us := by
  induction us generalizing s with
  | nil => rfl
  | cons u us ih =>
    have rest := ih (srpUpdate s u)
    rw [srpUpdate, srpUpdateLocked_ref] at rest
    rw [srpDisplaced, srpUpdate, rest]
    rfl

theorem srpUpdates_ref (s : Srps Srp P) (us : List (Srp × Option P)) :
    (runFrom srpUpdate s us).ref = replaced s.ref us := by
  induction us generalizing s with
  | nil => rfl
  | cons u us ih =>
    rw [runFrom_cons, ih, srpUpdate, srpUpdateLocked_ref]
    rfl

/-- Updates that clear SRPs. -/
def srpClears (cs : List Srp) : List (Srp × Option P) := cs.map fun srp => (srp, none)

variable [Fintype Srp]

/-- Before `srp_gc_finalize` the `srp_gc` has a reference of its own, so the last is not
released. -/
theorem srpUpdates_before (hfit : SrpsFit Srp) {s : Srps Srp P} (h : s.Counted 1)
    (hnone : s.destroyed = []) (us : List (Srp × Option P)) :
    EveryState srpUpdate (fun s => s.Counted 1 ∧ s.destroyed = []) s us := by
  refine EveryStep.everyState (I := fun s => s.Counted 1 ∧ s.destroyed = []) (fun s u h _ => ?_)
    (fun _ h => h) ⟨h, hnone⟩ (everyStep_true srpUpdate s us)
  refine ⟨h.1.update le_rfl hfit, ?_⟩
  rw [srpUpdate, h.1.update_destroyed le_rfl hfit, if_neg (by omega), h.2]
  rfl

omit [Fintype Srp] [DecidableEq Srp] in
/-- Updates that clear place nothing. -/
theorem placed_srpClears (cs : List Srp) : placed (srpClears (P := P) cs) = [] := by
  rw [placed, List.flatMap_eq_nil_iff]
  intro u hu
  obtain ⟨srp, -, rfl⟩ := List.mem_map.mp hu
  rfl

omit [Fintype Srp] in
/-- Once every SRP that holds a pointer is cleared, none does. -/
theorem replaced_srpClears {nodes : Srp → Option P} {cs : List Srp}
    (h : ∀ srp, nodes srp ≠ none → srp ∈ cs) : replaced nodes (srpClears cs) = fun _ => none := by
  induction cs generalizing nodes with
  | nil =>
    funext srp
    by_contra held
    exact List.not_mem_nil (h srp held)
  | cons c cs ih =>
    refine @ih (Function.update nodes c none) fun srp held => ?_
    by_cases hc : srp = c
    · subst hc
      exact absurd (Function.update_self ..) held
    · rw [Function.update_of_ne hc] at held
      exact (List.mem_cons.mp (h srp held)).resolve_left hc

/-- Clearing, as a table. -/
theorem displaced_clears_add (nodes : Srp → Option P) (cs : List Srp) :
    (displaced nodes (srpClears cs) : Multiset P) + contents (replaced nodes (srpClears cs)) =
      contents nodes := by
  rw [displaced_add_contents, placed_srpClears]
  exact zero_add _

/-- After it, a pointer is destroyed when no SRP holds one any more. -/
theorem srpUpdates_after (hfit : SrpsFit Srp) {s : Srps Srp P} (h : s.Counted 0)
    (hlast : s.destroyed ≠ [] → (occupied s.ref).card = 0) (cs : List Srp) :
    EveryState srpUpdate
      (fun s => s.Counted 0 ∧ (s.destroyed ≠ [] → (occupied s.ref).card = 0)) s
      (srpClears cs) := by
  have clears : EveryStep srpUpdate (fun _ u => u.2 = none) s (srpClears cs) :=
    everyStep_of_forall fun u hu => by
      obtain ⟨srp, -, rfl⟩ := List.mem_map.mp hu
      rfl
  refine EveryStep.everyState
    (I := fun s => s.Counted 0 ∧ (s.destroyed ≠ [] → (occupied s.ref).card = 0))
    (fun s u h hu => ⟨h.1.update (Nat.zero_le 1) hfit, fun hd => ?_⟩) (fun _ h => h) ⟨h, hlast⟩
    clears
  have trade := card_occupied_update s.ref u.1 u.2
  rw [hu, Option.toList_none, List.length_nil, Nat.zero_add] at trade
  rw [srpUpdate, srpUpdateLocked_ref, hu]
  by_contra held
  rw [srpUpdate, h.1.update_destroyed (Nat.zero_le 1) hfit, hu, if_neg (by omega),
    List.append_nil] at hd
  have empty := h.2 hd
  omega

/-- Of the pointers that clearing displaces, the last is destroyed. -/
theorem srpClears_destroyed (hfit : SrpsFit Srp) {s : Srps Srp P} (h : s.Counted 0)
    {cs : List Srp} (hclear : contents (replaced s.ref (srpClears cs)) = 0) :
    (runFrom srpUpdate s (srpClears cs)).destroyed =
      s.destroyed ++ (displaced s.ref (srpClears cs)).getLast?.toList := by
  induction cs generalizing s with
  | nil => exact (List.append_nil s.destroyed).symm
  | cons srp cs ih =>
    have counted : (srpUpdate s (srp, none)).Counted 0 := h.update (Nat.zero_le 1) hfit
    have ref : (srpUpdate s (srp, none)).ref = Function.update s.ref srp none :=
      srpUpdateLocked_ref
    have rest := ih counted (by rw [ref]; exact hclear)
    have held : (displaced (Function.update s.ref srp none) (srpClears cs) : Multiset P) =
        contents (Function.update s.ref srp none) := by
      rw [← displaced_clears_add _ cs]
      exact (add_zero _).symm.trans (congrArg _ hclear.symm)
    have out : displaced s.ref (srpClears (srp :: cs)) = (s.ref srp).toList ++
        displaced (Function.update s.ref srp none) (srpClears cs) := rfl
    show (runFrom srpUpdate (srpUpdate s (srp, none)) (srpClears cs)).destroyed = _
    rw [rest, ref, srpUpdate, h.update_destroyed (Nat.zero_le 1) hfit, List.append_assoc, out,
      ← card_contents, ← held, Multiset.coe_card, Nat.zero_add]
    congr 1
    generalize displaced (Function.update s.ref srp none) (srpClears cs) = later
    cases later with
    | nil => cases s.ref srp <;> rfl
    | cons p ps =>
      have some : (p :: ps).length ≠ 0 := Nat.succ_ne_zero _
      rw [if_neg some, List.nil_append,
        List.getLast?_append_of_ne_nil _ (List.cons_ne_nil p ps)]

/-! ## Destroyed once -/

omit [Fintype Srp] in
/-- Before `srp_gc_finalize`. -/
def srpBefore (cookie : Option P) (us : List (Srp × Option P)) : Srps Srp P :=
  runFrom srpUpdate (srpGcInit cookie) us

/-- What is asked of updates of SRPs, `srp_gc_finalize`, and updates that clear SRPs. -/
structure SrpLaw [DecidableEq P] (cookie : Option P) (us : List (Srp × Option P))
    (cs : List Srp) : Prop where
  /-- The count is right. -/
  counted : EveryState srpUpdate (Srps.Counted 1) (srpGcInit cookie) us
  counted_after : EveryState srpUpdate (Srps.Counted 0) (srpGcFinalize (srpBefore cookie us))
    (srpClears cs)
  /-- No pointer still in an SRP is destroyed. -/
  safe : EveryState srpUpdate Srps.Safe (srpGcInit cookie) us
  safe_after : EveryState srpUpdate Srps.Safe (srpGcFinalize (srpBefore cookie us)) (srpClears cs)
  /-- Each pointer displaced is destroyed once. -/
  once : ∀ p ∈ srpDisplaced (srpGcInit cookie) us ++
    srpDisplaced (srpGcFinalize (srpBefore cookie us)) (srpClears cs),
    (runFrom srpUpdate (srpGcFinalize (srpBefore cookie us)) (srpClears cs)).destroyed.count p = 1

omit [Fintype Srp] [DecidableEq Srp] in
/-- One update at most installs a pointer, and none after it touches its SRP. -/
def InstallsOne (us : List (Srp × Option P)) : Prop :=
  us.Pairwise fun u v => u.2 ≠ none → v.2 = none ∧ v.1 ≠ u.1

omit [Fintype Srp] [DecidableEq Srp] in
theorem installsOne_cons {srp : Srp} {p : P} {us : List (Srp × Option P)} :
    InstallsOne ((srp, some p) :: us) ↔ placed us = [] ∧ ∀ v ∈ us, v.1 ≠ srp := by
  unfold InstallsOne
  rw [List.pairwise_cons, placed_eq_nil_iff]
  constructor
  · rintro ⟨h, -⟩
    exact ⟨fun v hv => (h v hv (Option.some_ne_none p)).1,
      fun v hv => (h v hv (Option.some_ne_none p)).2⟩
  · rintro ⟨hnone, hother⟩
    refine ⟨fun v hv _ => ⟨hnone v hv, hother v hv⟩, ?_⟩
    exact List.pairwise_of_forall_mem_list fun u hu v hv h => absurd (hnone u hu) h

omit [Fintype Srp] in
/-- An SRP that holds the only pointer keeps it when it is passed over. -/
theorem displaced_only_eq_nil_iff {srp : Srp} {p : P} {us : List (Srp × Option P)}
    (h : placed us = []) :
    displaced (Function.update (fun _ => none) srp (some p)) us = [] ↔ ∀ v ∈ us, v.1 ≠ srp := by
  rw [displaced_eq_nil_iff h]
  refine forall₂_congr fun v _ => ?_
  rw [Function.update_apply]
  split
  · next here => exact iff_of_false (Option.some_ne_none p) fun hne => hne here
  · next other => exact iff_of_true rfl other

omit [Fintype Srp] in
/-- From empty SRPs, one update at most installs and it is left alone exactly when nothing is
displaced and one pointer at most placed. -/
theorem installsOne_iff (us : List (Srp × Option P)) :
    InstallsOne us ↔ displaced (fun _ => none) us = [] ∧ (placed us).length ≤ 1 := by
  induction us with
  | nil => exact iff_of_true List.Pairwise.nil ⟨rfl, Nat.zero_le 1⟩
  | cons u us ih =>
    obtain ⟨srp, ptr⟩ := u
    have out : displaced (fun _ => none) ((srp, ptr) :: us) =
        displaced (Function.update (fun _ => none) srp ptr) us := rfl
    have into : placed ((srp, ptr) :: us) = ptr.toList ++ placed us := rfl
    rw [out, into, List.length_append]
    cases ptr with
    | none =>
      have same : Function.update (fun _ : Srp => (none : Option P)) srp none = fun _ => none :=
        Function.update_eq_self srp (fun _ => none)
      rw [same, Option.toList_none, List.length_nil, Nat.zero_add, ← ih]
      unfold InstallsOne
      rw [List.pairwise_cons]
      exact and_iff_right fun _ _ h => absurd rfl h
    | some p =>
      have few : 1 + (placed us).length ≤ 1 ↔ placed us = [] := by
        rw [← List.length_eq_zero_iff]
        omega
      rw [installsOne_cons, Option.toList_some, List.length_singleton, few, and_comm]
      exact and_congr_left fun h => (displaced_only_eq_nil_iff h).symm

omit [DecidableEq Srp] in
/-- What was destroyed by the time that nothing is held is not held. -/
theorem Srps.safe_of_last {s : Srps Srp P}
    (h : s.destroyed ≠ [] → (occupied s.ref).card = 0) : s.Safe := by
  intro srp p hp hd
  have empty := h (List.ne_nil_of_mem hd)
  rw [Finset.card_eq_zero] at empty
  have mem : srp ∈ occupied s.ref := mem_occupied.mpr (by rw [hp]; rfl)
  rw [empty] at mem
  exact Finset.notMem_empty srp mem

/-- Once all is cleared, the pointers displaced are those placed. -/
theorem displaced_perm_placed {us : List (Srp × Option P)} {cs : List Srp}
    (hclear : contents (replaced (replaced (fun _ => none) us) (srpClears cs)) = 0) :
    (displaced (fun _ => none) us ++
      displaced (replaced (fun _ => none) us) (srpClears cs)).Perm (placed us) := by
  have first := displaced_add_contents (fun _ : Srp => (none : Option P)) us
  have second := displaced_clears_add (replaced (fun _ : Srp => (none : Option P)) us) cs
  rw [← Multiset.coe_eq_coe, ← Multiset.coe_add]
  rw [contents_empty, add_zero] at first
  rw [hclear, add_zero] at second
  rw [second, first]

variable [DecidableEq P]

theorem srpLaw_iff (cookie : Option P) (us : List (Srp × Option P)) (cs : List Srp)
    (hspace : SrpsFit Srp) (honce : (placed us).Nodup)
    (hclear : ∀ srp, (srpBefore cookie us).ref srp ≠ none → srp ∈ cs) :
    SrpLaw cookie us cs ↔ InstallsOne us := by
  have before := srpUpdates_before hspace (srpGcInit_counted cookie) rfl us
  have counted : (srpGcFinalize (srpBefore cookie us)).Counted 0 := before.last.1.finalize
  have quiet : (srpGcFinalize (srpBefore cookie us)).destroyed = [] :=
    srpGcFinalize_destroyed.trans before.last.2
  have after := srpUpdates_after hspace counted (fun h => absurd quiet h) cs
  -- where the pointers are
  have ref : (srpGcFinalize (srpBefore cookie us)).ref = replaced (fun _ => none) us :=
    srpGcFinalize_ref.trans (srpUpdates_ref (srpGcInit cookie) us)
  have clear :
      contents (replaced (srpGcFinalize (srpBefore cookie us)).ref (srpClears cs)) = 0 := by
    rw [srpGcFinalize_ref, replaced_srpClears hclear, contents_empty]
  have first : srpDisplaced (srpGcInit cookie) us = displaced (fun _ => none) us :=
    srpDisplaced_eq (srpGcInit cookie) us
  have all := displaced_perm_placed (ref ▸ clear)
  have length := all.length_eq
  rw [List.length_append] at length
  have destroyed := srpClears_destroyed hspace counted clear
  rw [quiet, List.nil_append, ref] at destroyed
  have once := once_last_iff (all.nodup_iff.mpr honce)
  rw [installsOne_iff]
  constructor
  · intro law
    have met := law.once
    rw [first, srpDisplaced_eq, ref, destroyed] at met
    obtain ⟨none, one⟩ := once.mp met
    rw [none, List.length_nil] at length
    exact ⟨none, by omega⟩
  · rintro ⟨none, one⟩
    rw [none, List.length_nil] at length
    refine ⟨before.imp fun _ h => h.1, after.imp fun _ h => h.1,
      before.imp fun _ h => Srps.safe_of_last fun hd => absurd h.2 hd,
      after.imp fun _ h => Srps.safe_of_last h.2, ?_⟩
    rw [first, srpDisplaced_eq, ref, destroyed]
    exact once.mpr ⟨none, by omega⟩

/-- Two SRPs: the first is given two pointers, the second one and then null. -/
theorem srpLaw_two :
    SrpLaw (some 7) [((0 : Fin 2), some 5), (1, some 6), (0, some 8), (1, none)] [1, 0] ↔
      InstallsOne [((0 : Fin 2), some 5), (1, some 6), (0, some 8), (1, none)] :=
  srpLaw_iff (some 7) _ [1, 0] (by unfold SrpsFit; decide) (by decide) (by decide)

/-- One SRP, given a pointer and then another: the first is never destroyed. -/
theorem srpLaw_fails : ¬ SrpLaw (none : Option Nat) [((0 : Fin 1), some 5), (0, some 6)] [0] :=
  fun h => absurd (h.once 5 (by decide)) (by decide)

end Unics
