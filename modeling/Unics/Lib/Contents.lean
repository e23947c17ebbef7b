import Mathlib.Algebra.BigOperators.Group.Finset.Piecewise
import Mathlib.Algebra.Order.BigOperators.Group.Multiset
import Unics.Lib.Forest

/-!
# What a table holds

A table of optional entries, as in `Unics.Lib.Forest`, seen as the collection of the entries in it.
`contents` counts an entry as often as it is there. A run of replacements puts entries in and takes
entries out, and none is lost on the way: what was displaced and what the table still holds is what
it held and what was placed (`displaced_add_contents`).
-/

namespace Unics.Lib

open scoped BigOperators

variable {ι α : Type*}

/-! ## Contents -/

section Contents

variable [Fintype ι]

/-- The entries of a table, each as often as it is there. -/
def contents (nodes : ι → Option α) : Multiset α := ∑ i, ((nodes i).toList : Multiset α)

theorem contents_empty : contents (fun _ : ι => (none : Option α)) = 0 :=
  Finset.sum_const_zero

theorem card_contents (nodes : ι → Option α) : (contents nodes).card = (occupied nodes).card := by
  rw [contents, Multiset.card_sum, occupied, Finset.card_filter]
  refine Finset.sum_congr rfl fun i _ => ?_
  cases nodes i <;> rfl

/-- A replacement trades the old entry for the new. -/
theorem contents_update [DecidableEq ι] (nodes : ι → Option α) (i : ι) (v : Option α) :
    ((nodes i).toList : Multiset α) + contents (Function.update nodes i v) =
      (v.toList : Multiset α) + contents nodes := by
  have others : ∑ j ∈ Finset.univ.erase i, ((Function.update nodes i v j).toList : Multiset α) =
      ∑ j ∈ Finset.univ.erase i, ((nodes j).toList : Multiset α) :=
    Finset.sum_congr rfl fun j hj => by rw [Function.update_of_ne (Finset.ne_of_mem_erase hj)]
  unfold contents
  rw [← Finset.add_sum_erase _ _ (Finset.mem_univ i), others, Function.update_self,
    ← Finset.add_sum_erase Finset.univ (fun j => ((nodes j).toList : Multiset α))
      (Finset.mem_univ i), add_left_comm]

theorem card_occupied_update [DecidableEq ι] (nodes : ι → Option α) (i : ι) (v : Option α) :
    (nodes i).toList.length + (occupied (Function.update nodes i v)).card =
      v.toList.length + (occupied nodes).card := by
  have trade := congrArg Multiset.card (contents_update nodes i v)
  rwa [Multiset.card_add, Multiset.card_add, Multiset.coe_card, Multiset.coe_card, card_contents,
    card_contents] at trade

end Contents

/-! ## Replacements -/

/-- The entries that replacements put in. -/
def placed (us : List (ι × Option α)) : List α := us.flatMap fun u => u.2.toList

theorem placed_eq_nil_iff {us : List (ι × Option α)} : placed us = [] ↔ ∀ u ∈ us, u.2 = none := by
  simp only [placed, List.flatMap_eq_nil_iff, Option.toList_eq_nil_iff]

variable [DecidableEq ι]

/-- The table after replacements, one after the other. -/
def replaced (nodes : ι → Option α) (us : List (ι × Option α)) : ι → Option α :=
  us.foldl (fun nodes u => Function.update nodes u.1 u.2) nodes

/-- The entries that replacements take out, in their order. -/
def displaced (nodes : ι → Option α) : List (ι × Option α) → List α
  | [] => []
  | u :: us => (nodes u.1).toList ++ displaced (Function.update nodes u.1 u.2) us

/-- No entry is lost: those displaced and those still there are those placed and those that were
there. -/
theorem displaced_add_contents [Fintype ι] (nodes : ι → Option α) (us : List (ι × Option α)) :
    (displaced nodes us : Multiset α) + contents (replaced nodes us) =
      (placed us : Multiset α) + contents nodes := by
  induction us generalizing nodes with
  | nil => rfl
  | cons u us ih =>
    have first := contents_update nodes u.1 u.2
    have rest := ih (Function.update nodes u.1 u.2)
    have out : (displaced nodes (u :: us) : Multiset α) =
        ((nodes u.1).toList : Multiset α) + displaced (Function.update nodes u.1 u.2) us := rfl
    have into : (placed (u :: us) : Multiset α) = (u.2.toList : Multiset α) + placed us := rfl
    calc (displaced nodes (u :: us) : Multiset α) + contents (replaced nodes (u :: us))
        = (nodes u.1).toList + (placed us + contents (Function.update nodes u.1 u.2)) := by
          rw [out, add_assoc, ← rest]; rfl
      _ = placed us + (u.2.toList + contents nodes) := by rw [add_left_comm, first]
      _ = placed (u :: us) + contents nodes := by rw [into, add_left_comm, add_assoc]

/-- Replacements that place nothing displace nothing when they pass over the entries. -/
theorem displaced_eq_nil_iff {nodes : ι → Option α} {us : List (ι × Option α)}
    (h : placed us = []) : displaced nodes us = [] ↔ ∀ u ∈ us, nodes u.1 = none := by
  induction us generalizing nodes with
  | nil => exact iff_of_true rfl fun _ h => absurd h List.not_mem_nil
  | cons u us ih =>
    obtain ⟨here, later⟩ := List.append_eq_nil_iff.mp (show u.2.toList ++ placed us = [] from h)
    rw [Option.toList_eq_nil_iff] at here
    rw [displaced, List.append_eq_nil_iff, Option.toList_eq_nil_iff, List.forall_mem_cons, here]
    refine and_congr_right fun hu => ?_
    rw [← ih later, ← hu, Function.update_eq_self]

/-! ## Met once -/

/-- Where no element of two lists is repeated, each is met once in the end of the second exactly
when the first is empty and the second has one element at most. -/
theorem once_last_iff [DecidableEq α] {ps qs : List α} (h : (ps ++ qs).Nodup) :
    (∀ p ∈ ps ++ qs, qs.getLast?.toList.count p = 1) ↔ ps = [] ∧ qs.length ≤ 1 := by
  obtain ⟨-, hqs, hdisj⟩ := List.nodup_append.mp h
  constructor
  · intro once
    have last : ∀ p ∈ ps ++ qs, qs.getLast? = some p := fun p hp => by
      have mem : p ∈ qs.getLast?.toList := List.count_pos_iff.mp (by rw [once p hp]; decide)
      exact Option.mem_toList.mp mem
    constructor
    · rw [List.eq_nil_iff_forall_not_mem]
      intro p hp
      exact hdisj p hp p (List.mem_of_getLast? (last p (List.mem_append_left qs hp))) rfl
    · cases qs with
      | nil => exact Nat.zero_le 1
      | cons q qs =>
        cases qs with
        | nil => exact le_rfl
        | cons r rs =>
          have same := last q (List.mem_append_right ps List.mem_cons_self)
          rw [List.getLast?_cons_cons] at same
          exact absurd (List.mem_of_getLast? same) (List.nodup_cons.mp hqs).1
  · rintro ⟨rfl, hlen⟩ p hp
    cases qs with
    | nil => exact absurd hp List.not_mem_nil
    | cons q qs =>
      obtain rfl : qs = [] :=
        List.length_eq_zero_iff.mp (Nat.le_zero.mp (Nat.le_of_succ_le_succ hlen))
      obtain rfl := List.mem_singleton.mp hp
      exact List.count_singleton_self

end Unics.Lib
