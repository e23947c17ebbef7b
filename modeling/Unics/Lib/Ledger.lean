import Mathlib.Data.List.Basic

/-!
# Ledgers of ownership

A ledger records who owns what, seen from outside an allocator: the blocks that it has handed out
and not been given back, each the list of the resources in it. Taking a block adds it, releasing
resources removes them from every block.

Two properties matter. `Exclusive`: no resource is in two blocks. `Within marked`: whatever is owned
is marked in use. An allocator that hands out only unmarked resources, and that unmarks only what it
is given back, keeps both (`Exclusive.take`, `Within.release`), and the second is what carries the
first.
-/

namespace Unics.Lib

variable {α : Type*}

/-- The blocks handed out and not given back, the latest first. -/
abbrev Ledger (α : Type*) := List (List α)

namespace Ledger

/-- A block is handed out. An allocation that fails hands out the empty block. -/
def take (block : List α) (ledger : Ledger α) : Ledger α := block :: ledger

/-- Resources are given back. -/
def release [DecidableEq α] (back : List α) (ledger : Ledger α) : Ledger α :=
  ledger.map fun block => block.filter (· ∉ back)

/-- No resource is in two blocks. -/
def Exclusive (ledger : Ledger α) : Prop := ledger.Pairwise List.Disjoint

/-- Whatever is owned is marked in use. -/
def Within (marked : α → Prop) (ledger : Ledger α) : Prop := ∀ block ∈ ledger, ∀ p ∈ block, marked p

section Laws

variable {ledger : Ledger α} {block : List α} {marked marked' : α → Prop}

theorem Exclusive.take (h : Exclusive ledger) (hin : Within marked ledger)
    (hfree : ∀ p ∈ block, ¬ marked p) : Exclusive (take block ledger) :=
  List.Pairwise.cons (fun other hother p hp hp' => hfree p hp (hin other hother p hp')) h

theorem Within.take (h : Within marked ledger) (hmono : ∀ p, marked p → marked' p)
    (hblock : ∀ p ∈ block, marked' p) : Within marked' (take block ledger) := by
  intro other hother p hp
  rcases List.mem_cons.mp hother with rfl | hother
  · exact hblock p hp
  · exact hmono p (h other hother p hp)

theorem Within.mono (h : Within marked ledger) (hmono : ∀ p, marked p → marked' p) :
    Within marked' ledger :=
  fun block hblock p hp => hmono p (h block hblock p hp)

variable [DecidableEq α] {back : List α}

theorem Exclusive.release (h : Exclusive ledger) : Exclusive (release back ledger) :=
  List.pairwise_map.mpr <| h.imp fun hd _ hp hp' =>
    hd (List.mem_of_mem_filter hp) (List.mem_of_mem_filter hp')

theorem Within.release (h : Within marked ledger)
    (hkeep : ∀ p, marked p → p ∉ back → marked' p) : Within marked' (release back ledger) := by
  intro block hblock p hp
  obtain ⟨old, hold, rfl⟩ := List.mem_map.mp hblock
  obtain ⟨hp, hback⟩ := List.mem_filter.mp hp
  exact hkeep p (h old hold p hp) (of_decide_eq_true hback)

/-- Giving nothing back changes nothing. -/
@[simp] theorem release_nil (ledger : Ledger α) : release [] ledger = ledger := by
  simp [release]

end Laws

end Ledger

end Unics.Lib
