import Mathlib.Data.List.Nodup
import Mathlib.Data.List.Perm.Basic

/-!
# The blocks of a heap

What the calls of `malloc` and `free` come to, seen from outside the allocator. A block has the
number of the call that gave it for a name, so no two have the same. Which calls are answered is a
pattern, but a call for no bytes never is. An access is in order if its block has been given, has
not been freed and is long enough (`Holds`), and nothing is left over or freed twice if the blocks
freed are those given (`Settled`).
-/

namespace Unics.Lib

structure Blocks where
  /-- How often `malloc` has been called. -/
  calls : ℕ
  /-- The blocks given, with their sizes, the latest first. -/
  taken : List (ℕ × ℕ)
  /-- The blocks freed, the latest first. -/
  freed : List ℕ
  deriving DecidableEq

namespace Blocks

/-- Before the first call. -/
def start : Blocks := { calls := 0, taken := [], freed := [] }

/-- `malloc(size)`, which is answered or not. A size of 0 is refused. -/
def malloc (answers : ℕ → Bool) (size : ℕ) (b : Blocks) : Option ℕ × Blocks :=
  if size ≠ 0 ∧ answers b.calls = true then
    (some b.calls, { b with calls := b.calls + 1, taken := (b.calls, size) :: b.taken })
  else (none, { b with calls := b.calls + 1 })

/-- `free(block)`, which does nothing for the null pointer. -/
def free (block : Option ℕ) (b : Blocks) : Blocks := { b with freed := block.toList ++ b.freed }

/-- The bytes of a block up to `stop` may be accessed. -/
def Holds (b : Blocks) (block stop : ℕ) : Prop :=
  block ∉ b.freed ∧ ∃ given ∈ b.taken, given.1 = block ∧ stop ≤ given.2

instance (b : Blocks) (block stop : ℕ) : Decidable (b.Holds block stop) :=
  inferInstanceAs (Decidable (_ ∧ _))

/-- Each block given has been freed once, and nothing else has. -/
def Settled (b : Blocks) : Prop :=
  (b.taken.map Prod.fst).Nodup ∧ b.freed.Perm (b.taken.map Prod.fst)

variable {answers : ℕ → Bool} {size : ℕ} {b : Blocks}

theorem malloc_some (hsize : size ≠ 0) (h : answers b.calls = true) :
    b.malloc answers size =
      (some b.calls, { b with calls := b.calls + 1, taken := (b.calls, size) :: b.taken }) :=
  if_pos ⟨hsize, h⟩

theorem malloc_none (h : size = 0 ∨ answers b.calls = false) :
    b.malloc answers size = (none, { b with calls := b.calls + 1 }) := by
  refine if_neg fun given => ?_
  rcases h with hsize | hanswer
  · exact given.1 hsize
  · exact Bool.false_ne_true (hanswer.symm.trans given.2)

/-- Blocks are settled that are named by the first numbers and freed in their order. -/
theorem settled_of_range {n : ℕ} (htaken : b.taken.map Prod.fst = (List.range n).reverse)
    (hfreed : b.freed.Perm (List.range n)) : b.Settled := by
  rw [Settled, htaken]
  exact ⟨List.nodup_reverse.mpr List.nodup_range, hfreed.trans (List.reverse_perm _).symm⟩

end Blocks

end Unics.Lib
