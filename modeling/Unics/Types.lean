import Mathlib.Algebra.GroupWithZero.Nat

/-!
# The C types of the target

Unics is built for i686, so `size_t` and `uintptr_t` are 32 bits wide and their arithmetic wraps.
They are bit vectors here: `+`, `-`, `*`, `&` and `~` are then the machine's own, and a number is
read off with `toNat` where a proof needs one.
-/

namespace Unics

abbrev SizeT := BitVec 32

/-- `uintptr_t`, and a `void *` that is only compared, printed and returned. -/
abbrev UIntPtr := BitVec 32

/-- The null pointer. -/
def null : UIntPtr := 0

theorem toNat_null : null.toNat = 0 := rfl

/-- What a pointer to readable memory gives access to: the byte at each offset. -/
abbrev Buffer := Nat → UInt8

/-- What `malloc` answers: null, or a block with whatever bytes it holds. -/
abbrev Heap := Option Buffer

end Unics
