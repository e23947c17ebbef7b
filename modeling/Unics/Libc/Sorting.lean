import Unics.Libc.String

/-!
# Sorting and searching
-/

namespace Unics

/-!
## Sorting

`qsort` of `lib/libc/stdlib.c`, with `quicksort`, `partition` and `swap_elements`, on an array of
`n` bytes. Accesses to it are checked: one outside it answers `none`. A pointer is the number of
bytes behind `base`. `compare` is given the bytes of two elements, may keep a state of its own
between its calls, and may answer anything.
-/

section Qsort

variable {σ : Type}

abbrev Comparator (σ : Type) := σ → List UInt8 → List UInt8 → Int × σ

/-- The bytes of the element at `p`, which `compare` reads. -/
def loadElement (n : Nat) (base : Buffer) (p size : SizeT) : Option (List UInt8) :=
  (List.range size.toNat).mapM fun i => loadChar n base (p.toNat + i)

/-- The loop of `swap_elements`, up to the turn of byte `i`. -/
def swapElements (n : Nat) (base : Buffer) (a b : SizeT) : Nat → Option Buffer
  | 0 => some base
  | i + 1 => do
    let base ← swapElements n base a b i
    let temp ← loadChar n base (a.toNat + i)
    let c ← loadChar n base (b.toNat + i)
    let base ← storeChar n base (a.toNat + i) c
    storeChar n base (b.toNat + i) temp

/-- The loop of `partition`. -/
def partitionLoop (n : Nat) (high size : SizeT) (compare : Comparator σ) (i j : SizeT) (s : σ)
    (base : Buffer) : Option (SizeT × σ × Buffer) :=
  if _h : j < high then do
    let a ← loadElement n base (j * size) size
    let pivot ← loadElement n base (high * size) size
    if (compare s a pivot).1 < 0 then do
      let base ← swapElements n base (i * size) (j * size) size.toNat
      partitionLoop n high size compare (i + 1) (j + 1) (compare s a pivot).2 base
    else partitionLoop n high size compare i (j + 1) (compare s a pivot).2 base
  else some (i, s, base)
termination_by high.toNat - j.toNat
decreasing_by
  all_goals bv_omega

def partition (n : Nat) (low high size : SizeT) (compare : Comparator σ) (s : σ) (base : Buffer) :
    Option (SizeT × σ × Buffer) := do
  let (i, s, base) ← partitionLoop n high size compare low low s base
  let base ← swapElements n base (i * size) (high * size) size.toNat
  some (i, s, base)

/-- `quicksort`, for calls up to the given depth. -/
def quicksort (n : Nat) (size : SizeT) (compare : Comparator σ) :
    Nat → SizeT → SizeT → σ → Buffer → Option (σ × Buffer)
  | 0, _, _, _, _ => none
  | fuel + 1, low, high, s, base =>
    if low < high then do
      let (pi, s, base) ← partition n low high size compare s base
      let left := if 0 < pi then quicksort n size compare fuel low (pi - 1) s base
        else some (s, base)
      let (s, base) ← left
      quicksort n size compare fuel (pi + 1) high s base
    else some (s, base)

def qsort (n : Nat) (num size : SizeT) (compare : Comparator σ) (fuel : Nat) (s : σ)
    (base : Buffer) : Option (σ × Buffer) :=
  if 1 < num then quicksort n size compare fuel 0 (num - 1) s base else some (s, base)

end Qsort

/-!
## Searching a sorted array

`bsearch` of `lib/libc/stdlib.c`, on an array of `n` bytes whose accesses are checked. `compare` is
given the key and the bytes of an element. As for `qsort`, a pointer is the number of bytes behind
`base`, and `compare` may keep a state and answer anything.
-/

section Bsearch

variable {σ κ : Type}

/-- The middle does not wrap. -/
theorem toNat_mid {low high : SizeT} (h : low < high) :
    (low + (high - low) / 2).toNat = low.toNat + (high.toNat - low.toNat) / 2 := by
  have order : low.toNat < high.toNat := BitVec.lt_def.mp h
  have half : ((high - low) / 2).toNat = (high.toNat - low.toNat) / 2 := by
    rw [BitVec.toNat_udiv, BitVec.toNat_sub_of_le (BitVec.le_of_lt h)]
    rfl
  have bound := high.isLt
  rw [BitVec.toNat_add, half, Nat.mod_eq_of_lt (by omega)]

/-- The loop of `bsearch`. The answer is a pointer, or null. -/
def bsearchLoop (n : Nat) (key : κ) (base : Buffer) (size : SizeT)
    (compare : σ → κ → List UInt8 → Int × σ) (low high : SizeT) (s : σ) :
    Option (Option SizeT × σ) :=
  if _h : low < high then do
    let mid := low + (high - low) / 2
    let midElement ← loadElement n base (mid * size) size
    let cmp := compare s key midElement
    if cmp.1 = 0 then some (some (mid * size), cmp.2)
    else if cmp.1 < 0 then bsearchLoop n key base size compare low mid cmp.2
    else bsearchLoop n key base size compare (mid + 1) high cmp.2
  else some (none, s)
termination_by high.toNat - low.toNat
decreasing_by
  all_goals
    have middle := toNat_mid _h
    bv_omega

def bsearch (n : Nat) (key : κ) (base : Buffer) (num size : SizeT)
    (compare : σ → κ → List UInt8 → Int × σ) (s : σ) : Option (Option SizeT × σ) :=
  bsearchLoop n key base size compare 0 num s

end Bsearch

end Unics
