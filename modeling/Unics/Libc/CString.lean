import Unics.Types

/-!
# C strings

A string that a `const char *` points to is the bytes up to its terminator. None of them is zero,
and that is a field, so the bytes a comparison or a copy can see are all there is.
-/

namespace Unics

/-- A null-terminated string, without its terminator. -/
structure CString where
  bytes : List UInt8
  noNul : (0 : UInt8) ∉ bytes
  deriving DecidableEq

namespace CString

@[ext] theorem ext {s t : CString} (h : s.bytes = t.bytes) : s = t := by
  cases s
  cases t
  cases h
  rfl

def strlen (s : CString) : Nat := s.bytes.length

/-- What an array holds after `strncpy` of at most `n` bytes and a terminator behind them. -/
def strncpy (s : CString) (n : Nat) : CString :=
  ⟨s.bytes.take n, fun h => s.noNul (List.mem_of_mem_take h)⟩

theorem strncpy_of_le {s : CString} {n : Nat} (h : s.strlen ≤ n) : s.strncpy n = s :=
  CString.ext (List.take_of_length_le h)

/-- `""`, which is also what a zeroed array holds. -/
def empty : CString := ⟨[], by decide⟩

/-- `"/"`. -/
def slash : CString := ⟨[47], by decide⟩

/-- `"."`. -/
def dot : CString := ⟨[46], by decide⟩

/-- `".."`. -/
def dotdot : CString := ⟨[46, 46], by decide⟩

/-- The letter `a` is not the terminator. -/
theorem a_ne_zero : (97 : UInt8) ≠ 0 := by decide

/-- A string of one character. -/
def char (c : UInt8) (h : c ≠ 0 := by decide) : CString :=
  ⟨[c], fun hmem => h (List.mem_singleton.mp hmem).symm⟩

end CString

end Unics
