import Unics.Lib.Checked
import Unics.Libc.CString

/-!
# vis and its buffers
-/

namespace Unics

open Unics.Lib

/-!
## Visible strings

`kern/vis.c`: `strvis` writes a string so that a terminal shows all of it, one character after the
other by `vis`, and `strunvis` is there to read it back. The characters are `unsigned char`s when
`vis` gets them. It does not look at the character behind, and the place it writes to has room.
-/

def visCstyle : BitVec 32 := 0x02
def visSp : BitVec 32 := 0x04
def visTab : BitVec 32 := 0x08
def visNl : BitVec 32 := 0x10
def visWhite : BitVec 32 := visSp ||| visTab ||| visNl
def visNoslash : BitVec 32 := 0x40
def visDq : BitVec 32 := 0x200
def visAll : BitVec 32 := 0x400

def isprint (c : UInt8) : Bool := 32 ≤ c && c < 127

/-- `ctl`: the strings of two characters for the control characters. -/
def ctl : List (Char × Char) :=
  [('^', '^'), ('^', 'A'), ('^', 'B'), ('^', 'C'), ('^', 'D'), ('^', 'E'), ('^', 'F'), ('^', 'G'),
    ('^', 'H'), ('^', 'I'), ('^', 'J'), ('^', 'K'), ('^', 'L'), ('^', 'M'), ('^', 'N'), ('^', 'O'),
    ('^', 'P'), ('^', 'Q'), ('^', 'R'), ('^', 'S'), ('^', 'T'), ('^', 'U'), ('^', 'V'), ('^', 'W'),
    ('^', 'X'), ('^', 'Y'), ('^', 'Z'), ('^', '['), ('^', '\\'), ('^', ']'), ('^', '^'), ('^', '_')]

/-- `ctl[c][1]`, for a `c` below 32. -/
def ctlChar (c : UInt8) : UInt8 := (ctl.getD c.toNat ('^', '^')).2.toUInt8

/-- The switch: the character behind the backslash, where the switch writes two and returns. -/
def visSwitch (c : UInt8) (flag : BitVec 32) : Option UInt8 :=
  if c = '\n'.toUInt8 then if flag &&& visNl = 0 then some 'n'.toUInt8 else none
  else if c = '\r'.toUInt8 then some 'r'.toUInt8
  else if c = '\x08'.toUInt8 then some 'b'.toUInt8
  else if c = '\x07'.toUInt8 then some 'a'.toUInt8
  else if c = '\x0b'.toUInt8 then some 'v'.toUInt8
  else if c = '\t'.toUInt8 then if flag &&& visTab = 0 then some 't'.toUInt8 else none
  else if c = '\x0c'.toUInt8 then some 'f'.toUInt8
  else if c = ' '.toUInt8 then if flag &&& visSp ≠ 0 then some 's'.toUInt8 else none
  else if c = '"'.toUInt8 then if flag &&& visDq ≠ 0 then some '"'.toUInt8 else none
  else if c = '\\'.toUInt8 then some '\\'.toUInt8
  else none

/-- The backslash and three digits. -/
def visDigits (c : UInt8) : List UInt8 :=
  ['\\'.toUInt8, ((c >>> 6) &&& 7) + '0'.toUInt8, ((c >>> 3) &&& 7) + '0'.toUInt8,
    (c &&& 7) + '0'.toUInt8]

/-- What `vis` writes for a character. -/
def vis (c : UInt8) (flag : BitVec 32) : List UInt8 :=
  match if flag &&& visNoslash = 0 then visSwitch c flag else none with
  | some letter => ['\\'.toUInt8, letter]
  | none =>
    if flag &&& visAll = 0 ∧ isprint c = true ∧
        ¬ (flag &&& visWhite ≠ 0 ∧ (c = ' '.toUInt8 ∨ c = '\t'.toUInt8 ∨ c = '\n'.toUInt8)) then
      [c]
    else if flag &&& visCstyle ≠ 0 ∧ (c < 0x20 ∨ c = 0x7f) then
      if c = 0x7f then ['\\'.toUInt8, '?'.toUInt8] else ['\\'.toUInt8, ctlChar c]
    -- `VIS_OCTAL` makes no difference, the digits are the default too
    else visDigits c

/-! ### Strings -/

theorem ctlChar_ne_zero {c : UInt8} (hc : c < 0x20) : ctlChar c ≠ 0 := by
  have table : ∀ n < 32, (ctl.getD n ('^', '^')).2.toUInt8 ≠ 0 := by decide
  exact table c.toNat hc

/-- A digit is not the terminator. -/
theorem digit_ne_zero (c : UInt8) : (c &&& 7) + '0'.toUInt8 ≠ 0 := by
  have small : (c &&& 7).toNat ≤ 7 := by
    rw [UInt8.toNat_and]
    exact Nat.and_le_right
  intro hzero
  have value : ((c &&& 7) + '0'.toUInt8).toNat = (c &&& 7).toNat + 48 := by
    rw [UInt8.toNat_add]
    exact Nat.mod_eq_of_lt (by show _ + 48 < 256; omega)
  rw [hzero] at value
  exact absurd value (Nat.ne_of_lt (Nat.succ_pos _))

theorem visSwitch_ne_zero {c letter : UInt8} {flag : BitVec 32}
    (h : visSwitch c flag = some letter) : letter ≠ 0 := by
  have stored : ∀ k : UInt8, k ≠ 0 → some k = some letter → letter ≠ 0 :=
    fun k hk h => Option.some.inj h ▸ hk
  have nothing : none = some letter → letter ≠ 0 :=
    fun h => absurd h (Option.some_ne_none letter).symm
  revert h
  unfold visSwitch
  refine of_ite_eq_some (of_ite_eq_some (stored _ (by decide)) nothing) ?_
  refine of_ite_eq_some (stored _ (by decide)) ?_
  refine of_ite_eq_some (stored _ (by decide)) ?_
  refine of_ite_eq_some (stored _ (by decide)) ?_
  refine of_ite_eq_some (stored _ (by decide)) ?_
  refine of_ite_eq_some (of_ite_eq_some (stored _ (by decide)) nothing) ?_
  refine of_ite_eq_some (stored _ (by decide)) ?_
  refine of_ite_eq_some (of_ite_eq_some (stored _ (by decide)) nothing) ?_
  refine of_ite_eq_some (of_ite_eq_some (stored _ (by decide)) nothing) ?_
  exact of_ite_eq_some (stored _ (by decide)) nothing

/-- No terminator is written for a character. -/
theorem zero_notMem_vis {c : UInt8} (hc : c ≠ 0) (flag : BitVec 32) : (0 : UInt8) ∉ vis c flag := by
  have slash : (0 : UInt8) ≠ '\\'.toUInt8 := by decide
  unfold vis
  intro h
  split at h
  · next letter hletter =>
    have switched : visSwitch c flag = some letter := by
      split at hletter
      · exact hletter
      · exact absurd hletter.symm (Option.some_ne_none letter)
    have letter := (visSwitch_ne_zero switched).symm
    simp only [List.mem_cons, List.not_mem_nil, or_false, slash, letter] at h
  · split at h
    · exact hc (List.mem_singleton.mp h).symm
    · split at h
      · next hctl =>
        split at h
        · exact absurd h (by decide)
        · next hdel =>
          have letter := (ctlChar_ne_zero (hctl.2.resolve_right hdel)).symm
          simp only [List.mem_cons, List.not_mem_nil, or_false, slash, letter] at h
      · have digits := fun c => (digit_ne_zero c).symm
        simp only [visDigits, List.mem_cons, List.not_mem_nil, or_false, slash, digits] at h

/-- What `strvis` leaves at its destination. -/
def strvis (src : CString) (flag : BitVec 32) : CString where
  bytes := src.bytes.flatMap fun c => vis c flag
  noNul h := by
    obtain ⟨c, hc, h⟩ := List.mem_flatMap.mp h
    exact zero_notMem_vis (fun hzero => src.noNul (hzero ▸ hc)) flag h

/-- `strunvis`: each character is stored as it is. -/
def strunvis (src : CString) : CString where
  bytes := src.bytes.map fun c => c
  noNul h := src.noNul ((List.map_id' src.bytes).symm ▸ h)

/-!
## Visible strings in buffers

The variants of `strvis` and `strunvis` in `kern/vis.c` that are given a length, and `stravis`,
which allocates. What a variant stores from its destination on is a list of bytes, the terminator
with them. An `int` and a `size_t` have 32 bits.
-/

/-- `strvisx`: what it stores before the terminator. -/
def strvisx (src : List UInt8) (flag : BitVec 32) : List UInt8 := src.flatMap fun c => vis c flag

/-- The bytes that `strvis` stores. -/
def strvisStores (src : CString) (flag : BitVec 32) : List UInt8 := (strvis src flag).bytes ++ [0]

/-- The bytes that `stravis` allocates: the `int` is taken for a `size_t`. -/
def stravisMaxlen (src : CString) : BitVec 32 := BitVec.ofNat 32 src.strlen * 4 + 1

/-- The loop of `strnvis`. -/
def strnvisLoop (flag : BitVec 32) : ℕ → List UInt8 → List UInt8
  | n + 1, c :: src => vis c flag ++ strnvisLoop flag n src
  | _, _ => []

/-- The bytes that `strnvis` stores. -/
def strnvis (src : CString) (n : SizeT) (flag : BitVec 32) : List UInt8 :=
  strnvisLoop flag n.toNat src.bytes ++ [0]

/-- The loop of `strnunvis`. -/
def strnunvisLoop : ℕ → List UInt8 → List UInt8
  | n + 1, c :: src => c :: strnunvisLoop n src
  | _, _ => []

/-- The bytes that `strnunvis` stores. -/
def strnunvis (src : CString) (n : SizeT) : List UInt8 := strnunvisLoop n.toNat src.bytes ++ [0]

end Unics
