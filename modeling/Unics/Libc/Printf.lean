import Unics.Libc.CString

/-!
# Formatted output into a buffer

`vsprintf` and `vsnprintf` of `lib/libc/stdio.c`, which read a format and a list of arguments each
in its own way, and `itoa` of `lib/libc/stdlib.c`. `dst` is what has been written from `buf` on.
`vsprintf` has room for all it writes, `vsnprintf` for `n` bytes, and `num_buf` for what `itoa`
stores.

A `va_arg` of a type that the next argument does not have, or behind the last argument, answers
`none`, and so does a step over the terminator of the format.
-/

namespace Unics

/-- An argument: an `int` or `unsigned int`, a string or a null pointer to one, a `void *`. -/
inductive Arg where
  | int (num : BitVec 32)
  | str (s : Option CString)
  | ptr (p : UIntPtr)
  deriving DecidableEq

def vaInt : List Arg → Option (BitVec 32 × List Arg)
  | .int num :: args => some (num, args)
  | _ => none

def vaStr : List Arg → Option (Option CString × List Arg)
  | .str s :: args => some (s, args)
  | _ => none

def vaPtr : List Arg → Option (UIntPtr × List Arg)
  | .ptr p :: args => some (p, args)
  | _ => none

/-! ## Numbers -/

/-- The character of a remainder. -/
def itoaDigit (rem : Int) : UInt8 := UInt8.ofInt (if rem > 9 then rem - 10 + 97 else rem + 48)

/-- The loop of `itoa`, the last digit first. A base below 2 does not occur. -/
def itoaDigits (num base : Int) : List UInt8 :=
  if _h : num = 0 ∨ base < 2 then []
  else itoaDigit (num.tmod base) :: itoaDigits (num.tdiv base) base
termination_by num.natAbs
decreasing_by
  rw [Int.natAbs_tdiv]
  exact Nat.div_lt_self (by omega) (by omega)

/-- `itoa`: what it stores before the terminator. -/
def itoa (num : BitVec 32) (base : Int) : List UInt8 :=
  if num = 0 then [48]
  else
    let isNegative := num.toInt < 0 ∧ base = 10
    let num := if isNegative then -num else num
    let str := itoaDigits num.toInt base
    let str := if isNegative then str ++ [45] else str
    str.reverse

/-- `for (int i = 0; num_buf[i]; i++)`: what the loop goes over. -/
def numText (num : BitVec 32) (base : Int) : List UInt8 := (itoa num base).takeWhile (· ≠ 0)

/-- `"(null)"` -/
def nullText : List UInt8 := [40, 110, 117, 108, 108, 41]

/-- The characters of a `%s`. -/
def strText : Option CString → List UInt8
  | none => nullText
  | some s => s.bytes

/-! ## `vsprintf` -/

/-- `__isdigit`. -/
def isFormatDigit (c : UInt8) : Bool := 48 ≤ c && c ≤ 57

/-- What is written so far, and the arguments that are left. -/
abbrev Printing : Type := List UInt8 × List Arg

/-- The switch of `vsprintf`. -/
def vsprintfConv (c : UInt8) (dst : List UInt8) (args : List Arg) : Option Printing :=
  if c = 115 then do
    let (s, args) ← vaStr args
    some (dst ++ strText s, args)
  else if c = 100 ∨ c = 105 then do
    let (num, args) ← vaInt args
    some (dst ++ numText num 10, args)
  else if c = 120 ∨ c = 88 then do
    let (num, args) ← vaInt args
    some (dst ++ numText num 16, args)
  else if c = 117 then do
    let (num, args) ← vaInt args
    some (dst ++ numText num 10, args)
  else if c = 99 then do
    let (num, args) ← vaInt args
    some (dst ++ [UInt8.ofBitVec (num.setWidth 8)], args)
  else if c = 112 then do
    let (p, args) ← vaPtr args
    some (dst ++ [48, 120] ++ numText p 16, args)
  else if c = 37 then some (dst ++ [37], args)
  else some (dst ++ [37, c], args)

/-- The loop of `vsprintf`, outside a conversion and inside one, where the digits of a width are
skipped. -/
def vsprintfLoop : Bool → List UInt8 → List UInt8 → List Arg → Option Printing
  | false, [], dst, args => some (dst, args)
  | false, c :: format, dst, args =>
    if c ≠ 37 ∨ format = [] then vsprintfLoop false format (dst ++ [c]) args
    else vsprintfLoop true format dst args
  | true, [], _, _ => none
  | true, c :: format, dst, args =>
    -- the width is computed and not used
    if isFormatDigit c then vsprintfLoop true format dst args
    else do
      let (dst, args) ← vsprintfConv c dst args
      vsprintfLoop false format dst args

/-- What the two functions leave: the bytes before the terminator, the value returned and the
arguments that are left. -/
structure Printed where
  bytes : List UInt8
  ret : Int
  args : List Arg
  deriving DecidableEq

def vsprintf (format : CString) (args : List Arg) : Option Printed := do
  let (dst, args) ← vsprintfLoop false format.bytes [] args
  some { bytes := dst, ret := dst.length, args }

/-! ## `vsnprintf` -/

section Limited

-- `end - buf`
variable (stop : Int)

/-- A loop that stores characters as long as `dst < end`. -/
def putUpTo (dst : List UInt8) : List UInt8 → List UInt8
  | [] => dst
  | c :: text => if dst.length < stop then putUpTo (dst ++ [c]) text else dst

/-- The switch of `vsnprintf`. -/
def vsnprintfConv (c : UInt8) (dst : List UInt8) (args : List Arg) : Option Printing :=
  if c = 115 then do
    let (s, args) ← vaStr args
    some (putUpTo stop dst (strText s), args)
  else if c = 100 ∨ c = 105 then do
    let (num, args) ← vaInt args
    some (putUpTo stop dst (numText num 10), args)
  else if c = 120 ∨ c = 88 then do
    let (num, args) ← vaInt args
    some (putUpTo stop dst (numText num 16), args)
  else if c = 117 then do
    let (num, args) ← vaInt args
    some (putUpTo stop dst (numText num 10), args)
  else if c = 99 then do
    let (num, args) ← vaInt args
    some (if dst.length < stop then dst ++ [UInt8.ofBitVec (num.setWidth 8)] else dst, args)
  else if c = 112 then do
    let (p, args) ← vaPtr args
    some (if dst.length + 2 < stop then putUpTo stop (dst ++ [48, 120]) (numText p 16) else dst,
      args)
  else if c = 37 then some (if dst.length < stop then dst ++ [37] else dst, args)
  else
    let dst := if dst.length < stop then dst ++ [37] else dst
    let dst := if dst.length < stop then dst ++ [c] else dst
    some (dst, args)

/-- The loop of `vsnprintf`, outside a conversion and inside one. There is no width. -/
def vsnprintfLoop : Bool → List UInt8 → List UInt8 → List Arg → Option Printing
  | false, [], dst, args => some (dst, args)
  | false, c :: format, dst, args =>
    if ¬ dst.length < stop then some (dst, args)
    else if c ≠ 37 ∨ format = [] then vsnprintfLoop false format (dst ++ [c]) args
    else vsnprintfLoop true format dst args
  | true, [], _, _ => none
  | true, c :: format, dst, args => do
    let (dst, args) ← vsnprintfConv stop c dst args
    vsnprintfLoop false format dst args

end Limited

def vsnprintf (n : Nat) (format : CString) (args : List Arg) : Option Printed := do
  let (dst, args) ← vsnprintfLoop (n - 1) false format.bytes [] args
  some { bytes := dst, ret := dst.length, args }

end Unics
