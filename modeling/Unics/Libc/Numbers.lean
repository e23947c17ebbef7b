import Mathlib.Data.List.TakeWhile
import Unics.Libc.Printf

/-!
# Numbers and their texts
-/

namespace Unics

/-!
## Numbers and their text

`ltoa` and `lltoa`, `strtol` and `strtoll` of `lib/libc/stdlib.c`. A `long` has 32 bits and a
`long long` 64, and their arithmetic wraps. The two functions of a pair differ in the width only.
`itoa` stands with the formatted output.
-/

section Width

variable {w : Nat}

/-- What `ltoa` and `lltoa` store before the terminator. -/
def toText (num : BitVec w) (base : Int) : List UInt8 :=
  if num = 0 then [48]
  else
    let isNegative := num.toInt < 0 ∧ base = 10
    let num := if isNegative then -num else num
    let str := itoaDigits num.toInt base
    let str := if isNegative then str ++ [45] else str
    str.reverse

/-- The digit of a character, whatever the base. -/
def strtolDigit (c : UInt8) : Option Int :=
  if 48 ≤ c ∧ c ≤ 57 then some (c.toNat - 48)
  else if 97 ≤ c ∧ c ≤ 122 then some (c.toNat - 97 + 10)
  else if 65 ≤ c ∧ c ≤ 90 then some (c.toNat - 65 + 10)
  else none

/-- The loop over the digits: the result, and where it stops. -/
def strtolLoop (base : Int) : BitVec w → List UInt8 → BitVec w × List UInt8
  | result, [] => (result, [])
  | result, c :: p =>
    match strtolDigit c with
    | none => (result, c :: p)
    | some digit =>
      if digit ≥ base then (result, c :: p)
      else strtolLoop base (result * BitVec.ofInt w base + BitVec.ofInt w digit) p

/-- `*p == ' ' || *p == '\t' || *p == '\n'`. -/
def isStrtolSpace (c : UInt8) : Bool := c = 32 || c = 9 || c = 10

/-- The sign, and what is behind it. -/
def strtolSign (p : List UInt8) : Int × List UInt8 :=
  match p with
  | [] => (1, [])
  | c :: rest => if c = 45 then (-1, rest) else if c = 43 then (1, rest) else (1, c :: rest)

/-- `p[0] == '0' && (p[1] == 'x' || p[1] == 'X')`: what is behind the prefix. -/
def strtolPrefix : List UInt8 → Option (List UInt8)
  | c :: x :: p => if c = 48 ∧ (x = 120 ∨ x = 88) then some p else none
  | _ => none

/-- The base, and where the digits begin. -/
def strtolBase (base : Int) (p : List UInt8) : Int × List UInt8 :=
  if base = 0 then
    if p.head? = some 48 then
      match strtolPrefix p with
      | some p => (16, p)
      | none => (8, p)
    else (10, p)
  else if base = 16 then
    match strtolPrefix p with
    | some p => (16, p)
    | none => (16, p)
  else (base, p)

/-- `strtol` and `strtoll`: the value, and `*endptr`. -/
def parseText (w : Nat) (str : CString) (base : Int) : BitVec w × List UInt8 :=
  let p := str.bytes.dropWhile isStrtolSpace
  let (sign, p) := strtolSign p
  let (base, p) := strtolBase base p
  let (result, p) := strtolLoop base 0 p
  (BitVec.ofInt w sign * result, p)

end Width

def ltoa (num : BitVec 32) (base : Int) : List UInt8 := toText num base

def lltoa (num : BitVec 64) (base : Int) : List UInt8 := toText num base

def strtol (str : CString) (base : Int) : BitVec 32 × List UInt8 := parseText 32 str base

def strtoll (str : CString) (base : Int) : BitVec 64 × List UInt8 := parseText 64 str base

/-- The string that begins an array: what stands before the first terminator. -/
def CString.ofBytes (bytes : List UInt8) : CString where
  bytes := bytes.takeWhile (· != 0)
  noNul h := absurd (List.mem_takeWhile_imp h) Bool.false_ne_true

/-!
## The other reader of numbers

`atoi` of `lib/libc/stdlib.c`, and `isspace` of `lib/libc/ctype.c`, whose test `atoi` spells out. It
takes a sign as `strtol` does.
-/

/-- Space, tab, newline, carriage return, form feed, vertical tab. -/
def isspace (c : UInt8) : Bool := c = 32 || c = 9 || c = 10 || c = 13 || c = 12 || c = 11

/-- The loop over the digits. -/
def atoiLoop : BitVec 32 → List UInt8 → BitVec 32
  | result, [] => result
  | result, c :: p =>
    if 48 ≤ c ∧ c ≤ 57 then atoiLoop (result * 10 + BitVec.ofInt 32 (c.toNat - 48)) p else result

def atoi (str : CString) : BitVec 32 :=
  let (sign, p) := strtolSign (str.bytes.dropWhile isspace)
  BitVec.ofInt 32 sign * atoiLoop 0 p

/-!
## The generator of the library

`rand` and `srand` of `lib/libc/stdlib.c`. An `unsigned long` has 32 bits.
-/

/-- The new `next_rand`, and the number. -/
def rand (nextRand : BitVec 32) : BitVec 32 × BitVec 32 :=
  let nextRand := nextRand * 1103515245 + 12345
  (nextRand, nextRand / 65536 % 32768)

/-- The new `next_rand`. -/
def srand (seed : BitVec 32) : BitVec 32 := seed

end Unics
