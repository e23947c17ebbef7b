import Unics.Bin.Files
import Unics.Libc.Numbers
import Unics.Libc.Strings
import Unics.Libc.Vprintf
import Unics.Lib.Turns
import Unics.Libc.Printf

/-!
# Commands on numbers
-/

namespace Unics

open Unics.Lib

/-!
## bc

`eval_expr` of `bin/bc.c`. A sum, a difference and a product of `int`s wrap. The processor traps
when the quotient of a division does not fit, which is that of the least `int` by -1.
-/

/-- What comes of an evaluation: 0 is returned with the result stored, -1 is returned and this is
printed to `stderr`, or a division traps. -/
inductive BcResult where
  | ok (result : BitVec 32)
  | error (stderr : List UInt8)
  | trap
  deriving DecidableEq

/-- The loop over the pairs of an operator and an operand. -/
def evalLoop : BitVec 32 → List CString → BcResult
  | res, op :: operand :: argv =>
    let val := atoi operand
    if op.bytes = [43] then evalLoop (res + val) argv
    else if op.bytes = [45] then evalLoop (res - val) argv
    else if op.bytes = [42] then evalLoop (res * val) argv
    else if op.bytes = [47] then
      if val = 0 then .error (text "bc: division by zero\n")
      else if res = BitVec.intMin 32 ∧ val = -1 then .trap
      else evalLoop (res.sdiv val) argv
    else .error (text "bc: unknown operator '" ++ op.bytes ++ text "'\n")
  | res, _ => .ok res

def evalExpr : List CString → BcResult
  | [] => .error []
  | operand :: argv => evalLoop (atoi operand) argv

/-!
## expr

`bin/expr.c`. The sum, the difference and the product of `int`s wrap, and the processor traps where
a quotient does not exist or does not fit. A `long` has the 32 bits of an `int`. What goes to
`stderr` is printed with the rest, as `fprintf` prints to the screen whatever the file.
-/

/-- `num1 / num2` of `int`s, unless the processor traps. -/
def idiv (num1 num2 : BitVec 32) : Option (BitVec 32) :=
  if num2 = 0 ∨ (num1 = BitVec.intMin 32 ∧ num2 = -1) then none else some (num1.sdiv num2)

/-- What `printf` prints for a `%d` without flags, width and precision. -/
def percentD (num : BitVec 32) : List UInt8 :=
  (Directive.putSigned { flags := Flags.none, width := 0, precision := -1 } num).out

/-- What is printed, and the value returned. -/
def calculate (num1 num2 : BitVec 32) (operator : UInt8) : Option (List UInt8 × BitVec 32) :=
  if operator = 43 then some ([], num1 + num2)
  else if operator = 45 then some ([], num1 - num2)
  else if operator = 42 then some ([], num1 * num2)
  else if operator = 47 then
    if num2 = 0 then some (text "expr: division by zero\n", 0)
    else (idiv num1 num2).map fun quotient => ([], quotient)
  else some (text "expr: invalid operator\n", 0)

/-- What comes of the command: its exit status and what it printed, or a division traps. -/
inductive ExprResult where
  | exit (status : Int) (printed : List UInt8)
  | trap
  deriving DecidableEq

/-- `*endptr != '\0' || num < INT_MIN || num > INT_MAX`. -/
def exprRejects (num : BitVec 32) (endptr : List UInt8) : Bool :=
  !endptr.isEmpty || num.toInt < -2147483648 || num.toInt > 2147483647

/-- `"+-*/"`. -/
def exprOperators : CString := ⟨[43, 45, 42, 47], by decide⟩

def exprUsage : List UInt8 :=
  text "Usage: expr <num1> <operator> <num2>\n" ++
    text "  Operators: +, -, *, / (integer division)\n"

/-- `printf("%d\n", result)`, where no division trapped. -/
def exprPrint : Option (List UInt8 × BitVec 32) → ExprResult
  | some (printed, result) => .exit 0 (printed ++ percentD result ++ text "\n")
  | none => .trap

def exprMain (argv : List CString) : ExprResult :=
  match argv with
  | [_, arg1, arg2, arg3] =>
    let (num1, endptr) := strtol arg1 10
    if exprRejects num1 endptr then
      .exit 1 (text "expr: invalid number: " ++ arg1.bytes ++ text "\n")
    else
      let (num2, endptr) := strtol arg3 10
      if exprRejects num2 endptr then
        .exit 1 (text "expr: invalid number: " ++ arg3.bytes ++ text "\n")
      else
        -- `argv[2][0]`, the terminator of an empty string
        let operator := arg2.bytes.head?.getD 0
        if arg2.strlen ≠ 1 ∨ strchr exprOperators operator = none then
          .exit 1 (text "expr: invalid operator: " ++ arg2.bytes ++ text "\n")
        else exprPrint (calculate num1 num2 operator)
  | _ => .exit 1 exprUsage

/-!
## factor

`bin/factor.c`, from where `argv[1]` has been read as an `int`. A signed operation that overflows
answers `none`. The loops run turn by turn, and `factorMain` answers `none` too if the turns it is
given do not suffice.
-/

/-! Signed arithmetic of an `int`. -/

def negInt (a : BitVec 32) : Option (BitVec 32) := if a.negOverflow then none else some (-a)

def addInt (a b : BitVec 32) : Option (BitVec 32) := if a.saddOverflow b then none else some (a + b)

def mulInt (a b : BitVec 32) : Option (BitVec 32) := if a.smulOverflow b then none else some (a * b)

/-- Where the code is: in the loop for the factor 2, before the test of the outer loop, in the loop
for the divisor `i`, before the factor that remains, at the end. -/
inductive FactorPhase where
  | twos
  | test
  | inner
  | remaining
  | finished
  deriving DecidableEq

structure Factoring where
  n : BitVec 32
  i : BitVec 32
  printed : Bool
  -- what has been printed of the factors
  line : List UInt8
  phase : FactorPhase
  deriving DecidableEq

/-- `printf` of a factor, with a blank before it unless it is the first. -/
def Factoring.put (s : Factoring) (factor : List UInt8) : Factoring :=
  { s with line := s.line ++ ((if s.printed then [32] else []) ++ factor), printed := true }

def factorTurn (s : Factoring) : Option Factoring :=
  match s.phase with
  | .twos =>
    if s.n.srem 2 = 0 then some { s.put [50] with n := s.n.sdiv 2 }
    else some { s with i := 3, phase := .test }
  | .test => do
    let square ← mulInt s.i s.i
    some { s with phase := if square.sle s.n then .inner else .remaining }
  | .inner =>
    if s.n.srem s.i = 0 then some { s.put (numText s.i 10) with n := s.n.sdiv s.i }
    else do
      let i ← addInt s.i 2
      some { s with i, phase := .test }
  | .remaining =>
    let s := if (1 : BitVec 32).slt s.n then s.put (numText s.n 10) else s
    some { s with phase := .finished }
  | .finished => some s

def Factoring.done (s : Factoring) : Bool := s.phase = .finished

def Factoring.start (n : BitVec 32) : Factoring :=
  { n, i := 0, printed := false, line := [], phase := .twos }

/-- `if (n < 0) n = -n`. -/
def factorAbs (n : BitVec 32) : Option (BitVec 32) := if n.slt 0 then negInt n else some n

/-- `factor_main` with `n` read: what it prints. -/
def factorMain (fuel : ℕ) (n : BitVec 32) : Option (List UInt8) := do
  let notice := if n.slt 0 then text "Negative number entered. Using absolute value.\n" else []
  let n ← factorAbs n
  if n.sle 1 then
    some (notice ++ text "No prime factors for " ++ numText n 10 ++ text "\n")
  else do
    let s ← turns Factoring.done factorTurn fuel (.start n)
    if s.done then
      some (notice ++ text "Prime factors of " ++ numText n 10 ++ text " are: " ++ s.line ++
        text "\n")
    else none

/-!
## rand

`bin/rand.c`. The state of the generator is the last number it gave. The loop of `rand_main` goes
round as often as it is given fuel, and the model answers `none` if that does not suffice. `argv`
begins with the name of the command.
-/

/-- The new `seed`, which is returned too. -/
def randNext (seed : BitVec 32) : BitVec 32 := (1664525 * seed + 1013904223) &&& 0xFFFFFFFF

/-- The loop over the characters: the value returned, and `*result`. -/
def parseUint32Loop : BitVec 32 → List UInt8 → Bool × BitVec 32
  | result, [] => (true, result)
  | result, c :: str =>
    if c < 48 ∨ c > 57 then (false, result)
    else if result > 0xFFFFFFFF / 10 then (false, result)
    else parseUint32Loop (result * 10 + BitVec.ofNat 32 (c.toNat - 48)) str

def parseUint32 (str : CString) : Bool × BitVec 32 := parseUint32Loop 0 str.bytes

/-- `0xFFFFFFFF / range * range`. -/
def maxAllowed (range : BitVec 32) : BitVec 32 := 0xFFFFFFFF / range * range

/-- The loop that rejects numbers: the number it ends with, which is the new `seed`. -/
def randLoop (maxAllowed : BitVec 32) : ℕ → BitVec 32 → Option (BitVec 32)
  | 0, _ => none
  | fuel + 1, seed =>
    let randomNumber := randNext seed
    if randomNumber ≥ maxAllowed then randLoop maxAllowed fuel randomNumber else some randomNumber

end Unics
