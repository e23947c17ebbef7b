import Unics.Lib.Turns
import Unics.Libc.Numbers
import Unics.Libc.Stdio
import Unics.Libc.Vprintf

/-!
# The two scans

`scanf` and `sscanf` of `lib/libc/stdio.c`. One takes its characters from `getchar` and puts one
back with `ungetc`, the other has them in a string. The pointers are told apart by their order:
`stored` is what is stored at the first, the second and so on. A pointer at which nothing is stored
is the last that is taken.

A `long` has 32 bits, and the arithmetic wraps. A `getchar` that does not return, because it waits
for a key that is not pressed or goes outside its buffer, answers `none`, and so does what calls it.
-/

namespace Unics

open Unics.Lib

/-! ## The console -/

/-- A call of `getchar` that waits takes keys until it returns. -/
def getcharAwait : Stdin → List UInt8 → Option (Option UInt8 × Stdin × List UInt8)
  | _, [] => none
  | s, c :: keys =>
    match getcharTurn s c with
    | none => none
    | some (.reading, s) => getcharAwait s keys
    | some (.returned c, s) => some (c, s, keys)

/-- A call of `getchar`, and the keys that are pressed from then on. -/
def getcharKeys (s : Stdin) (keys : List UInt8) : Option (Option UInt8 × Stdin × List UInt8) :=
  match getcharCall s with
  | none => none
  | some (.reading, s) => getcharAwait s keys
  | some (.returned c, s) => some (c, s, keys)

/-- What `n` calls return, up to one that does not. -/
def getcharAnswers : Nat → Stdin → List UInt8 → List (Option UInt8)
  | 0, _, _ => []
  | n + 1, s, keys =>
    match getcharKeys s keys with
    | none => []
    | some (c, s, keys) => c :: getcharAnswers n s keys

/-- What `getchar` is going to return, and whether the first of it has been put back. -/
structure Console where
  unget : Bool
  answers : List (Option UInt8)
  deriving DecidableEq

/-- The program starts, and then the text is typed. A key is returned once at most. -/
def Console.typed (text : List UInt8) : Console where
  unget := false
  answers := getcharAnswers text.length stdinStart text

def Console.getchar (k : Console) : Option (Option UInt8 × Console) :=
  match k.answers with
  | [] => none
  | c :: answers => some (c, { unget := false, answers })

def Console.ungetc (k : Console) (c : Option UInt8) : Console :=
  if k.unget then k
  else
    match c with
    | none => k
    | some c => { unget := true, answers := some c :: k.answers }

/-! ## What is read of a number -/

def isxdigit (c : UInt8) : Bool :=
  isFormatDigit c || (97 ≤ c && c ≤ 102) || (65 ≤ c && c ≤ 70)

/-- `__tolower`. -/
def scanTolower (c : UInt8) : UInt8 := if 65 ≤ c ∧ c ≤ 90 then c + (97 - 65) else c

def decimalTurn (value : BitVec 32) (c : UInt8) : BitVec 32 :=
  value * 10 + BitVec.ofNat 32 (c.toNat - 48)

def hexTurn (value : BitVec 32) (c : UInt8) : BitVec 32 :=
  if isFormatDigit c then value * 16 + BitVec.ofNat 32 (c.toNat - 48)
  else value * 16 + BitVec.ofNat 32 ((scanTolower c).toNat - 97 + 10)

/-! ## States -/

/-- What is stored at a pointer. The bytes of a string come without their terminator. -/
inductive ScanValue where
  | int (n : BitVec 32)
  | char (c : UInt8)
  | string (bytes : List UInt8)
  deriving DecidableEq

/-- The format and the input that are left. `stopped` stands for `goto scanf_done`, and for
`break`. -/
structure Scan (σ : Type) where
  format : List UInt8
  input : σ
  count : Nat
  stored : List ScanValue
  stopped : Bool
  deriving DecidableEq

section States

variable {σ : Type}

def scanStart (format : CString) (input : σ) : Scan σ where
  format := format.bytes
  input := input
  count := 0
  stored := []
  stopped := false

def Scan.stop (s : Scan σ) (input : σ) : Scan σ := { s with input, stopped := true }

/-- A value is stored, and counted. -/
def Scan.store (s : Scan σ) (value : ScanValue) (input : σ) : Scan σ :=
  { s with input, count := s.count + 1, stored := s.stored ++ [value] }

end States

/-! ## `scanf` -/

section Scanf

/-- `while (p(c)) { … c = getchar(); }`, where the first character is `c` already. The answer is
what has been made of the characters, and the character behind them. -/
def scanfWhile {α : Type} (p : UInt8 → Bool) (turn : α → UInt8 → α) :
    α → List (Option UInt8) → Option (α × Option UInt8 × Console)
  | _, [] => none
  | a, none :: answers => some (a, none, { unget := false, answers })
  | a, some c :: answers =>
    if p c then scanfWhile p turn (turn a c) answers
    else some (a, some c, { unget := false, answers })

/-- `while (__isspace((c = getchar()))) {}`. -/
def skipSpace (k : Console) : Option (Option UInt8 × Console) := do
  let (_, c, k) ← scanfWhile isspace (fun u _ => u) () k.answers
  some (c, k)

/-- The digits from `c` on. There is no number if `c` is none. -/
def scanfNumber (digit : UInt8 → Bool) (turn : BitVec 32 → UInt8 → BitVec 32) (c : Option UInt8)
    (k : Console) : Option (Option (BitVec 32) × Console) :=
  if c.any digit then do
    let (value, c, k) ← scanfWhile digit turn 0 (c :: k.answers)
    some (some value, k.ungetc c)
  else some (none, k.ungetc c)

/-- `%d` and `%i`. -/
def scanfInt (k : Console) : Option (Option (BitVec 32) × Console) := do
  let (c, k) ← k.getchar
  if c = some 45 then do
    let (c, k) ← k.getchar
    let (value, k) ← scanfNumber isFormatDigit decimalTurn c k
    some (value.map (· * -1), k)
  else if c = some 43 then do
    let (c, k) ← k.getchar
    scanfNumber isFormatDigit decimalTurn c k
  else scanfNumber isFormatDigit decimalTurn c k

/-- `%u`. -/
def scanfUint (k : Console) : Option (Option (BitVec 32) × Console) := do
  let (c, k) ← k.getchar
  scanfNumber isFormatDigit decimalTurn c k

/-- `%x`. -/
def scanfHex (k : Console) : Option (Option (BitVec 32) × Console) := do
  let (c, k) ← k.getchar
  if c = some 48 then do
    let (x, k) ← k.getchar
    if x = some 120 ∨ x = some 88 then do
      let (c, k) ← k.getchar
      scanfNumber isxdigit hexTurn c k
    else scanfNumber isxdigit hexTurn (some 48) (k.ungetc x)
  else scanfNumber isxdigit hexTurn c k

/-- The destination is cleared first, so that zero stays there if there is no number. -/
def Scan.number (s : Scan Console) : Option (BitVec 32) × Console → Scan Console
  | (some n, k) => s.store (.int n) k
  | (none, k) => { s with input := k, stored := s.stored ++ [.int 0], stopped := true }

/-- A directive, from its letter on. -/
def scanfConv (s : Scan Console) : Option (Scan Console) :=
  match s.format with
  | [] => some (s.stop s.input)
  | letter :: format =>
    let s := { s with format }
    if letter = 100 ∨ letter = 105 then (scanfInt s.input).map s.number
    else if letter = 117 then (scanfUint s.input).map s.number
    else if letter = 120 ∨ letter = 88 then (scanfHex s.input).map s.number
    else if letter = 99 then do
      let (c, k) ← s.input.getchar
      match c with
      | none => some (s.stop k)
      | some c => some (s.store (.char c) k)
    else if letter = 115 then do
      let (c, k) ← skipSpace s.input
      if c = none then some (s.stop k)
      else do
        let (bytes, c, k) ← scanfWhile (fun c => !isspace c) (fun bytes c => bytes ++ [c]) []
          (c :: k.answers)
        some (s.store (.string bytes) (k.ungetc c))
    else if letter = 37 then do
      let (c, k) ← s.input.getchar
      if c = some 37 then some { s with input := k } else some (s.stop (k.ungetc c))
    else some (s.stop s.input)

/-- The length modifier. -/
def scanfLength (format : List UInt8) : List UInt8 :=
  if format.head? = some 108 ∨ format.head? = some 104 then format.tail else format

def scanfTurn (s : Scan Console) : Option (Scan Console) :=
  match s.format.dropWhile isspace with
  | [] => do
    -- `*format` is the terminator now; were it matched, the loop would go on behind it
    let (c, k) ← s.input.getchar
    if c = some 0 then none else some ({ s with format := [] }.stop (k.ungetc c))
  | x :: format =>
    if x = 37 then do
      let (c, k) ← skipSpace s.input
      scanfConv { s with format := scanfLength format, input := k.ungetc c }
    else do
      let (c, k) ← s.input.getchar
      -- `EOF` is as large as the character 0xFF
      if c.getD eof = x then some { s with format, input := k }
      else some ({ s with format := x :: format }.stop (k.ungetc c))

/-- `while (*format)`. -/
def scanfDone (s : Scan Console) : Bool := s.stopped || s.format.isEmpty

/-- A turn that goes on takes a character of the format at least. -/
def scanf (format : CString) (k : Console) : Option (Scan Console) :=
  turns scanfDone scanfTurn format.bytes.length (scanStart format k)

end Scanf

/-! ## `sscanf` -/

section Sscanf

/-- `while (p(str[i]) && (width == 0 || n < width)) { … i++; n++; }`. -/
def sscanfWhile {α : Type} (p : UInt8 → Bool) (turn : α → UInt8 → α) (width : BitVec 32) :
    Nat → α → List UInt8 → Nat × α × List UInt8
  | n, a, [] => (n, a, [])
  | n, a, c :: str =>
    if p c ∧ (width = 0 ∨ (n : Int) < width.toInt) then
      sscanfWhile p turn width (n + 1) (turn a c) str
    else (n, a, c :: str)

/-- The digits. There is no number without one. -/
def sscanfNumber (digit : UInt8 → Bool) (turn : BitVec 32 → UInt8 → BitVec 32) (width : BitVec 32)
    (str : List UInt8) : Option (BitVec 32) × List UInt8 :=
  let (digits, num, str) := sscanfWhile digit turn width 0 0 str
  (if digits = 0 then none else some num, str)

/-- `%d` and `%i`. It takes a sign as `strtol` does. -/
def sscanfInt (width : BitVec 32) (str : List UInt8) : Option (BitVec 32) × List UInt8 :=
  let (sign, str) := strtolSign (str.dropWhile isspace)
  let (num, str) := sscanfNumber isFormatDigit decimalTurn width str
  (num.map (· * BitVec.ofInt 32 sign), str)

/-- `%u`. -/
def sscanfUint (width : BitVec 32) (str : List UInt8) : Option (BitVec 32) × List UInt8 :=
  sscanfNumber isFormatDigit decimalTurn width (str.dropWhile isspace)

/-- `%x`. It goes over a prefix as `strtol` does. -/
def sscanfHex (width : BitVec 32) (str : List UInt8) : Option (BitVec 32) × List UInt8 :=
  let str := str.dropWhile isspace
  sscanfNumber isxdigit hexTurn width ((strtolPrefix str).getD str)

/-- The destination is left alone if there is no number. -/
def Scan.numberIn (s : Scan (List UInt8)) : Option (BitVec 32) × List UInt8 → Scan (List UInt8)
  | (some n, str) => s.store (.int n) str
  | (none, str) => s.stop str

/-- A directive, from its letter on. -/
def sscanfConv (width : BitVec 32) (s : Scan (List UInt8)) : Scan (List UInt8) :=
  match s.format with
  | [] => s.stop s.input
  | letter :: format =>
    let s : Scan (List UInt8) := { s with format }
    if letter = 100 ∨ letter = 105 then s.numberIn (sscanfInt width s.input)
    else if letter = 117 then s.numberIn (sscanfUint width s.input)
    else if letter = 120 ∨ letter = 88 then s.numberIn (sscanfHex width s.input)
    else if letter = 99 then
      match s.input with
      | [] => s.stop []
      | c :: str => s.store (.char c) str
    else if letter = 115 then
      let (chars, bytes, str) := sscanfWhile (fun c => !isspace c) (fun bytes c => bytes ++ [c])
        width 0 [] (s.input.dropWhile isspace)
      if chars = 0 then s.stop str else s.store (.string bytes) str
    else if letter = 37 then
      if s.input.head? = some 37 then { s with input := s.input.tail } else s.stop s.input
    else s.stop s.input

def sscanfTurn (s : Scan (List UInt8)) : Scan (List UInt8) :=
  match s.format.dropWhile isspace with
  | [] => { s with format := [] }.stop s.input
  | x :: format =>
    if x = 37 then sscanfConv (parseDigits 0 format).1 { s with format := (parseDigits 0 format).2 }
    else if s.input.head? = some x then { s with format, input := s.input.tail }
    else { s with format := x :: format }.stop s.input

/-- `while (*format && str[i])`. -/
def sscanfDone (s : Scan (List UInt8)) : Bool := s.stopped || s.format.isEmpty || s.input.isEmpty

def sscanf (str format : CString) : Option (Scan (List UInt8)) :=
  turns sscanfDone (fun s => some (sscanfTurn s)) format.bytes.length (scanStart format str.bytes)

end Sscanf

end Unics
