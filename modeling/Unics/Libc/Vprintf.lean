import Mathlib.Data.Stream.Init
import Unics.Lib.Turns
import Unics.Libc.Printf

/-!
# Formatted output to the screen

`vprintf` of `lib/libc/stdio.c`: flags, width, precision and length of a directive, and what each
conversion passes to `vga_putchar` and adds to `chars_written`. An `int` wraps.

The arguments are the words of the stack, of which a `va_arg` takes the next one or, for a `double`,
the next two. A word behind the last argument is there as any other. `text` is the string at an
address, and `fixed` the fixed-point text of a `double`, whose arithmetic is not modelled.

A directive that the terminator ends is printed with the terminator for a letter, and `ptr` steps
over it. The model answers `none` there.
-/

namespace Unics

open Unics.Lib

abbrev VaList : Type := Stream' (BitVec 32)

/-! ## Helpers -/

/-- `(int)__strlen(str)`. -/
def strlenInt (str : List UInt8) : BitVec 32 := BitVec.ofNat 32 str.length

/-- `__pad_output`. -/
def padOutput (count : BitVec 32) (padChar : UInt8) : List UInt8 :=
  List.replicate count.toInt.toNat padChar

/-- `if (precision >= 0 && len > precision) len = precision`. -/
def cutLen (len precision : BitVec 32) : BitVec 32 :=
  if precision.toInt ≥ 0 ∧ len.toInt > precision.toInt then precision else len

/-- `__output_with_format`. -/
def outputWithFormat (str : List UInt8) (width precision : BitVec 32) (leftAlign zeroPad : Bool) :
    List UInt8 :=
  let len := cutLen (strlenInt str) precision
  let padCount := if width.toInt > len.toInt then width - len else 0
  let padChar : UInt8 := if zeroPad ∧ ¬ leftAlign then 48 else 32
  (if ¬ leftAlign ∧ padCount.toInt > 0 then padOutput padCount padChar else []) ++
    str.take len.toInt.toNat ++
    (if leftAlign ∧ padCount.toInt > 0 then padOutput padCount 32 else [])

/-! ## The parts of a directive -/

structure Flags where
  leftAlign : Bool
  zeroPad : Bool
  showSign : Bool
  spacePad : Bool
  alternate : Bool
  deriving DecidableEq

def Flags.none : Flags :=
  { leftAlign := false, zeroPad := false, showSign := false, spacePad := false, alternate := false }

/-- `-`, `0`, `+`, ` ` and `#`. -/
def isFlag (c : UInt8) : Bool := c = 45 || c = 48 || c = 43 || c = 32 || c = 35

def Flags.set (flags : Flags) (c : UInt8) : Flags :=
  if c = 45 then { flags with leftAlign := true }
  else if c = 48 then { flags with zeroPad := flags.zeroPad || !flags.leftAlign }
  else if c = 43 then { flags with showSign := true }
  else if c = 32 then { flags with spacePad := true }
  else { flags with alternate := true }

def parseFlags : Flags → List UInt8 → Flags × List UInt8
  | flags, [] => (flags, [])
  | flags, c :: ptr => if isFlag c then parseFlags (flags.set c) ptr else (flags, c :: ptr)

/-- `width = width * 10 + (*ptr - '0')`, as long as there are digits. -/
def parseDigits : BitVec 32 → List UInt8 → BitVec 32 × List UInt8
  | num, [] => (num, [])
  | num, c :: ptr =>
    if isFormatDigit c then parseDigits (num * 10 + BitVec.ofNat 32 (c.toNat - 48)) ptr
    else (num, c :: ptr)

/-- What stands between a `%` and the letter of the conversion. -/
structure Directive where
  flags : Flags
  width : BitVec 32
  precision : BitVec 32
  deriving DecidableEq

/-- The width, `*` or digits. A negative argument aligns to the left. -/
def parseWidth (flags : Flags) (ptr : List UInt8) (args : VaList) :
    Flags × BitVec 32 × List UInt8 × VaList :=
  if ptr.head? = some 42 then
    let width := args.head
    if width.toInt < 0 then
      ({ flags with leftAlign := true }, -width, ptr.tail, args.tail)
    else (flags, width, ptr.tail, args.tail)
  else
    let (width, ptr) := parseDigits 0 ptr
    (flags, width, ptr, args)

/-- The precision, -1 where there is none or the argument is negative. -/
def parsePrecision (ptr : List UInt8) (args : VaList) : BitVec 32 × List UInt8 × VaList :=
  if ptr.head? = some 46 then
    let ptr := ptr.tail
    if ptr.head? = some 42 then
      let precision := args.head
      (if precision.toInt < 0 then -1 else precision, ptr.tail, args.tail)
    else
      let (precision, ptr) := parseDigits 0 ptr
      (precision, ptr, args)
  else (-1, ptr, args)

/-- `l` or `h`. A `long` has the size of an `int`. -/
def parseLength (ptr : List UInt8) : List UInt8 :=
  if ptr.head? = some 108 then ptr.tail
  else if ptr.head? = some 104 then ptr.tail
  else ptr

def parseDirective (ptr : List UInt8) (args : VaList) : Directive × List UInt8 × VaList :=
  let (flags, ptr) := parseFlags Flags.none ptr
  let (flags, width, ptr, args) := parseWidth flags ptr args
  let (precision, ptr, args) := parsePrecision ptr args
  ({ flags, width, precision }, parseLength ptr, args)

/-! ## The conversions -/

/-- What is passed to `vga_putchar`, and what is added to `chars_written`. -/
structure Field where
  out : List UInt8
  counted : BitVec 32
  deriving DecidableEq

namespace Directive

variable (d : Directive)

/-- `__output_with_format`, and then `width > (int)__strlen(str) ? width : (int)__strlen(str)`. -/
def putText (str : List UInt8) : Field where
  out := outputWithFormat str d.width d.precision d.flags.leftAlign d.flags.zeroPad
  counted := if d.width.toInt > (strlenInt str).toInt then d.width else strlenInt str

/-- `%zu`, which compares the width as a `size_t`. -/
def putSize (num : BitVec 32) : Field :=
  let str := numText num 10
  { out := outputWithFormat str d.width d.precision d.flags.leftAlign d.flags.zeroPad
    counted := if d.width.toNat > str.length then d.width else strlenInt str }

/-- `%s`. -/
def putString (s : List UInt8) : Field :=
  let len := cutLen (strlenInt s) d.precision
  { out := outputWithFormat s d.width d.precision d.flags.leftAlign false
    counted := if d.width.toInt > len.toInt then d.width else len }

/-- The sign of a number, if one is printed. -/
def signChar (num : BitVec 32) : Option UInt8 :=
  if num.toInt < 0 then some 45
  else if d.flags.showSign then some 43
  else if d.flags.spacePad then some 32
  else none

/-- `%d` and `%i`. -/
def putSigned (num : BitVec 32) : Field :=
  let str := numText (if num.toInt < 0 then -num else num) 10
  match d.signChar num with
  | some c =>
    if d.flags.zeroPad ∧ ¬ d.flags.leftAlign ∧ d.width.toInt > 0 then
      { out := c :: (padOutput (d.width - strlenInt str - 1) 48 ++ str), counted := d.width }
    else d.putText (c :: str)
  | none => d.putText str

/-- `%x` and `%X`. -/
def putHex (num : BitVec 32) : Field :=
  let str := numText num 16
  let len := strlenInt str
  let prefixed : Bool := d.flags.alternate ∧ num ≠ 0
  let width := if prefixed then d.width - 2 else d.width
  let zeros :=
    if d.precision.toInt ≥ 0 ∧ d.precision.toInt > len.toInt then d.precision - len
    else if d.flags.zeroPad ∧ ¬ d.flags.leftAlign ∧ width.toInt > len.toInt then width - len
    else 0
  let spaces := if d.flags.leftAlign ∧ width.toInt > len.toInt then width - len else 0
  { out := (if prefixed then [48, 120] else []) ++ padOutput zeros 48 ++ str ++ padOutput spaces 32
    counted := (if prefixed then 2 else 0) + zeros + len + spaces }

/-- `%o`. -/
def putOctal (num : BitVec 32) : Field :=
  let str := numText num 8
  d.putText (if d.flags.alternate ∧ num ≠ 0 then 48 :: str else str)

/-- `%c`. -/
def putCharacter (num : BitVec 32) : Field :=
  let c := UInt8.ofBitVec (num.setWidth 8)
  if d.width.toInt > 1 then
    { out := if d.flags.leftAlign then c :: padOutput (d.width - 1) 32
        else padOutput (d.width - 1) 32 ++ [c]
      counted := d.width }
  else { out := [c], counted := 1 }

end Directive

/-- `%p`. -/
def putPointer (num : BitVec 32) : Field :=
  let str := numText num 16
  { out := [48, 120] ++ str, counted := 2 + strlenInt str }

section Memory

variable (text : BitVec 32 → CString) (fixed : BitVec 64 → CString)

/-- What a `%s` prints. -/
def stringAt (s : BitVec 32) : List UInt8 := if s = 0 then nullText else (text s).bytes

/-- The switch of `vprintf`. `ptr` is behind the letter. -/
def vprintfConv (d : Directive) (c : UInt8) (ptr : List UInt8) (args : VaList) :
    Field × List UInt8 × VaList :=
  if c = 122 then
    if ptr.head? = some 117 then (d.putSize args.head, ptr.tail, args.tail)
    else ({ out := [], counted := 0 }, ptr, args)
  else if c = 115 then (d.putString (stringAt text args.head), ptr, args.tail)
  else if c = 100 ∨ c = 105 then (d.putSigned args.head, ptr, args.tail)
  else if c = 120 ∨ c = 88 then (d.putHex args.head, ptr, args.tail)
  else if c = 111 then (d.putOctal args.head, ptr, args.tail)
  else if c = 102 ∨ c = 70 then
    (d.putText (fixed (args.tail.head ++ args.head)).bytes, ptr, args.tail.tail)
  else if c = 99 then (d.putCharacter args.head, ptr, args.tail)
  else if c = 117 then (d.putText (numText args.head 10), ptr, args.tail)
  else if c = 112 then (putPointer args.head, ptr, args.tail)
  else if c = 37 then ({ out := [37], counted := 1 }, ptr, args)
  else ({ out := [37, c], counted := 2 }, ptr, args)

/-! ## The loop -/

/-- Where `vprintf` is. -/
structure Vprintf where
  ptr : List UInt8
  args : VaList
  out : List UInt8
  charsWritten : BitVec 32

/-- A turn of the loop: a directive or a literal character. -/
def vprintfTurn (s : Vprintf) : Option Vprintf :=
  match s.ptr with
  | [] => none
  | c :: ptr =>
    if c = 37 ∧ ptr ≠ [] then
      let (d, ptr, args) := parseDirective ptr s.args
      match ptr with
      | [] => none
      | c :: ptr =>
        let (field, ptr, args) := vprintfConv text fixed d c ptr args
        some { ptr, args, out := s.out ++ field.out,
               charsWritten := s.charsWritten + field.counted }
    else
      some { s with ptr, out := s.out ++ [c], charsWritten := s.charsWritten + 1 }

/-- `*ptr == '\0'`. -/
def Vprintf.done (s : Vprintf) : Bool := s.ptr = []

/-- Before the first turn. -/
def Vprintf.start (format : CString) (args : VaList) : Vprintf :=
  { ptr := format.bytes, args, out := [], charsWritten := 0 }

/-- `vprintf`: what it leaves. The loop takes at most as many turns as the format is long. -/
def vprintf (format : CString) (args : VaList) : Option Vprintf :=
  turns Vprintf.done (vprintfTurn text fixed) format.bytes.length (.start format args)

/-- The value returned. -/
def Vprintf.ret (s : Vprintf) : Int := s.charsWritten.toInt

end Memory

end Unics
