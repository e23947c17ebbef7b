import Mathlib.Logic.Function.Basic
import Unics.Types
import Unics.Libc.CString

/-!
# The VGA text screen

`usr/drivers/vga.c`. `VGA_WIDTH` is 80, `VGA_HEIGHT` 25 and `VGA_TAB_WIDTH` 4. The `int` coordinates
are integers, so the model is the code as long as their sums fit in an `int`.

Accesses to the text buffer are checked: one at a negative index or at 2000 or beyond answers
`none`. The two CRTC registers that hold the hardware cursor are one field.
-/

namespace Unics

/-- The driver's variables, the video memory and the cursor of the hardware. -/
structure Vga where
  row : Nat
  column : Nat
  color : UInt8
  /-- `vga_buffer` is not null. It points to the video memory then. -/
  buffer : Bool
  memory : Nat → UInt16
  cursor : UInt16

def vgaEntryColor (fg bg : UInt32) : UInt8 := (fg ||| bg <<< 4).toUInt8

structure VgaAttr where
  blink : Bool
  bright : Bool
  deriving DecidableEq, Repr

def vgaEntryColorAttr (fg bg : UInt32) (attr : VgaAttr) : UInt8 :=
  let color := (fg ||| bg <<< 4).toUInt8
  let color := if attr.blink then color ||| 0x80 else color
  if attr.bright ∧ fg < 8 then color ||| 0x08 else color

def vgaEntry (uc : UInt8) (color : UInt8) : UInt16 := uc.toUInt16 ||| color.toUInt16 <<< 8

/-- `VGA_COLOR_DEFAULT`. -/
def vgaColorDefault : UInt8 := 7

/-- The values of `i` in `for (i = start; i < stop; i++)`. -/
def upTo (start stop : Int) : List Int :=
  (List.range (stop - start).toNat).map fun i : Nat => start + i

/-! ## Accesses -/

namespace Vga

/-- `vga_buffer[i] = entry`. -/
def store (vga : Vga) (i : Int) (entry : UInt16) : Option Vga :=
  if 0 ≤ i ∧ i < 2000 then some { vga with memory := Function.update vga.memory i.toNat entry }
  else none

/-- `memmove(vga_buffer + dest, vga_buffer + src, 2 * n)`. -/
def memmove (vga : Vga) (dest src n : Int) : Option Vga :=
  if 0 ≤ dest ∧ 0 ≤ src ∧ 0 ≤ n ∧ dest + n ≤ 2000 ∧ src + n ≤ 2000 then
    some { vga with
      memory := fun i =>
        if dest ≤ i ∧ i < dest + n then vga.memory (i - dest + src).toNat else vga.memory i }
  else none

/-- The blank of the current colour. -/
def blank (vga : Vga) : UInt16 := vgaEntry 32 vga.color

/-- Blanks in one line. -/
def clearLine (vga : Vga) (line : Int) : Option Vga :=
  (upTo 0 80).foldlM (fun vga col => vga.store (line * 80 + col) vga.blank) vga

end Vga

/-! ## Cursor and colour -/

def vgaBoundsCheck (x y : Int) : Bool := 0 ≤ x ∧ x < 80 ∧ 0 ≤ y ∧ y < 25

def vgaUpdateCursor (vga : Vga) (x y : Int) : Vga :=
  if ¬ vga.buffer then vga
  else if ¬ vgaBoundsCheck x y then vga
  else
    { vga with
      column := x.toNat
      row := y.toNat
      cursor := UInt16.ofNat (y * 80 + x).toNat }

def vgaMoveCursor (vga : Vga) (x y : Int) : Vga :=
  if vgaBoundsCheck x y then
    vgaUpdateCursor { vga with column := x.toNat, row := y.toNat } x y
  else vga

def vgaSetColor (vga : Vga) (fg bg : UInt32) : Vga := { vga with color := vgaEntryColor fg bg }

def vgaSetColorAttr (vga : Vga) (fg bg : UInt32) (attr : VgaAttr) : Vga :=
  { vga with color := vgaEntryColorAttr fg bg attr }

/-! ## The whole screen -/

def vgaClear (vga : Vga) : Option Vga :=
  if ¬ vga.buffer then some vga
  else do
    let vga ← (upTo 0 2000).foldlM (fun vga i => vga.store i vga.blank) vga
    some (vgaUpdateCursor { vga with row := 0, column := 0 } 0 0)

/-- `vga_enable_cursor` writes the cursor's shape to the hardware and nothing that is modelled. -/
def vgaInitialize (vga : Vga) : Option Vga :=
  vgaClear { vga with color := vgaColorDefault, buffer := true, row := 0, column := 0 }

/-- `vga_scroll_internal`. -/
def vgaScrollInternal (vga : Vga) (lines : Int) : Option Vga :=
  if ¬ vga.buffer ∨ lines ≤ 0 then some vga
  else if 25 ≤ lines then vgaClear vga
  else do
    let vga ← vga.memmove 0 (80 * lines) (80 * (25 - lines))
    let vga ← (upTo (25 - lines) 25).foldlM Vga.clearLine vga
    some (if lines ≤ vga.row then { vga with row := vga.row - lines.toNat }
      else { vga with row := 0, column := 0 })

def vgaScrollUp (vga : Vga) (lines : Int) : Option Vga := do
  let vga ← vgaScrollInternal vga lines
  some (vgaUpdateCursor vga vga.column vga.row)

def vgaScrollDown (vga : Vga) (lines : Int) : Option Vga :=
  if ¬ vga.buffer ∨ lines ≤ 0 then some vga
  else if 25 ≤ lines then vgaClear vga
  else do
    let vga ← vga.memmove (80 * lines) 0 (80 * (25 - lines))
    let vga ← (upTo 0 lines).foldlM Vga.clearLine vga
    let vga := { vga with row := if vga.row + lines.toNat < 25 then vga.row + lines.toNat else 24 }
    some (vgaUpdateCursor vga vga.column vga.row)

def vgaDeleteLine (vga : Vga) (y : Int) : Option Vga :=
  if ¬ vga.buffer ∨ y < 0 ∨ 25 ≤ y then some vga
  else do
    let vga ←
      (if y < 24 then vga.memmove (y * 80) ((y + 1) * 80) (80 * (25 - y - 1)) else some vga)
    vga.clearLine 24

def vgaInsertLine (vga : Vga) (y : Int) : Option Vga :=
  if ¬ vga.buffer ∨ y < 0 ∨ 25 ≤ y then some vga
  else do
    let vga ←
      (if y < 24 then vga.memmove ((y + 1) * 80) (y * 80) (80 * (25 - y - 1)) else some vga)
    vga.clearLine y

/-! ## Characters -/

/-- `if (++vga_row >= VGA_HEIGHT) vga_scroll_internal(1);` -/
def Vga.nextRow (vga : Vga) : Option Vga :=
  let vga := { vga with row := vga.row + 1 }
  if 25 ≤ vga.row then vgaScrollInternal vga 1 else some vga

/-- `vga_buffer[vga_row * VGA_WIDTH + vga_column] = entry` -/
def Vga.storeHere (vga : Vga) (entry : UInt16) : Option Vga :=
  vga.store (vga.row * 80 + vga.column) entry

/-- The `switch` of `vga_putchar`. -/
def Vga.put (vga : Vga) (c : UInt8) : Option Vga :=
  if c = 10 then Vga.nextRow { vga with column := 0 }
  else if c = 13 then some { vga with column := 0 }
  else if c = 8 then
    let vga :=
      if 0 < vga.column then { vga with column := vga.column - 1 }
      else if 0 < vga.row then { vga with row := vga.row - 1, column := 79 }
      else vga
    vga.storeHere vga.blank
  else if c = 9 then do
    -- `& ~3` rounds down to a multiple of four
    let nextTab := (vga.column + 4) / 4 * 4
    let vga ← (List.range' vga.column (min nextTab 80 - vga.column)).foldlM
      (fun vga _ => do
        let vga ← vga.storeHere vga.blank
        some { vga with column := vga.column + 1 })
      vga
    if 80 ≤ vga.column then Vga.nextRow { vga with column := 0 } else some vga
  else if 32 ≤ c ∧ c ≤ 126 then do
    let vga ← vga.storeHere (vgaEntry c vga.color)
    let vga := { vga with column := vga.column + 1 }
    if 80 ≤ vga.column then Vga.nextRow { vga with column := 0 } else some vga
  else some vga

def vgaPutchar (vga : Vga) (c : UInt8) : Option Vga :=
  if ¬ vga.buffer then some vga
  else do
    let vga ← vga.put c
    some (vgaUpdateCursor vga vga.column vga.row)

/-- `vga_puts`. -/
def vgaPuts (vga : Vga) : Option CString → Option Vga
  | none => some vga
  | some str => str.bytes.foldlM vgaPutchar vga

/-! ## Places -/

def vgaPutcharAt (vga : Vga) (c : UInt8) (x y : Int) : Option Vga :=
  if ¬ vga.buffer then some vga
  else if vgaBoundsCheck x y then vga.store (y * 80 + x) (vgaEntry c vga.color)
  else some vga

/-- The loop of `vga_puts_at`. -/
def vgaPutsAtLoop (origX : Int) (vga : Vga) (x y : Int) : List UInt8 → Option Vga
  | [] => some vga
  | c :: str =>
    if 25 ≤ y then some vga
    else if c = 10 then vgaPutsAtLoop origX vga origX (y + 1) str
    else if vgaBoundsCheck x y then do
      let vga ← vgaPutcharAt vga c x y
      vgaPutsAtLoop origX vga (x + 1) y str
    else vgaPutsAtLoop origX vga x y str

def vgaPutsAt (vga : Vga) (str : Option CString) (x y : Int) : Option Vga :=
  match str with
  | none => some vga
  | some str => if ¬ vga.buffer then some vga else vgaPutsAtLoop x vga x y str.bytes

/-- `if (vga_bounds_check(x, y)) vga_buffer[y * VGA_WIDTH + x] = entry;` -/
def Vga.storeAt (vga : Vga) (x y : Int) (entry : UInt16) : Option Vga :=
  if vgaBoundsCheck x y then vga.store (y * 80 + x) entry else some vga

/-- The two loops over an area. -/
def Vga.area (vga : Vga) (x y width height : Int) (entry : UInt16) : Option Vga :=
  (upTo y (min (y + height) 25)).foldlM
    (fun vga row =>
      (upTo x (min (x + width) 80)).foldlM (fun vga col => vga.storeAt col row entry) vga)
    vga

def vgaClearArea (vga : Vga) (x y width height : Int) : Option Vga :=
  if ¬ vga.buffer then some vga else vga.area x y width height vga.blank

def vgaFillArea (vga : Vga) (x y width height : Int) (c color : UInt8) : Option Vga :=
  if ¬ vga.buffer then some vga else vga.area x y width height (vgaEntry c color)

def vgaDrawBox (vga : Vga) (x y width height : Int) (color : UInt8) : Option Vga :=
  if ¬ vga.buffer ∨ width < 2 ∨ height < 2 then some vga
  else do
    -- the top and bottom edges, `+` in the corners and `-` between them
    let vga ← (upTo x (x + width)).foldlM
      (fun vga col => do
        let c := if col = x ∨ col = x + width - 1 then 43 else 45
        let vga ← vga.storeAt col y (vgaEntry c color)
        vga.storeAt col (y + height - 1) (vgaEntry c color))
      vga
    (upTo (y + 1) (y + height - 1)).foldlM
      (fun vga row => do
        let vga ← vga.storeAt x row (vgaEntry 124 color)
        vga.storeAt (x + width - 1) row (vgaEntry 124 color))
      vga

/-! ## Calls -/

/-- A call of the driver, with its arguments. -/
inductive VgaCall where
  | putchar (c : UInt8)
  | puts (str : Option CString)
  | clear
  | clearArea (x y width height : Int)
  | fillArea (x y width height : Int) (c color : UInt8)
  | drawBox (x y width height : Int) (color : UInt8)
  | putsAt (str : Option CString) (x y : Int)
  | putcharAt (c : UInt8) (x y : Int)
  | moveCursor (x y : Int)
  | updateCursor (x y : Int)
  | scrollUp (lines : Int)
  | scrollDown (lines : Int)
  | insertLine (y : Int)
  | deleteLine (y : Int)
  | setColor (fg bg : UInt32)
  | setColorAttr (fg bg : UInt32) (attr : VgaAttr)

/-- What a call does. -/
def VgaCall.run (vga : Vga) : VgaCall → Option Vga
  | putchar c => vgaPutchar vga c
  | puts str => vgaPuts vga str
  | clear => vgaClear vga
  | clearArea x y width height => vgaClearArea vga x y width height
  | fillArea x y width height c color => vgaFillArea vga x y width height c color
  | drawBox x y width height color => vgaDrawBox vga x y width height color
  | putsAt str x y => vgaPutsAt vga str x y
  | putcharAt c x y => vgaPutcharAt vga c x y
  | moveCursor x y => some (vgaMoveCursor vga x y)
  | updateCursor x y => some (vgaUpdateCursor vga x y)
  | scrollUp lines => vgaScrollUp vga lines
  | scrollDown lines => vgaScrollDown vga lines
  | insertLine y => vgaInsertLine vga y
  | deleteLine y => vgaDeleteLine vga y
  | setColor fg bg => some (vgaSetColor vga fg bg)
  | setColorAttr fg bg attr => some (vgaSetColorAttr vga fg bg attr)

/-- A step of a run: no call follows an access outside the buffer. -/
def vgaStep (vga : Option Vga) (call : VgaCall) : Option Vga := vga.bind call.run

end Unics
