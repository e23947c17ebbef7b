import Mathlib.Data.List.Basic
import Unics.Types

/-!
# The keyboard

`dev/keyboard/keyboard.c`. The keyboard controller answers `inb`, and what it answers is not ours to
say: it may depend on how often it was asked before and on the port. A scancode is there when bit 0
of the status port is set, and the data port then holds it.

`kb_getchar` waits for a character. A turn of its outer loop is one look at the status port, and a
scancode if there is one.
-/

namespace Unics

/-- `kb_state_t`. -/
structure KbState where
  shiftPressed : Bool
  ctrlPressed : Bool
  altPressed : Bool
  capsLock : Bool
  numLock : Bool
  scrollLock : Bool
  inputEnabled : Bool
  bootComplete : Bool
  leftShiftPressed : Bool
  rightShiftPressed : Bool
  leftCtrlPressed : Bool
  rightCtrlPressed : Bool
  leftAltPressed : Bool
  rightAltPressed : Bool
  extendedScancode : Bool
  deriving DecidableEq, Repr

/-- `kb_state_t` with all its bytes zero. -/
def KbState.zero : KbState :=
  ⟨false, false, false, false, false, false, false, false, false, false, false, false, false,
    false, false⟩

/-- `kb_state`, how many times `inb` was called, and what `outb` wrote, the first one first. -/
structure Kb where
  state : KbState
  reads : Nat
  writes : List (UInt16 × UInt8)

/-- What `inb` answers, for the number of its calls before and the port. -/
abbrev KbController := Nat → UInt16 → UInt8

/-- `KB_DATA_PORT`. -/
def kbDataPort : UInt16 := 0x60

/-- `KB_STATUS_PORT`, which is `KB_CMD_PORT` too. -/
def kbStatusPort : UInt16 := 0x64

def Kb.inb (hw : KbController) (kb : Kb) (port : UInt16) : UInt8 × Kb :=
  (hw kb.reads port, { kb with reads := kb.reads + 1 })

def Kb.outb (kb : Kb) (port : UInt16) (value : UInt8) : Kb :=
  { kb with writes := kb.writes ++ [(port, value)] }

/-! ## LEDs -/

section Controller

variable (hw : KbController)

/-- `max_retries`. -/
def kbMaxRetries : Nat := 10000

def waitInputBufferEmpty : Nat → Kb → Bool × Kb
  | 0, kb => (false, kb)
  | retries + 1, kb =>
    let (status, kb) := kb.inb hw kbStatusPort
    if status &&& 0x02 = 0 then (true, kb) else waitInputBufferEmpty retries kb

def waitForAck : Nat → Kb → Bool × Kb
  | 0, kb => (false, kb)
  | retries + 1, kb =>
    let (status, kb) := kb.inb hw kbStatusPort
    if status &&& 0x01 ≠ 0 then
      let (data, kb) := kb.inb hw kbDataPort
      if data = 0xFA then (true, kb) else waitForAck retries kb
    else waitForAck retries kb

def kbSetLeds (kb : Kb) (ledState : UInt8) : Kb :=
  let leds := ledState &&& 0x07
  let (ready, kb) := waitInputBufferEmpty hw kbMaxRetries kb
  if ¬ ready then kb
  else
    let kb := kb.outb kbStatusPort 0xED
    let (ack, kb) := waitForAck hw kbMaxRetries kb
    if ¬ ack then kb
    else
      let (ready, kb) := waitInputBufferEmpty hw kbMaxRetries kb
      if ¬ ready then kb
      else
        let kb := kb.outb kbDataPort leds
        let (ack, kb) := waitForAck hw kbMaxRetries kb
        if ¬ ack then kb
        else
          { kb with
            state := { kb.state with
              capsLock := leds &&& 0x04 ≠ 0
              numLock := leds &&& 0x02 ≠ 0
              scrollLock := leds &&& 0x01 ≠ 0 } }

/-- The LEDs of the locks. -/
def KbState.leds (state : KbState) : UInt8 :=
  (if state.capsLock then 0x04 else 0) ||| (if state.numLock then 0x02 else 0) |||
    if state.scrollLock then 0x01 else 0

def updateLeds (kb : Kb) : Kb := kbSetLeds hw kb kb.state.leds

/-! ## Scancodes -/

/-- `kb_scancode_to_ascii`, without the zeros that it ends with. -/
def kbScancodeToAscii : List UInt8 :=
  [0, 27, 49, 50, 51, 52, 53, 54, 55, 56, 57, 48, 45, 61, 8,
    9, 113, 119, 101, 114, 116, 121, 117, 105, 111, 112, 91, 93, 10,
    0, 97, 115, 100, 102, 103, 104, 106, 107, 108, 59, 39, 96, 0, 92,
    122, 120, 99, 118, 98, 110, 109, 44, 46, 47, 0, 42, 0, 32, 0, 0,
    0, 0, 0, 0, 0, 0, 0, 0, 0, 0, 0, 0, 0, 0, 0, 0, 45, 0, 0, 0, 43]

/-- `kb_shift_scancode_to_ascii`, without the zeros that it ends with. -/
def kbShiftScancodeToAscii : List UInt8 :=
  [0, 27, 33, 64, 35, 36, 37, 94, 38, 42, 40, 41, 95, 43, 8,
    9, 81, 87, 69, 82, 84, 89, 85, 73, 79, 80, 123, 125, 10,
    0, 65, 83, 68, 70, 71, 72, 74, 75, 76, 58, 34, 126, 0, 124,
    90, 88, 67, 86, 66, 78, 77, 60, 62, 63, 0, 42, 0, 32, 0, 0,
    0, 0, 0, 0, 0, 0, 0, 0, 0, 0, 0, 0, 0, 0, 0, 0, 45, 0, 0, 0, 43]

def scancodeToAscii (state : KbState) (scancode : UInt8) : UInt8 :=
  let baseChar := kbScancodeToAscii.getD scancode.toNat 0
  let shift :=
    if 97 ≤ baseChar ∧ baseChar ≤ 122 ∧ state.capsLock then !state.shiftPressed
    else state.shiftPressed
  if shift then kbShiftScancodeToAscii.getD scancode.toNat 0 else baseChar

/-- `*left`, `*right` and `*modifier` after `update_modifier`. -/
def updateModifier (pressed left right extended : Bool) : Bool × Bool × Bool :=
  let right' := if extended then pressed else right
  let left' := if extended then left else pressed
  (left', right', left' || right')

def handleKeyRelease (state : KbState) (scancode : UInt8) : KbState :=
  if ¬ state.bootComplete then state
  else
    let state :=
      if scancode = 0x2A then
        { state with
          leftShiftPressed := false
          shiftPressed := false || state.rightShiftPressed }
      else if scancode = 0x36 then
        { state with
          rightShiftPressed := false
          shiftPressed := state.leftShiftPressed || false }
      else if scancode = 0x1D then
        let (left, right, ctrl) := updateModifier false state.leftCtrlPressed
          state.rightCtrlPressed state.extendedScancode
        { state with leftCtrlPressed := left, rightCtrlPressed := right, ctrlPressed := ctrl }
      else if scancode = 0x38 then
        let (left, right, alt) := updateModifier false state.leftAltPressed
          state.rightAltPressed state.extendedScancode
        { state with leftAltPressed := left, rightAltPressed := right, altPressed := alt }
      else state
    { state with extendedScancode := false }

def handleKeyPress (kb : Kb) (scancode : UInt8) : Kb :=
  if ¬ kb.state.bootComplete then kb
  else
    let kb :=
      if scancode = 0x2A then
        { kb with state := { kb.state with leftShiftPressed := true, shiftPressed := true } }
      else if scancode = 0x36 then
        { kb with state := { kb.state with rightShiftPressed := true, shiftPressed := true } }
      else if scancode = 0x1D then
        let (left, right, ctrl) := updateModifier true kb.state.leftCtrlPressed
          kb.state.rightCtrlPressed kb.state.extendedScancode
        { kb with
          state := { kb.state with
            leftCtrlPressed := left, rightCtrlPressed := right, ctrlPressed := ctrl } }
      else if scancode = 0x38 then
        let (left, right, alt) := updateModifier true kb.state.leftAltPressed
          kb.state.rightAltPressed kb.state.extendedScancode
        { kb with
          state := { kb.state with
            leftAltPressed := left, rightAltPressed := right, altPressed := alt } }
      else if scancode = 0x3A then
        updateLeds hw { kb with state := { kb.state with capsLock := !kb.state.capsLock } }
      else if scancode = 0x45 then
        updateLeds hw { kb with state := { kb.state with numLock := !kb.state.numLock } }
      else if scancode = 0x46 then
        updateLeds hw { kb with state := { kb.state with scrollLock := !kb.state.scrollLock } }
      else kb
    { kb with state := { kb.state with extendedScancode := false } }

/-! ## Calls -/

/-- A turn of the loop of `kb_getchar`, and what it returns if it does. -/
def kbGetcharTurn (kb : Kb) : Option UInt8 × Kb :=
  let (status, kb) := kb.inb hw kbStatusPort
  if status &&& 0x01 = 0 then (none, kb)
  else
    let (scancode, kb) := kb.inb hw kbDataPort
    if scancode = 0xE0 then
      (none, { kb with state := { kb.state with extendedScancode := true } })
    else if scancode &&& 0x80 ≠ 0 then
      (none, { kb with state := handleKeyRelease kb.state (scancode &&& ~~~0x80) })
    else
      let kb := handleKeyPress hw kb scancode
      let c := scancodeToAscii kb.state scancode
      if c ≠ 0 then (some c, kb) else (none, kb)

def kbCheckEscape (kb : Kb) : Bool × Kb :=
  let (status, kb) := kb.inb hw kbStatusPort
  if status &&& 0x01 = 0 then (false, kb)
  else
    let (data, kb) := kb.inb hw kbDataPort
    (data = 0x01, kb)

/-- The two calls that take scancodes, and a turn of the loop of `kb_getchar`. -/
inductive KbTurn where
  | getchar
  | checkEscape
  | poll
  deriving DecidableEq, Repr

/-- The keyboard, whether a `kb_getchar` is in its loop, and the stream of the bytes that were taken
so far. -/
structure KbRun where
  kb : Kb
  reading : Bool
  consumed : List UInt8

/-- The byte that a look at the status port finds. -/
def Kb.arrives (kb : Kb) : Option UInt8 :=
  if hw kb.reads kbStatusPort &&& 0x01 = 0 then none else some (hw (kb.reads + 1) kbDataPort)

/-- The byte that a turn takes. -/
def KbRun.takes (s : KbRun) : KbTurn → Option UInt8
  | .getchar => none
  | .checkEscape => if s.reading then none else s.kb.arrives hw
  | .poll => if s.reading then s.kb.arrives hw else none

/-- There is one thread, so nothing is called while a `kb_getchar` is in its loop. -/
def kbStep (s : KbRun) (t : KbTurn) : KbRun :=
  let consumed := s.consumed ++ (s.takes hw t).toList
  match t with
  | .getchar => if s.reading then s else { s with reading := s.kb.state.inputEnabled }
  | .checkEscape =>
    if s.reading then s else { s with kb := (kbCheckEscape hw s.kb).2, consumed }
  | .poll =>
    if s.reading then
      let (c, kb) := kbGetcharTurn hw s.kb
      { kb, reading := c.isNone, consumed }
    else s

end Controller

end Unics
