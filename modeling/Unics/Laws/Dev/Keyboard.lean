import Unics.Dev.Keyboard
import Unics.Lib.Run

/-!
# Modifier keys

What the flags of the modifier keys are to say is a matter of the stream of scancodes alone: a key
is down when it was pressed and not released since. `kb_getchar` follows every scancode that it
takes. `kb_check_escape` takes one and looks only whether it is that of the escape key, so a press,
a release or a prefix that it takes is lost.
-/

namespace Unics

open Unics.Lib

/-! ## The stream -/

inductive ModKey where
  | leftShift
  | rightShift
  | leftCtrl
  | rightCtrl
  | leftAlt
  | rightAlt
  deriving DecidableEq, Repr

/-- The modifier key of a scancode without its release bit, after `E0` or not. -/
def modKey (extended : Bool) (code : UInt8) : Option ModKey :=
  if code = 0x2A then some .leftShift
  else if code = 0x36 then some .rightShift
  else if code = 0x1D then some (if extended then .rightCtrl else .leftCtrl)
  else if code = 0x38 then some (if extended then .rightAlt else .leftAlt)
  else none

/-- A stream of bytes read as scancodes: whether the last one is still without its second byte, and
the modifier keys pressed (`true`) and released, the first one first. -/
structure Scancodes where
  pending : Bool
  events : List (ModKey × Bool)

/-- One more byte. -/
def Scancodes.byte (sc : Scancodes) (b : UInt8) : Scancodes :=
  if b = 0xE0 then { sc with pending := true }
  else
    { pending := false
      events := sc.events ++
        ((modKey sc.pending (b &&& ~~~0x80)).map (·, decide (b &&& 0x80 = 0))).toList }

def scancodes (bytes : List UInt8) : Scancodes := bytes.foldl Scancodes.byte ⟨false, []⟩

/-- The key was pressed and not released since. -/
def Down (events : List (ModKey × Bool)) (key : ModKey) : Prop :=
  ∃ before after, events = before ++ (key, true) :: after ∧ (key, false) ∉ after

/-- When no scancode is half taken, the flags say what is down. -/
def KbRun.Tracks (s : KbRun) : Prop :=
  let sc := scancodes s.consumed
  sc.pending = false →
    (s.kb.state.shiftPressed = true ↔ Down sc.events .leftShift ∨ Down sc.events .rightShift) ∧
    (s.kb.state.ctrlPressed = true ↔ Down sc.events .leftCtrl ∨ Down sc.events .rightCtrl) ∧
    (s.kb.state.altPressed = true ↔ Down sc.events .leftAlt ∨ Down sc.events .rightAlt)

theorem scancodes_append (bytes : List UInt8) (b : UInt8) :
    scancodes (bytes ++ [b]) = (scancodes bytes).byte b :=
  List.foldl_concat ..

theorem not_down_nil (key : ModKey) : ¬ Down [] key := by
  rintro ⟨before, after, h, -⟩
  exact List.cons_ne_nil _ _ (List.append_eq_nil_iff.mp h.symm).2

/-- The last press or release decides for its key, and changes nothing for the others. -/
theorem down_append {events : List (ModKey × Bool)} {key key' : ModKey} {pressed : Bool} :
    Down (events ++ [(key', pressed)]) key ↔
      if key' = key then pressed = true else Down events key := by
  split
  · next same =>
    subst same
    constructor
    · rintro ⟨before, after, heq, hnot⟩
      obtain rfl | ⟨rest, last, rfl⟩ := List.eq_nil_or_concat' after
      · exact congrArg Prod.snd (List.cons.inj (List.append_inj' heq rfl).2).1
      · rw [← List.cons_append, ← List.append_assoc] at heq
        have hlast := (List.cons.inj (List.append_inj' heq rfl).2).1
        rw [← hlast] at hnot
        cases pressed with
        | true => rfl
        | false => exact absurd (List.mem_append_right rest (List.mem_singleton_self _)) hnot
    · rintro rfl
      exact ⟨events, [], rfl, List.not_mem_nil⟩
  · next other =>
    constructor
    · rintro ⟨before, after, heq, hnot⟩
      obtain rfl | ⟨rest, last, rfl⟩ := List.eq_nil_or_concat' after
      · exact absurd (congrArg Prod.fst (List.cons.inj (List.append_inj' heq rfl).2).1) other
      · rw [← List.cons_append, ← List.append_assoc] at heq
        exact ⟨before, rest, (List.append_inj' heq rfl).1,
          fun mem => hnot (List.mem_append_left _ mem)⟩
    · rintro ⟨before, after, rfl, hnot⟩
      refine ⟨before, after ++ [(key', pressed)], by rw [List.append_assoc]; rfl, fun mem => ?_⟩
      rcases List.mem_append.mp mem with mem | mem
      · exact hnot mem
      · exact other (congrArg Prod.fst (List.mem_singleton.mp mem)).symm

/-! ## The flags -/

/-- The flag of a key. -/
def KbState.flag (state : KbState) : ModKey → Bool
  | .leftShift => state.leftShiftPressed
  | .rightShift => state.rightShiftPressed
  | .leftCtrl => state.leftCtrlPressed
  | .rightCtrl => state.rightCtrlPressed
  | .leftAlt => state.leftAltPressed
  | .rightAlt => state.rightAltPressed

/-- The flag of a key is set, and the flag of the two keys of the kind with it. -/
def KbState.setKey (state : KbState) (pressed : Bool) : ModKey → KbState
  | .leftShift =>
    { state with
      leftShiftPressed := pressed
      shiftPressed := pressed || state.rightShiftPressed }
  | .rightShift =>
    { state with
      rightShiftPressed := pressed
      shiftPressed := state.leftShiftPressed || pressed }
  | .leftCtrl =>
    { state with leftCtrlPressed := pressed, ctrlPressed := pressed || state.rightCtrlPressed }
  | .rightCtrl =>
    { state with rightCtrlPressed := pressed, ctrlPressed := state.leftCtrlPressed || pressed }
  | .leftAlt =>
    { state with leftAltPressed := pressed, altPressed := pressed || state.rightAltPressed }
  | .rightAlt =>
    { state with rightAltPressed := pressed, altPressed := state.leftAltPressed || pressed }

/-- What a scancode does to the flags. -/
def KbState.keyed (state : KbState) (pressed : Bool) (code : UInt8) : KbState :=
  { (modKey state.extendedScancode code).elim state (state.setKey pressed) with
    extendedScancode := false }

/-- What a byte that `kb_getchar` takes does to the flags. -/
def KbState.taken (state : KbState) (b : UInt8) : KbState :=
  if b = 0xE0 then { state with extendedScancode := true }
  else state.keyed (decide (b &&& 0x80 = 0)) (b &&& ~~~0x80)

theorem handleKeyRelease_eq {state : KbState} (hboot : state.bootComplete = true) (code : UInt8) :
    handleKeyRelease state code = state.keyed false code := by
  unfold handleKeyRelease KbState.keyed modKey
  rw [if_neg (not_not_intro hboot)]
  by_cases left : code = 0x2A
  · rw [if_pos left, if_pos left]
    rfl
  rw [if_neg left, if_neg left]
  by_cases right : code = 0x36
  · rw [if_pos right, if_pos right]
    rfl
  rw [if_neg right, if_neg right]
  by_cases ctrl : code = 0x1D
  · rw [if_pos ctrl, if_pos ctrl]
    cases state.extendedScancode <;> rfl
  rw [if_neg ctrl, if_neg ctrl]
  by_cases alt : code = 0x38
  · rw [if_pos alt, if_pos alt]
    cases state.extendedScancode <;> rfl
  rw [if_neg alt, if_neg alt]
  rfl

theorem handleKeyPress_eq {hw : KbController} {kb : Kb} (hboot : kb.state.bootComplete = true)
    {code : UInt8} (hlock : code ≠ 0x3A ∧ code ≠ 0x45 ∧ code ≠ 0x46) :
    handleKeyPress hw kb code = { kb with state := kb.state.keyed true code } := by
  unfold handleKeyPress KbState.keyed modKey
  rw [if_neg (not_not_intro hboot), if_neg hlock.1, if_neg hlock.2.1, if_neg hlock.2.2]
  by_cases left : code = 0x2A
  · rw [if_pos left, if_pos left]
    rfl
  rw [if_neg left, if_neg left]
  by_cases right : code = 0x36
  · rw [if_pos right, if_pos right, Option.elim_some, KbState.setKey, Bool.or_true]
  rw [if_neg right, if_neg right]
  by_cases ctrl : code = 0x1D
  · rw [if_pos ctrl, if_pos ctrl]
    cases kb.state.extendedScancode <;> rfl
  rw [if_neg ctrl, if_neg ctrl]
  by_cases alt : code = 0x38
  · rw [if_pos alt, if_pos alt]
    cases kb.state.extendedScancode <;> rfl
  rw [if_neg alt, if_neg alt]
  rfl

/-- The flag of either key of a kind is that of the kind. -/
structure KbState.Paired (state : KbState) : Prop where
  shift : state.shiftPressed = (state.leftShiftPressed || state.rightShiftPressed)
  ctrl : state.ctrlPressed = (state.leftCtrlPressed || state.rightCtrlPressed)
  alt : state.altPressed = (state.leftAltPressed || state.rightAltPressed)

theorem KbState.Paired.setKey {state : KbState} (h : state.Paired) (pressed : Bool)
    (key : ModKey) : (state.setKey pressed key).Paired := by
  cases key with
  | leftShift => exact ⟨rfl, h.ctrl, h.alt⟩
  | rightShift => exact ⟨rfl, h.ctrl, h.alt⟩
  | leftCtrl => exact ⟨h.shift, rfl, h.alt⟩
  | rightCtrl => exact ⟨h.shift, rfl, h.alt⟩
  | leftAlt => exact ⟨h.shift, h.ctrl, rfl⟩
  | rightAlt => exact ⟨h.shift, h.ctrl, rfl⟩

theorem KbState.setKey_flag (state : KbState) (pressed : Bool) (key key' : ModKey) :
    (state.setKey pressed key).flag key' = if key = key' then pressed else state.flag key' := by
  cases key <;> cases key' <;> rfl

theorem KbState.setKey_other (state : KbState) (pressed : Bool) (key : ModKey) :
    (state.setKey pressed key).inputEnabled = state.inputEnabled ∧
      (state.setKey pressed key).bootComplete = state.bootComplete := by
  cases key <;> exact ⟨rfl, rfl⟩

/-- What the flags are when they follow the stream: `sc` is what was taken of it. -/
structure KbState.Follows (state : KbState) (sc : Scancodes) : Prop where
  enabled : state.inputEnabled = true
  boot : state.bootComplete = true
  prefixed : state.extendedScancode = sc.pending
  paired : state.Paired
  flags : ∀ key, state.flag key = true ↔ Down sc.events key

theorem KbState.Follows.taken {state : KbState} {sc : Scancodes} (h : state.Follows sc)
    (b : UInt8) : (state.taken b).Follows (sc.byte b) := by
  unfold KbState.taken Scancodes.byte
  by_cases hprefix : b = 0xE0
  · rw [if_pos hprefix, if_pos hprefix]
    exact ⟨h.enabled, h.boot, rfl, ⟨h.paired.shift, h.paired.ctrl, h.paired.alt⟩, h.flags⟩
  rw [if_neg hprefix, if_neg hprefix, KbState.keyed, h.prefixed]
  cases hkey : modKey sc.pending (b &&& ~~~0x80) with
  | none =>
    refine ⟨h.enabled, h.boot, rfl, ⟨h.paired.shift, h.paired.ctrl, h.paired.alt⟩, fun key => ?_⟩
    rw [Option.map_none, Option.toList_none, List.append_nil, ← h.flags key]
    rfl
  | some key =>
    have paired := h.paired.setKey (decide (b &&& 0x80 = 0)) key
    obtain ⟨enabled, boot⟩ := state.setKey_other (decide (b &&& 0x80 = 0)) key
    refine ⟨enabled.trans h.enabled, boot.trans h.boot, rfl,
      ⟨paired.shift, paired.ctrl, paired.alt⟩, fun key' => ?_⟩
    rw [Option.map_some, Option.toList_some, down_append, ← h.flags key']
    show (state.setKey _ key).flag key' = true ↔ _
    rw [KbState.setKey_flag]
    split <;> rfl

theorem KbState.Follows.tracks {s : KbRun} (h : s.kb.state.Follows (scancodes s.consumed)) :
    s.Tracks := by
  intro _
  have flags := h.flags
  refine ⟨?_, ?_, ?_⟩
  · rw [h.paired.shift, Bool.or_eq_true, ← flags, ← flags]
    rfl
  · rw [h.paired.ctrl, Bool.or_eq_true, ← flags, ← flags]
    rfl
  · rw [h.paired.alt, Bool.or_eq_true, ← flags, ← flags]
    rfl

/-! ## Turns -/

section Turns

variable {hw : KbController} {s : KbRun}

/-- A byte without the release bit is its own code. -/
theorem and_not_release {b : UInt8} (h : b &&& 0x80 = 0) : b &&& ~~~0x80 = b := by
  rw [← UInt8.toBitVec_inj] at h ⊢
  have whole : b.toBitVec &&& (0x80#8 ||| ~~~0x80#8) = b.toBitVec := BitVec.and_allOnes
  rw [BitVec.and_or_distrib_left, show b.toBitVec &&& 0x80#8 = 0#8 from h, BitVec.zero_or] at whole
  exact whole

/-- `kb_getchar` follows each byte that it takes, and returns behind no prefix. -/
theorem kbGetcharTurn_spec {kb : Kb} (hboot : kb.state.bootComplete = true) {b : UInt8}
    (hb : kb.arrives hw = some b) (hlock : b ≠ 0x3A ∧ b ≠ 0x45 ∧ b ≠ 0x46) :
    (kbGetcharTurn hw kb).2.state = kb.state.taken b ∧
      (b = 0xE0 → (kbGetcharTurn hw kb).1 = none) := by
  have ready : ¬ hw kb.reads kbStatusPort &&& 0x01 = 0 := by
    intro h
    rw [Kb.arrives, if_pos h] at hb
    cases hb
  obtain rfl : hw (kb.reads + 1) kbDataPort = b := by
    rw [Kb.arrives, if_neg ready] at hb
    exact Option.some.inj hb
  unfold kbGetcharTurn Kb.inb KbState.taken
  dsimp only
  rw [if_neg ready]
  by_cases hprefix : hw (kb.reads + 1) kbDataPort = 0xE0
  · rw [if_pos hprefix, if_pos hprefix]
    exact ⟨rfl, fun _ => rfl⟩
  rw [if_neg hprefix, if_neg hprefix]
  refine ⟨?_, fun h => absurd h hprefix⟩
  by_cases hrelease : hw (kb.reads + 1) kbDataPort &&& 0x80 = 0
  · rw [if_neg (not_not_intro hrelease), decide_eq_true hrelease, and_not_release hrelease,
      @handleKeyPress_eq hw { kb with reads := kb.reads + 1 + 1 } hboot _ hlock]
    split <;> rfl
  · rw [if_pos hrelease, handleKeyRelease_eq hboot, decide_eq_false hrelease]

theorem kbGetcharTurn_idle {kb : Kb} (hb : kb.arrives hw = none) :
    (kbGetcharTurn hw kb).2.state = kb.state ∧ (kbGetcharTurn hw kb).1 = none := by
  have idle : hw kb.reads kbStatusPort &&& 0x01 = 0 := by
    by_contra h
    rw [Kb.arrives, if_neg h] at hb
    cases hb
  unfold kbGetcharTurn Kb.inb
  dsimp only
  rw [if_pos idle]
  exact ⟨rfl, rfl⟩

theorem kbCheckEscape_state (kb : Kb) : (kbCheckEscape hw kb).2.state = kb.state := by
  unfold kbCheckEscape Kb.inb
  dsimp only
  split <;> rfl

end Turns

/-! ## Runs -/

/-- No lock key is in the stream. -/
def KbRun.NoLock (hw : KbController) (s : KbRun) (t : KbTurn) : Prop :=
  ∀ b, s.takes hw t = some b → b ≠ 0x3A ∧ b ≠ 0x45 ∧ b ≠ 0x46

/-- `kb_check_escape` takes no prefix, and nothing that changes what is down. -/
def KbRun.EscapeSpares (hw : KbController) (s : KbRun) (t : KbTurn) : Prop :=
  t = .checkEscape → ∀ b, s.takes hw t = some b → b ≠ 0xE0 ∧
    ∀ key, Down (scancodes (s.consumed ++ [b])).events key ↔ Down (scancodes s.consumed).events key

/-- Before the first scancode: `kb_init` has cleared the flags, input is enabled and the boot
complete. -/
structure KbRun.Fresh (s : KbRun) : Prop where
  reading : s.reading = false
  consumed : s.consumed = []
  enabled : s.kb.state.inputEnabled = true
  boot : s.kb.state.bootComplete = true
  prefixed : s.kb.state.extendedScancode = false
  shift : s.kb.state.shiftPressed = false
  ctrl : s.kb.state.ctrlPressed = false
  alt : s.kb.state.altPressed = false
  keys : ∀ key, s.kb.state.flag key = false

/-- The flags follow the stream, and no call ends behind a prefix. -/
structure KbRun.Sound (s : KbRun) : Prop where
  follows : s.kb.state.Follows (scancodes s.consumed)
  idle : s.reading = false → (scancodes s.consumed).pending = false

section Runs

variable {hw : KbController} {s : KbRun}

theorem KbRun.Fresh.sound (h : s.Fresh) : s.Sound := by
  refine ⟨⟨h.enabled, h.boot, ?_, ⟨?_, ?_, ?_⟩, fun key => ?_⟩, fun _ => ?_⟩
  · rw [h.prefixed, h.consumed]
    rfl
  · rw [h.shift, show s.kb.state.leftShiftPressed = false from h.keys .leftShift,
      show s.kb.state.rightShiftPressed = false from h.keys .rightShift]
    rfl
  · rw [h.ctrl, show s.kb.state.leftCtrlPressed = false from h.keys .leftCtrl,
      show s.kb.state.rightCtrlPressed = false from h.keys .rightCtrl]
    rfl
  · rw [h.alt, show s.kb.state.leftAltPressed = false from h.keys .leftAlt,
      show s.kb.state.rightAltPressed = false from h.keys .rightAlt]
    rfl
  · rw [h.keys, h.consumed]
    exact iff_of_false Bool.false_ne_true (not_down_nil key)
  · rw [h.consumed]
    rfl

/-- A turn of `kb_getchar`. -/
theorem KbRun.Sound.poll (h : s.Sound) (hlock : s.NoLock hw .poll) :
    (kbStep hw s .poll).Sound := by
  cases hreading : s.reading with
  | false =>
    have same : kbStep hw s .poll = s := by
      unfold kbStep
      dsimp only
      rw [hreading]
      rfl
    rw [same]
    exact h
  | true =>
    have takes : s.takes hw .poll = s.kb.arrives hw := if_pos hreading
    have next : kbStep hw s .poll =
        { kb := (kbGetcharTurn hw s.kb).2
          reading := (kbGetcharTurn hw s.kb).1.isNone
          consumed := s.consumed ++ (s.kb.arrives hw).toList } := by
      unfold kbStep
      dsimp only
      rw [if_pos hreading, takes]
    rw [next]
    cases harrives : s.kb.arrives hw with
    | none =>
      obtain ⟨state, returns⟩ := kbGetcharTurn_idle harrives
      rw [Option.toList_none, List.append_nil, returns]
      exact ⟨state ▸ h.follows, fun idle => Bool.noConfusion (show true = false from idle)⟩
    | some b =>
      obtain ⟨state, returns⟩ := kbGetcharTurn_spec h.follows.boot harrives
        (hlock b (takes.trans harrives))
      refine ⟨?_, fun idle => ?_⟩
      · show (kbGetcharTurn hw s.kb).2.state.Follows (scancodes (s.consumed ++ [b]))
        rw [state, scancodes_append]
        exact h.follows.taken b
      · have whole : b ≠ 0xE0 := fun hprefix => by
          rw [returns hprefix] at idle
          cases idle
        show (scancodes (s.consumed ++ [b])).pending = false
        rw [scancodes_append, Scancodes.byte, if_neg whole]

/-- A call of `kb_check_escape` that spares the modifier keys. -/
theorem KbRun.Sound.checkEscape (h : s.Sound) (hspare : s.EscapeSpares hw .checkEscape) :
    (kbStep hw s .checkEscape).Sound := by
  cases hreading : s.reading with
  | true =>
    have same : kbStep hw s .checkEscape = s := if_pos hreading
    rw [same]
    exact h
  | false =>
    have takes : s.takes hw .checkEscape = s.kb.arrives hw := if_neg (by rw [hreading]; decide)
    have next : kbStep hw s .checkEscape =
        { s with
          kb := (kbCheckEscape hw s.kb).2
          consumed := s.consumed ++ (s.kb.arrives hw).toList } := by
      unfold kbStep
      dsimp only
      rw [if_neg (by rw [hreading]; decide), takes]
    have pending := h.idle hreading
    rw [next]
    cases harrives : s.kb.arrives hw with
    | none =>
      rw [Option.toList_none, List.append_nil]
      exact ⟨(kbCheckEscape_state s.kb).symm ▸ h.follows, fun _ => pending⟩
    | some b =>
      obtain ⟨whole, spared⟩ := hspare rfl b (takes.trans harrives)
      have after : (scancodes (s.consumed ++ [b])).pending = false := by
        rw [scancodes_append, Scancodes.byte, if_neg whole]
      refine ⟨?_, fun _ => after⟩
      show (kbCheckEscape hw s.kb).2.state.Follows (scancodes (s.consumed ++ [b]))
      rw [kbCheckEscape_state]
      exact ⟨h.follows.enabled, h.follows.boot, h.follows.prefixed.trans (pending.trans after.symm),
        h.follows.paired, fun key => (h.follows.flags key).trans (spared key).symm⟩

theorem KbRun.Sound.step (h : s.Sound) {t : KbTurn}
    (hturn : s.NoLock hw t ∧ s.EscapeSpares hw t) : (kbStep hw s t).Sound := by
  cases t with
  | getchar =>
    cases hreading : s.reading with
    | true =>
      have same : kbStep hw s .getchar = s := if_pos hreading
      rw [same]
      exact h
    | false =>
      have next : kbStep hw s .getchar = { s with reading := s.kb.state.inputEnabled } :=
        if_neg (by rw [hreading]; decide)
      rw [next]
      exact ⟨h.follows, fun _ => h.idle hreading⟩
  | checkEscape => exact h.checkEscape hturn.2
  | poll => exact h.poll hturn.1

/-- Where no `kb_check_escape` takes a prefix, a press or a release that matters, the flags say what
is down in every state of every run. -/
theorem modifiers_track (h : s.Fresh) {turns : List KbTurn}
    (hlock : EveryStep (kbStep hw) (KbRun.NoLock hw) s turns)
    (hspare : EveryStep (kbStep hw) (KbRun.EscapeSpares hw) s turns) :
    EveryState (kbStep hw) KbRun.Tracks s turns :=
  (everyStep_and.mpr ⟨hlock, hspare⟩).everyState (fun _ _ h hturn => h.step hturn)
    (fun _ h => h.follows.tracks) h.sound

end Runs

/-- A controller with the bytes of a stream, one ready at every look. -/
def kbSending (bytes : List UInt8) : KbController := fun n _ =>
  if n % 2 = 0 then 0x01 else bytes.getD (n / 2) 0

/-- A stream without lock keys. -/
theorem kbSending_noLock {bytes : List UInt8}
    (h : ∀ b ∈ bytes, b ≠ 0x3A ∧ b ≠ 0x45 ∧ b ≠ 0x46) (s : KbRun) (turns : List KbTurn) :
    EveryStep (kbStep (kbSending bytes)) (KbRun.NoLock (kbSending bytes)) s turns := by
  refine (everyStep_true _ s turns).mono (I := fun _ => True) (fun _ _ _ _ => trivial)
    (fun s t _ _ b hb => ?_) trivial
  have arrives : s.kb.arrives (kbSending bytes) = some b := by
    cases t with
    | getchar => cases hb
    | checkEscape => exact (Option.ite_none_left_eq_some.mp hb).2
    | poll => exact (Option.ite_none_right_eq_some.mp hb).2
  unfold Kb.arrives at arrives
  split at arrives
  · cases arrives
  · obtain rfl := Option.some.inj arrives
    unfold kbSending
    split
    · decide
    · rw [List.getD_eq_getElem?_getD]
      cases hget : bytes[(s.kb.reads + 1) / 2]? with
      | none => decide
      | some b => exact h b (List.mem_of_getElem? hget)

/-- The keyboard when the shell starts. -/
def kbStart : KbRun where
  kb :=
    { state := { KbState.zero with numLock := true, inputEnabled := true, bootComplete := true }
      reads := 0
      writes := [] }
  reading := false
  consumed := []

theorem kbStart_fresh : kbStart.Fresh :=
  ⟨rfl, rfl, rfl, rfl, rfl, rfl, rfl, rfl, fun key => by cases key <;> rfl⟩

/-- The left shift key and the key of an `a` go down, `kb_getchar` returns the `A`, and
`kb_check_escape` takes the release of the `a`. -/
theorem modifiers_track_letter : EveryState (kbStep (kbSending [0x2A, 0x1E, 0x9E])) KbRun.Tracks
    kbStart [.getchar, .poll, .poll, .checkEscape] := by
  refine modifiers_track kbStart_fresh (kbSending_noLock (by simp) _ _)
    ⟨KbTurn.noConfusion, KbTurn.noConfusion, KbTurn.noConfusion, fun _ b hb => ?_, trivial⟩
  obtain rfl : 0x9E = b := Option.some.inj hb
  exact ⟨by decide, fun key => Iff.rfl⟩

/-- As before, but the shift key is released first: its flag stays set. -/
theorem modifiers_stuck : kbStart.Fresh ∧
    EveryStep (kbStep (kbSending [0x2A, 0x1E, 0xAA])) (KbRun.NoLock (kbSending [0x2A, 0x1E, 0xAA]))
      kbStart [.getchar, .poll, .poll, .checkEscape] ∧
    ¬ EveryState (kbStep (kbSending [0x2A, 0x1E, 0xAA])) KbRun.Tracks kbStart
      [.getchar, .poll, .poll, .checkEscape] := by
  refine ⟨kbStart_fresh, kbSending_noLock (by simp) _ _, fun h => ?_⟩
  have down : Down ([(.leftShift, true)] ++ [(.leftShift, false)]) .leftShift ∨
      Down ([(.leftShift, true)] ++ [(.leftShift, false)]) .rightShift := (h.last rfl).1.mp rfl
  rw [down_append, down_append, if_pos rfl, if_neg (by decide)] at down
  rcases down with down | down
  · cases down
  · rw [← List.nil_append [(ModKey.leftShift, true)], down_append, if_neg (by decide)] at down
    exact not_down_nil _ down

end Unics
