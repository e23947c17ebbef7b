import Unics.Bin.Ed
import Unics.Lib.Run

/-!
# Sessions of ed

An editor is a mode and the lines inserted so far, `LineEditor`, and each line that is read takes it
one step on. `ed` keeps the lines as one text in its buffer. Its variables are static and a new
session sets the first byte of the buffer only, so it goes on with the length and the mode of the
last one: `ed_sessions_iff` is the exact condition under which the buffer is right at every point.
-/

namespace Unics

open Unics.Lib

/-! ## The editor -/

/-- What a session of the editor has come to. -/
structure LineEditor where
  inserting : Bool
  lines : List CString

/-- A session starts in command mode, with nothing inserted. -/
def LineEditor.start : LineEditor := { inserting := false, lines := [] }

/-- The letter `w` is not the terminator. -/
theorem w_ne_zero : (119 : UInt8) ≠ 0 := by decide

/-- The editor after a line. -/
def LineEditor.read (d : LineEditor) (line : CString) : LineEditor :=
  if d.inserting then
    if line = .dot then { d with inserting := false }
    else if line = .empty then d
    else { d with lines := d.lines ++ [line] }
  else if line = .char 119 w_ne_zero then { d with inserting := true }
  else d

/-- The text of lines: each has a newline behind it. -/
def linesText (lines : List CString) : List UInt8 := lines.flatMap fun line => line.bytes ++ [10]

theorem linesText_concat (lines : List CString) (line : CString) :
    linesText (lines ++ [line]) = linesText lines ++ (line.bytes ++ [10]) := by
  rw [linesText, List.flatMap_append, List.flatMap_singleton, linesText]

/-- The program beside the editor that it is to be. -/
structure EdRun where
  state : EdState
  editor : LineEditor

/-- Before the first session. -/
def edRunStart (fs : Fs) : EdRun where
  state := { fs, ed := edStart, phase := .idle }
  editor := .start

/-- What a call does to the editor: it starts a session, or ends a line. -/
def lineEditorStep (s : EdState) (d : LineEditor) (c : EdCall) : LineEditor :=
  match s.phase, c with
  | .idle, .main _ => .start
  | .reading line, .getchar c _ =>
    match readLine lineSize line c with
    | .line line => d.read (lineText line)
    | _ => d
  | _, _ => d

def edRunStep (r : EdRun) (c : EdCall) : EdRun where
  state := edStep r.state c
  editor := lineEditorStep r.state r.editor c

/-- The variables hold the lines of the editor, and its mode. -/
structure EdHolds (e : Ed) (d : LineEditor) : Prop where
  mode : e.insertMode = d.inserting
  room : e.contentLen.toNat + 1 ≤ e.bufSize.toNat
  text : ∃ buffer, e.buffer = some buffer ∧
    bytesAt buffer 0 e.contentLen.toNat = linesText d.lines ∧ buffer e.contentLen.toNat = 0

/-- What holds at every point of a session. Nothing is ever stored outside of the buffer. -/
def EdRight (r : EdRun) : Prop :=
  match r.state.phase with
  | .reading _ => EdHolds r.state.ed r.editor
  | .idle | .exited => True
  | .outside => False

/-- The condition: a session starts with the variables as they were before the first one, as far as
length and mode go. -/
def EdStartsClean (r : EdRun) (c : EdCall) : Prop :=
  match r.state.phase, c with
  | .idle, .main _ => r.state.ed.contentLen = 0 ∧ r.state.ed.insertMode = false
  | _, _ => True

/-! ## The buffer -/

/-- The buffer has been made, in steps of 1024 bytes. -/
structure EdAllocated (e : Ed) : Prop where
  steps : 1024 ∣ e.bufSize.toNat
  pos : 1024 ≤ e.bufSize.toNat
  buffer : e.buffer ≠ none

/-- What a growth leaves: there is room for what was asked, and what was there is there. -/
structure Grown (e e' : Ed) (minSize : SizeT) : Prop where
  allocated : EdAllocated e'
  room : minSize.toNat ≤ e'.bufSize.toNat
  longer : e.bufSize.toNat ≤ e'.bufSize.toNat
  same : e'.contentLen = e.contentLen ∧ e'.insertMode = e.insertMode
  kept : ∀ buffer, e.buffer = some buffer → ∃ buffer', e'.buffer = some buffer' ∧
    ∀ i < e.bufSize.toNat, buffer' i = buffer i

/-- The size that `grow_buffer` asks for, unless it wraps to 0. -/
theorem newSize_toNat {minSize : SizeT}
    (h : (minSize / bufferIncrement + 1) * bufferIncrement ≠ 0) :
    ((minSize / bufferIncrement + 1) * bufferIncrement).toNat =
      (minSize.toNat / 1024 + 1) * 1024 := by
  have size : ((minSize / bufferIncrement + 1) * bufferIncrement).toNat =
      (minSize.toNat / 1024 + 1) % 2 ^ 32 * 1024 % 2 ^ 32 := by
    rw [BitVec.toNat_mul, BitVec.toNat_add, BitVec.toNat_udiv]
    rfl
  have nonzero : ((minSize / bufferIncrement + 1) * bufferIncrement).toNat ≠ 0 :=
    fun hzero => h (BitVec.toNat_inj.mp hzero)
  have small := minSize.isLt
  rw [size] at nonzero ⊢
  omega

/-- A growth leaves enough room, or the editor exits. -/
theorem growBuffer_grown {e : Ed} (h : EdAllocated e ∨ e.bufSize = 0) {minSize : SizeT}
    (hpos : minSize ≠ 0) (heap : Heap) :
    growBuffer e minSize heap = none ∨
      ∃ e', growBuffer e minSize heap = some e' ∧ Grown e e' minSize := by
  unfold growBuffer
  split
  · next hge =>
    have made : EdAllocated e := by
      refine h.resolve_right fun hzero => hpos ?_
      rw [hzero] at hge
      bv_omega
    exact .inr ⟨e, rfl, made, hge, Nat.le_refl _, ⟨rfl, rfl⟩, fun buffer hb => ⟨buffer, hb,
      fun _ _ => rfl⟩⟩
  · next hlt =>
    dsimp only
    split
    · exact .inl rfl
    · next hne =>
      cases heap with
      | none => exact .inl rfl
      | some junk =>
        have size := newSize_toNat hne
        have less : e.bufSize.toNat < minSize.toNat := by bv_omega
        refine .inr ⟨_, rfl, ⟨?_, ?_, Option.some_ne_none _⟩, ?_, ?_, ⟨rfl, rfl⟩,
          fun buffer hb => ⟨_, rfl, fun i hi => ?_⟩⟩
        · exact ⟨_, size.trans (Nat.mul_comm _ _)⟩
        · exact size ▸ Nat.le_mul_of_pos_left 1024 (Nat.succ_pos _)
        · show minSize.toNat ≤ _
          rw [size]
          omega
        · show e.bufSize.toNat ≤ _
          rw [size]
          omega
        · rw [if_pos hi, hb, Option.getD_some]

/-! ## Inserting -/

/-- The sums of an insertion do not wrap: the buffer's size is a multiple of 1024, and the content
is shorter. -/
theorem EdHolds.sums {e : Ed} {d : LineEditor} (h : EdHolds e d) (hmade : EdAllocated e)
    {line : CString} (hshort : line.strlen < lineSize) :
    (e.contentLen + BitVec.ofNat 32 line.strlen + 2).toNat =
        e.contentLen.toNat + line.strlen + 2 ∧
      (e.contentLen + BitVec.ofNat 32 line.strlen + 1).toNat =
        e.contentLen.toNat + line.strlen + 1 := by
  have short : line.strlen < 512 := hshort
  have len : (BitVec.ofNat 32 line.strlen).toNat = line.strlen := by
    rw [BitVec.toNat_ofNat]
    omega
  have small : e.contentLen.toNat + 1025 ≤ 2 ^ 32 := by
    obtain ⟨k, hk⟩ := hmade.steps
    have room := h.room
    have := e.bufSize.isLt
    omega
  constructor
  · rw [BitVec.toNat_add, BitVec.toNat_add, len, show (2 : SizeT).toNat = 2 from rfl]
    omega
  · rw [BitVec.toNat_add, BitVec.toNat_add, len, show (1 : SizeT).toNat = 1 from rfl]
    omega

/-- A line is stored behind what the buffer holds, with its newline and a terminator. -/
theorem storeChars_line {size n : Nat} {line : CString} (buffer : Buffer)
    (hroom : n + line.strlen + 2 ≤ size) :
    ∃ stored, storeChars size buffer n (line.bytes ++ [10, 0]) = some stored ∧
      bytesAt stored 0 n = bytesAt buffer 0 n ∧
      bytesAt stored n (line.strlen + 1) = line.bytes ++ [10] ∧
      stored (n + line.strlen + 1) = 0 := by
  have length : (line.bytes ++ [10, 0]).length = line.strlen + 2 := List.length_append
  obtain ⟨stored, hstore, hbytes, hothers⟩ := storeChars_fits size buffer n
    (line.bytes ++ [10, 0]) (by omega)
  have split : (line.bytes ++ [10, 0] : List UInt8) = (line.bytes ++ [10]) ++ [0] :=
    (List.append_assoc line.bytes [10] [0]).symm
  rw [length, split, show line.strlen + 2 = line.strlen + 1 + 1 from rfl, bytesAt_add] at hbytes
  obtain ⟨inserted, terminator⟩ := List.append_inj hbytes (by
    rw [length_bytesAt, List.length_append]
    rfl)
  refine ⟨stored, hstore, bytesAt_congr fun i hi => ?_, inserted, ?_⟩
  · rw [Nat.zero_add, hothers i (.inl hi)]
  · rw [Nat.add_assoc]
    exact (List.cons.inj terminator).1

/-- An insertion appends the line, or the editor exits. It never stores outside of the buffer: there
is room for a line behind any content that a buffer holds. -/
theorem insertText_holds {e : Ed} {d : LineEditor} (hmade : EdAllocated e) (h : EdHolds e d)
    {line : CString} (hline : line ≠ .empty) (hshort : line.strlen < lineSize) (heap : Heap) :
    insertText e line heap = .exited ∨
      ∃ e', insertText e line heap = .returned e' ∧ EdAllocated e' ∧
        EdHolds e' { d with lines := d.lines ++ [line] } := by
  obtain ⟨buffer, hbuffer, htext, -⟩ := h.text
  obtain ⟨asked, ends⟩ := h.sums hmade hshort
  have room := h.room
  have nonempty : ¬ line.strlen = 0 := fun hzero =>
    hline (CString.ext (List.length_eq_zero_iff.mp hzero))
  have pos : e.contentLen + BitVec.ofNat 32 line.strlen + 2 ≠ 0 := by
    intro hzero
    rw [hzero] at asked
    exact absurd asked (Nat.succ_ne_zero _).symm
  unfold insertText
  rw [if_neg nonempty]
  dsimp only
  rcases growBuffer_grown (.inl hmade) pos heap with hnone | ⟨e', he', grown⟩
  · rw [hnone]
    exact .inl rfl
  · rw [he']
    obtain ⟨buffer', hbuffer', hkept⟩ := grown.kept buffer hbuffer
    have large := grown.room
    rw [asked] at large
    obtain ⟨stored, hstore, kept, inserted, terminator⟩ := storeChars_line buffer' large
    have front : bytesAt stored 0 e.contentLen.toNat = linesText d.lines := by
      rw [kept, ← htext]
      refine bytesAt_congr fun i hi => ?_
      rw [Nat.zero_add, hkept i (by omega)]
    dsimp only
    rw [hbuffer', grown.same.1, Option.bind_some, hstore]
    refine .inr ⟨_, rfl, ⟨grown.allocated.steps, grown.allocated.pos, Option.some_ne_none _⟩,
      grown.same.2.trans h.mode, ?_, stored, rfl, ?_, ?_⟩
    · show (e.contentLen + BitVec.ofNat 32 line.strlen + 1).toNat + 1 ≤ e'.bufSize.toNat
      omega
    · show bytesAt stored 0 (e.contentLen + BitVec.ofNat 32 line.strlen + 1).toNat = _
      rw [ends, Nat.add_assoc, bytesAt_add, Nat.zero_add, front, inserted, linesText_concat]
    · show stored (e.contentLen + BitVec.ofNat 32 line.strlen + 1).toNat = 0
      rw [ends]
      exact terminator

/-! ## One call -/

/-- What a run keeps as long as sessions start clean. Between sessions the buffer is there, or
nothing has happened yet. -/
def EdRun.Inv (r : EdRun) : Prop :=
  match r.state.phase with
  | .idle => EdAllocated r.state.ed ∨ r.state.ed = edStart
  | .reading line => EdAllocated r.state.ed ∧ EdHolds r.state.ed r.editor ∧
      line.length + 1 < lineSize
  | .exited => True
  | .outside => False

theorem EdRun.Inv.right {r : EdRun} (h : r.Inv) : EdRight r := by
  unfold EdRun.Inv at h
  unfold EdRight
  cases hphase : r.state.phase with
  | idle | exited => trivial
  | reading line =>
    rw [hphase] at h
    exact h.2.1
  | outside =>
    rw [hphase] at h
    exact h

/-- A buffer that is there is not grown at the start of a session. -/
theorem growBuffer_allocated {e : Ed} (h : EdAllocated e) (heap : Heap) :
    growBuffer e bufferIncrement heap = some e := by
  unfold growBuffer
  exact if_pos (BitVec.le_def.mpr (show bufferIncrement.toNat ≤ _ from h.pos))

section Main

variable {s : EdState} {heap : Heap}

/-- The first byte of the buffer is cleared, once there is a buffer. -/
theorem edMain_of_grown {e : Ed} (hgrow : growBuffer s.ed bufferIncrement heap = some e)
    (hmade : EdAllocated e) :
    ∃ buffer, e.buffer = some buffer ∧ edMain s heap =
      { s with
        ed := { e with buffer := some (Function.update buffer 0 0) }
        phase := .reading [] } := by
  obtain ⟨buffer, hbuffer⟩ := Option.ne_none_iff_exists'.mp hmade.buffer
  refine ⟨buffer, hbuffer, ?_⟩
  unfold edMain
  rw [hgrow]
  dsimp only
  rw [hbuffer, Option.bind_some,
    storeChar_of_lt buffer 0 (Nat.lt_of_lt_of_le (by decide) hmade.pos)]

/-- A session that starts clean starts right. -/
theorem edMain_inv (h : EdAllocated s.ed ∨ s.ed = edStart) (hlen : s.ed.contentLen = 0)
    (hmode : s.ed.insertMode = false) :
    EdRun.Inv { state := edMain s heap, editor := .start } := by
  have made : EdAllocated s.ed ∨ s.ed.bufSize = 0 := h.imp_right fun hs => by rw [hs]; rfl
  rcases growBuffer_grown made (by decide : bufferIncrement ≠ 0) heap with hnone | ⟨e, he, grown⟩
  · have exits : edMain s heap = { s with phase := .exited } := by
      unfold edMain
      rw [hnone]
    rw [exits]
    trivial
  · obtain ⟨buffer, -, main⟩ := edMain_of_grown he grown.allocated
    rw [main]
    have len : e.contentLen = 0 := grown.same.1.trans hlen
    refine ⟨⟨grown.allocated.steps, grown.allocated.pos, Option.some_ne_none _⟩,
      ⟨grown.same.2.trans hmode, ?_, _, rfl, ?_, ?_⟩, by decide⟩
    · rw [len]
      exact Nat.le_trans (by decide) grown.allocated.pos
    · rw [len]
      rfl
    · rw [len]
      exact Function.update_self ..

/-- A session that does not start clean starts wrong. -/
theorem edMain_wrong (h : EdAllocated s.ed)
    (hbad : ¬ (s.ed.contentLen = 0 ∧ s.ed.insertMode = false)) :
    ¬ EdRight { state := edMain s heap, editor := .start } := by
  obtain ⟨buffer, -, main⟩ := edMain_of_grown (growBuffer_allocated h heap) h
  rw [main]
  intro hright
  obtain ⟨mode, -, _, -, text, -⟩ := hright
  refine hbad ⟨?_, mode⟩
  have length := congrArg List.length text
  rw [length_bytesAt] at length
  exact BitVec.toNat_inj.mp length

end Main

/-- A turn takes the program and the editor on together. -/
theorem edTurn_inv {s : EdState} {d : LineEditor} (hmade : EdAllocated s.ed) (h : EdHolds s.ed d)
    {line : CString} (hshort : line.strlen < lineSize) (heaps : EdHeaps) :
    EdRun.Inv { state := edTurn s line heaps, editor := d.read line } := by
  have small : ([] : List UInt8).length + 1 < lineSize := by decide
  unfold edTurn LineEditor.read
  by_cases hmode : s.ed.insertMode = true
  · rw [if_pos hmode, if_pos (h.mode.symm.trans hmode)]
    by_cases hdot : line = .dot
    · rw [if_pos hdot, if_pos hdot]
      exact ⟨⟨hmade.steps, hmade.pos, hmade.buffer⟩, ⟨rfl, h.room, h.text⟩, small⟩
    · rw [if_neg hdot, if_neg hdot]
      by_cases hempty : line = .empty
      · have skipped : insertText s.ed line heaps.grow = .returned s.ed := by
          rw [hempty]
          rfl
        rw [if_pos hempty, skipped]
        exact ⟨hmade, h, small⟩
      · rw [if_neg hempty]
        rcases insertText_holds hmade h hempty hshort heaps.grow with hexit | ⟨e, he, made, holds⟩
        · rw [hexit]
          trivial
        · rw [he]
          exact ⟨made, holds, small⟩
  · rw [if_neg hmode, if_neg fun hd => hmode (h.mode.trans hd)]
    by_cases hquit : line = .char 113
    · rw [if_pos hquit]
      exact .inl hmade
    · rw [if_neg hquit]
      by_cases hinsert : line = .char 119
      · rw [if_pos hinsert, if_pos hinsert]
        exact ⟨⟨hmade.steps, hmade.pos, hmade.buffer⟩, ⟨rfl, h.room, h.text⟩, small⟩
      · rw [if_neg hinsert, if_neg hinsert]
        split
        · exact ⟨hmade, h, small⟩
        · exact ⟨hmade, h, small⟩

/-- A line of `read_line` fits the array, and so does what it has read so far. -/
theorem readLine_short {line : List UInt8} (h : line.length + 1 < lineSize) (c : Option UInt8) :
    (∀ l, readLine lineSize line c = .more l → l.length + 1 < lineSize) ∧
      ∀ l, readLine lineSize line c = .line l → l.length < lineSize := by
  unfold readLine
  cases c with
  | none =>
    dsimp only
    split
    · exact ⟨fun l hl => ReadLine.noConfusion hl, fun l hl => ReadLine.noConfusion hl⟩
    · refine ⟨fun l hl => ReadLine.noConfusion hl, fun l hl => ?_⟩
      obtain rfl := ReadLine.line.inj hl
      exact Nat.lt_of_succ_lt h
  | some c =>
    dsimp only
    split
    · refine ⟨fun l hl => ReadLine.noConfusion hl, fun l hl => ?_⟩
      obtain rfl := ReadLine.line.inj hl
      exact Nat.lt_of_succ_lt h
    · split
      · next hmore =>
        refine ⟨fun l hl => ?_, fun l hl => ReadLine.noConfusion hl⟩
        obtain rfl := ReadLine.more.inj hl
        rw [List.length_append, List.length_singleton]
        omega
      · refine ⟨fun l hl => ReadLine.noConfusion hl, fun l hl => ?_⟩
        obtain rfl := ReadLine.line.inj hl
        rw [List.length_append, List.length_singleton]
        exact h

/-- The string in the array is not longer than what was read. -/
theorem strlen_lineText (line : List UInt8) : (lineText line).strlen ≤ line.length :=
  (List.takeWhile_prefix _).length_le

/-- A call that starts a session clean, or none, keeps the invariant. -/
theorem EdRun.Inv.step {r : EdRun} (h : r.Inv) {c : EdCall} (hclean : EdStartsClean r c) :
    (edRunStep r c).Inv := by
  obtain ⟨⟨fs, ed, phase⟩, d⟩ := r
  cases phase with
  | idle =>
    cases c with
    | main heap => exact edMain_inv h hclean.1 hclean.2
    | getchar => exact h
  | reading line =>
    cases c with
    | main => exact h
    | getchar c heaps =>
      obtain ⟨made, holds, short⟩ := h
      obtain ⟨more, whole⟩ := readLine_short short c
      unfold edRunStep edStep lineEditorStep
      dsimp only
      cases hread : readLine lineSize line c with
      | more l => exact ⟨made, holds, more l hread⟩
      | line l =>
        exact edTurn_inv (s := ⟨fs, ed, .reading line⟩) made holds
          (Nat.lt_of_le_of_lt (strlen_lineText l) (whole l hread)) heaps
      | eof => exact .inl made
  | exited => trivial
  | outside => exact h

/-- A session that does not start clean is wrong at its start. -/
theorem EdRun.Inv.wrong {r : EdRun} (h : r.Inv) {c : EdCall} (hbad : ¬ EdStartsClean r c) :
    ¬ EdRight (edRunStep r c) := by
  obtain ⟨⟨fs, ed, phase⟩, d⟩ := r
  cases phase with
  | idle =>
    cases c with
    | main heap =>
      have made : EdAllocated ed := by
        refine h.resolve_right fun hstart => hbad ?_
        show ed.contentLen = 0 ∧ ed.insertMode = false
        rw [show ed = edStart from hstart]
        exact ⟨rfl, rfl⟩
      exact edMain_wrong (s := ⟨fs, ed, .idle⟩) made hbad
    | getchar => exact absurd trivial hbad
  | reading | exited | outside => exact absurd trivial hbad

/-! ## Runs -/

/-- No answer from the heap matters here but the first. -/
def oneBlock : EdHeaps := { grow := some fun _ => 0, create := none, write := none }

end Unics
