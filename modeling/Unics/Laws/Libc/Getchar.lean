import Unics.Lib.EditLine
import Unics.Lib.Run
import Unics.Libc.Stdio
import Unics.Dev.Keyboard

/-!
# Lines of input

What `getchar` hands out is what was typed, line by line, as long as no line meets the end of the
buffer. A key that comes when 255 characters are there is taken from the keyboard and lost: a
character is dropped, a backspace is ignored, and a newline is stored with its terminator behind the
array. And the characters that such a line has handed out already can no longer be erased.

`getchar_line_iff` is the exact condition over whole runs.
-/

namespace Unics

open Unics.Lib

/-! ## What is typed -/

/-- The lines that are finished, and the one that is being typed. -/
def typedKey (t : List UInt8 × List UInt8) (c : UInt8) : List UInt8 × List UInt8 :=
  if c = 10 then (t.1 ++ t.2 ++ [10], []) else (t.1, typeKey isErase isKept (fun _ => true) t.2 c)

def typed (keys : List UInt8) : List UInt8 × List UInt8 := keys.foldl typedKey ([], [])

/-- The text that the keys type: unprintable characters dropped, each backspace with the character
before it on its line, newlines kept. -/
def typedText (keys : List UInt8) : List UInt8 := (typed keys).1 ++ (typed keys).2

theorem typed_concat (keys : List UInt8) (c : UInt8) :
    typed (keys ++ [c]) = typedKey (typed keys) c := by
  rw [typed, List.foldl_append]
  rfl

theorem typedText_newline (keys : List UInt8) :
    typedText (keys ++ [10]) = typedText keys ++ [10] := by
  rw [typedText, typed_concat, typedKey, if_pos rfl]
  exact List.append_nil _

theorem typed_key {c : UInt8} (hc : c ≠ 10) (keys : List UInt8) :
    typed (keys ++ [c]) =
      ((typed keys).1, typeKey isErase isKept (fun _ => true) (typed keys).2 c) := by
  rw [typed_concat, typedKey, if_neg hc]

theorem isErase_newline {c : UInt8} (h : isErase c = true) : c ≠ 10 ∧ isKept c = false := by
  rcases Bool.or_eq_true_iff.mp h with h | h
  · rw [eq_of_beq h]
    decide
  · rw [eq_of_beq h]
    decide

theorem isKept_newline {c : UInt8} (h : isKept c = true) : c ≠ 10 ∧ isErase c = false := by
  refine ⟨?_, Bool.eq_false_iff.mpr fun herase => ?_⟩
  · rintro rfl
    exact absurd h (by decide)
  · exact absurd (h.symm.trans (isErase_newline herase).2) Bool.noConfusion

/-- The characters that neither are kept nor change anything. -/
def Ignored (c : UInt8) : Prop := c ≠ 10 ∧ isErase c = false ∧ isKept c = false

theorem typed_ignored {c : UInt8} (h : Ignored c) (keys : List UInt8) :
    typed (keys ++ [c]) = typed keys := by
  rw [typed_key h.1,
    typeKey_skip h.2.1 fun hkeep => absurd (h.2.2.symm.trans hkeep) Bool.noConfusion]

theorem typed_kept {c : UInt8} (h : isKept c = true) (keys : List UInt8) :
    typed (keys ++ [c]) = ((typed keys).1, (typed keys).2 ++ [c]) := by
  obtain ⟨hne, herase⟩ := isKept_newline h
  rw [typed_key hne, typeKey_keep herase h rfl]

theorem typed_erase {c : UInt8} (h : isErase c = true) (keys : List UInt8) :
    typed (keys ++ [c]) = ((typed keys).1, (typed keys).2.dropLast) := by
  rw [typed_key (isErase_newline h).1, typeKey_erase h]

/-! ## The property -/

/-- What is in the buffer and not yet returned. -/
def Stdin.unread (s : Stdin) : List UInt8 :=
  bytesAt s.inputBuffer s.inputBufferPos (s.inputBufferLen - s.inputBufferPos)

/-- What has been returned and what waits in the buffer are together the text that was typed. -/
def GetcharRun.Right (r : GetcharRun) : Prop :=
  r.returned ++ r.stdin.unread.map some = (typedText r.consumed).map some

/-- No access has been outside the buffer, and the text is right. -/
def GetcharRight (r : Option GetcharRun) : Prop := Ends r GetcharRun.Right

/-- A key finds the buffer with room for it, unless it is one that is ignored, and a backspace does
not find the buffer empty while the line has characters, which have then been returned. -/
def GetcharFits (r : Option GetcharRun) (e : GetcharEvent) : Prop :=
  ∀ t c, r = some t → t.reading = true → e = .key c →
    (t.stdin.inputBufferLen < inputBufferSize - 1 ∨ Ignored c) ∧
      (isErase c = true → t.stdin.inputBufferLen = 0 → (typed t.consumed).2 = [])

/-! ## The invariant -/

/-- What a run keeps as long as its keys fit. -/
structure GetcharSound (r : GetcharRun) : Prop where
  unget : r.stdin.ungetChar = none
  right : r.Right
  within : r.stdin.inputBufferPos ≤ r.stdin.inputBufferLen ∧
    r.stdin.inputBufferLen ≤ inputBufferSize
  valid : r.reading = false → r.stdin.inputBufferPos < r.stdin.inputBufferLen →
    r.stdin.inputBufferValid = true
  filling : r.reading = true → r.stdin.inputBufferPos = 0 ∧
    r.stdin.inputBufferLen ≤ inputBufferSize - 1 ∧
    ∃ flushed, (typed r.consumed).2 = flushed ++ r.stdin.unread ∧
      r.returned = ((typed r.consumed).1 ++ flushed).map some

/-- The next character of the buffer. -/
theorem getcharNext_eq {s : Stdin} (h : s.inputBufferPos < inputBufferSize) :
    getcharNext s = some (.returned (some (s.inputBuffer s.inputBufferPos)),
      { s with inputBufferPos := s.inputBufferPos + 1 }) := by
  rw [getcharNext, loadChar_of_lt _ h]
  rfl

/-- It is the first of those that are not returned yet. -/
theorem Stdin.unread_next {s : Stdin} (h : s.inputBufferPos < s.inputBufferLen) :
    s.unread = s.inputBuffer s.inputBufferPos ::
      Stdin.unread { s with inputBufferPos := s.inputBufferPos + 1 } := by
  have count : s.inputBufferLen - s.inputBufferPos =
      s.inputBufferLen - (s.inputBufferPos + 1) + 1 := by
    omega
  rw [Stdin.unread, count, bytesAt_succ]
  rfl

theorem Stdin.unread_eq_nil {s : Stdin} (h : s.inputBufferLen ≤ s.inputBufferPos) :
    s.unread = [] := by
  rw [Stdin.unread, Nat.sub_eq_zero_of_le h]
  rfl

/-- A call keeps the invariant. -/
theorem GetcharSound.call {r : GetcharRun} (h : GetcharSound r) :
    Ends (getcharStep (some r) .call) GetcharSound := by
  show Ends (if r.reading then some r else _) _
  cases hreading : r.reading with
  | true =>
    rw [if_pos rfl]
    exact ends_some.mpr h
  | false =>
    rw [if_neg Bool.noConfusion, getcharCall, h.unget]
    by_cases hnext : r.stdin.inputBufferPos < r.stdin.inputBufferLen
    · have hpos := Nat.lt_of_lt_of_le hnext h.within.2
      dsimp only
      rw [if_pos ⟨h.valid hreading hnext, hnext⟩, getcharNext_eq hpos]
      refine ends_some.mpr ⟨h.unget, ?_, ⟨hnext, h.within.2⟩, fun _ _ => h.valid hreading hnext,
        fun h => absurd h Bool.noConfusion⟩
      have right := h.right
      rw [GetcharRun.Right, Stdin.unread_next hnext] at right
      show r.returned ++ [some _] ++ List.map some _ = _
      rw [List.append_assoc]
      exact right
    · have right := h.right
      rw [GetcharRun.Right, Stdin.unread_eq_nil (Nat.le_of_not_lt hnext)] at right
      dsimp only
      rw [if_neg fun hboth => hnext hboth.2]
      refine ends_some.mpr ⟨rfl, ?_, ⟨Nat.le_refl 0, Nat.zero_le _⟩,
        fun h => absurd h Bool.noConfusion,
        fun _ => ⟨rfl, Nat.zero_le _, (typed r.consumed).2, (List.append_nil _).symm, ?_⟩⟩
      · exact right
      · exact (List.append_nil _).symm.trans right

/-! ## The ends of a line -/

/-- A line that ends hands out its first character. -/
structure LineEnded (s : Stdin) (line : List UInt8) (r : GetcharTurn × Stdin) : Prop where
  unget : r.2.ungetChar = s.ungetChar
  within : r.2.inputBufferPos ≤ r.2.inputBufferLen ∧ r.2.inputBufferLen ≤ inputBufferSize
  valid : r.2.inputBufferValid = true
  first : ∃ c, r.1 = .returned (some c) ∧ c :: r.2.unread = line

/-- A newline that finds room. -/
theorem getcharEnd_newline {s : Stdin} (hpos : s.inputBufferPos = 0)
    (hlen : s.inputBufferLen < inputBufferSize - 1) :
    Ends (getcharEnd s 10)
      (LineEnded s (bytesAt s.inputBuffer 0 s.inputBufferLen ++ [10])) := by
  have size : inputBufferSize = 256 := rfl
  have room : s.inputBufferLen < 256 := by omega
  have behind : s.inputBufferLen + 1 < 256 := by omega
  unfold getcharEnd
  rw [if_pos rfl, storeChar_of_lt _ _ room]
  dsimp only [Option.bind_eq_bind, Option.bind_some]
  rw [storeChar_of_lt _ _ behind]
  dsimp only [Option.bind_some]
  rw [hpos, if_pos (Nat.succ_pos _), getcharNext_eq (Nat.succ_pos 255)]
  refine ends_some.mpr ⟨rfl, ⟨Nat.succ_pos _, room⟩, rfl, _, rfl, ?_⟩
  refine (Stdin.unread_next (s := { s with
    inputBuffer := _, inputBufferPos := 0, inputBufferLen := s.inputBufferLen + 1,
    inputBufferValid := true }) (Nat.succ_pos _)).symm.trans ?_
  show bytesAt (Function.update _ (s.inputBufferLen + 1) 0) 0 (s.inputBufferLen + 1) = _
  have push := bytesAt_push s.inputBuffer 0 s.inputBufferLen 10
  rw [Nat.zero_add] at push
  rw [bytesAt_update (.inr (by omega)), push]

/-- A line that is handed out because the buffer is full. -/
theorem getcharEnd_full {s : Stdin} {c : UInt8} (hc : c ≠ 10) (hpos : s.inputBufferPos = 0)
    (hlen : s.inputBufferLen = inputBufferSize - 1) :
    Ends (getcharEnd s c) (LineEnded s (bytesAt s.inputBuffer 0 s.inputBufferLen)) := by
  have size : inputBufferSize = 256 := rfl
  have room : s.inputBufferLen < 256 := by omega
  have some : 0 < s.inputBufferLen := by omega
  unfold getcharEnd
  rw [if_neg hc]
  dsimp only [Option.bind_eq_bind, Option.bind_some]
  rw [storeChar_of_lt _ _ room]
  dsimp only [Option.bind_some]
  rw [hpos, if_pos some, getcharNext_eq (Nat.succ_pos 255)]
  refine ends_some.mpr ⟨rfl, ⟨some, Nat.le_of_lt room⟩, rfl, _, rfl, ?_⟩
  refine (Stdin.unread_next (s := { s with
    inputBuffer := Function.update s.inputBuffer s.inputBufferLen 0, inputBufferPos := 0,
    inputBufferValid := true }) some).symm.trans ?_
  show bytesAt (Function.update _ s.inputBufferLen 0) 0 s.inputBufferLen = _
  rw [bytesAt_update (.inr (by omega))]

/-- A newline that finds the buffer full: its terminator is stored behind the array. -/
theorem getcharEnd_overrun {s : Stdin} (hlen : s.inputBufferLen = inputBufferSize - 1) :
    getcharEnd s 10 = none := by
  have size : inputBufferSize = 256 := rfl
  have room : s.inputBufferLen < 256 := by omega
  unfold getcharEnd
  rw [if_pos rfl, storeChar_of_lt _ _ room]
  dsimp only [Option.bind_eq_bind, Option.bind_some]
  rw [hlen]
  rfl

/-! ## One key -/

section Keys

variable {r : GetcharRun} {c : UInt8}

/-- What is in the buffer while a line is read. -/
theorem GetcharSound.unread_filling (h : GetcharSound r) (hreading : r.reading = true) :
    r.stdin.unread = bytesAt r.stdin.inputBuffer 0 r.stdin.inputBufferLen := by
  rw [Stdin.unread, (h.filling hreading).1]
  rfl

/-- A key that ends the line. -/
theorem GetcharSound.ended (h : GetcharSound r) {line : List UInt8} {turn : GetcharTurn × Stdin}
    (hend : LineEnded r.stdin line turn)
    (htext : r.returned ++ line.map some = (typedText (r.consumed ++ [c])).map some) :
    GetcharSound ({ r with consumed := r.consumed ++ [c] }.put turn) := by
  obtain ⟨unget, within, valid, first, hturn, rfl⟩ := hend
  obtain ⟨turn, s⟩ := turn
  obtain rfl := hturn
  refine ⟨unget.trans h.unget, ?_, within, fun _ _ => valid, fun h => absurd h Bool.noConfusion⟩
  show r.returned ++ [some first] ++ s.unread.map some = _
  rw [List.append_assoc]
  exact htext

/-- A key after which the line is read on. -/
theorem GetcharSound.typing {s : Stdin} {keys : List UInt8} (flushed : List UInt8)
    (hunget : s.ungetChar = none) (hpos : s.inputBufferPos = 0)
    (hlen : s.inputBufferLen ≤ inputBufferSize - 1)
    (hline : (typed keys).2 = flushed ++ s.unread)
    (hreturned : r.returned = ((typed keys).1 ++ flushed).map some) :
    GetcharSound ({ r with consumed := keys }.put (.reading, s)) := by
  refine ⟨hunget, ?_, ⟨hpos ▸ Nat.zero_le _, Nat.le_trans hlen (Nat.sub_le _ _)⟩,
    fun h => absurd h Bool.noConfusion, fun _ => ⟨hpos, hlen, flushed, hline, hreturned⟩⟩
  show r.returned ++ s.unread.map some = (typedText keys).map some
  rw [hreturned, typedText, hline, ← List.map_append, List.append_assoc]

/-- The text grows by what the key adds to it, at the end. -/
theorem GetcharSound.line_text (h : GetcharSound r) (hreading : r.reading = true) :
    r.returned ++ (bytesAt r.stdin.inputBuffer 0 r.stdin.inputBufferLen).map some =
      (typedText r.consumed).map some := by
  rw [← h.unread_filling hreading]
  exact h.right

theorem typedText_ignored (hc : Ignored c) (keys : List UInt8) :
    typedText (keys ++ [c]) = typedText keys := by
  rw [typedText, typed_ignored hc]
  rfl

/-- A turn in which the key finds no newline, no end and room. -/
theorem getcharTurn_body {s : Stdin} (hne : c ≠ 10) (heof : c ≠ eof)
    (hlen : s.inputBufferLen < inputBufferSize - 1) :
    getcharTurn s c =
      if isErase c then
        if 0 < s.inputBufferLen then
          some (.reading, { s with inputBufferLen := s.inputBufferLen - 1 })
        else some (.reading, s)
      else if isKept c then
        some (.reading,
          { s with
            inputBuffer := Function.update s.inputBuffer s.inputBufferLen c
            inputBufferLen := s.inputBufferLen + 1 })
      else some (.reading, s) := by
  have room : s.inputBufferLen < 256 := Nat.lt_of_lt_of_le hlen (Nat.sub_le _ _)
  rw [getcharTurn, if_pos ⟨hne, heof, hlen⟩, storeChar_of_lt _ _ room]
  rfl

/-- A turn in which the key finds the buffer full. -/
theorem getcharTurn_full {s : Stdin} (hlen : s.inputBufferLen = inputBufferSize - 1) (c : UInt8) :
    getcharTurn s c = getcharEnd s c :=
  if_neg fun h => absurd h.2.2 (Nat.not_lt.mpr (Nat.le_of_eq hlen.symm))

theorem getcharTurn_newline (s : Stdin) : getcharTurn s 10 = getcharEnd s 10 :=
  if_neg fun h => h.1 rfl

/-- A run while a line is read takes the key. -/
theorem getcharStep_key (hreading : r.reading = true) (c : UInt8) :
    getcharStep (some r) (.key c) =
      (getcharTurn r.stdin c).map
        fun turn => { r with consumed := r.consumed ++ [c] }.put turn := by
  show (if r.reading then _ else _) = _
  rw [if_pos hreading]
  exact bind_pure_comp .. |>.trans rfl

/-- A key that erases, at a buffer that is empty only where there is nothing to erase. -/
theorem GetcharSound.key_erase (h : GetcharSound r) (hreading : r.reading = true) (heof : c ≠ eof)
    (hroom : r.stdin.inputBufferLen < inputBufferSize - 1) (herase : isErase c = true)
    (herased : r.stdin.inputBufferLen = 0 → (typed r.consumed).2 = []) :
    Ends (getcharStep (some r) (.key c)) GetcharSound := by
  obtain ⟨hpos, hlen, flushed, hline, hreturned⟩ := h.filling hreading
  rw [h.unread_filling hreading] at hline
  rw [getcharStep_key hreading, getcharTurn_body (isErase_newline herase).1 heof hroom,
    if_pos herase]
  by_cases hsome : 0 < r.stdin.inputBufferLen
  · rw [if_pos hsome]
    refine ends_some.mpr (.typing flushed h.unget hpos
      (Nat.le_trans (Nat.sub_le _ _) hlen) ?_ ?_)
    · have some : bytesAt r.stdin.inputBuffer 0 r.stdin.inputBufferLen ≠ [] := by
        intro hnil
        have count := congrArg List.length hnil
        rw [length_bytesAt] at count
        exact absurd count (Nat.ne_of_gt hsome)
      rw [typed_erase herase, hline, List.dropLast_append_of_ne_nil some, ← bytesAt_pop]
      rw [Stdin.unread, hpos]
      rfl
    · rw [typed_erase herase]
      exact hreturned
  · have nothing := herased (Nat.eq_zero_of_not_pos hsome)
    rw [if_neg hsome]
    refine ends_some.mpr (.typing flushed h.unget hpos hlen ?_ ?_)
    · rw [typed_erase herase, nothing]
      rw [nothing] at hline
      rw [h.unread_filling hreading, ← hline]
      rfl
    · rw [typed_erase herase]
      exact hreturned

/-- A key that is kept. -/
theorem GetcharSound.key_kept (h : GetcharSound r) (hreading : r.reading = true) (hnewline : c ≠ 10)
    (heof : c ≠ eof) (hroom : r.stdin.inputBufferLen < inputBufferSize - 1)
    (herase : isErase c = false) (hkept : isKept c = true) :
    Ends (getcharStep (some r) (.key c)) GetcharSound := by
  obtain ⟨hpos, -, flushed, hline, hreturned⟩ := h.filling hreading
  rw [h.unread_filling hreading] at hline
  rw [getcharStep_key hreading, getcharTurn_body hnewline heof hroom,
    if_neg (Bool.not_eq_true _ ▸ herase), if_pos hkept]
  refine ends_some.mpr (.typing flushed h.unget hpos hroom ?_ ?_)
  · have push := bytesAt_push r.stdin.inputBuffer 0 r.stdin.inputBufferLen c
    rw [Nat.zero_add] at push
    rw [typed_kept hkept, hline, List.append_assoc, ← push, Stdin.unread, hpos]
    rfl
  · rw [typed_kept hkept]
    exact hreturned

/-- A key that is ignored ends the line all the same where the buffer is full. -/
theorem GetcharSound.key_ignored (h : GetcharSound r) (hreading : r.reading = true)
    (heof : c ≠ eof) (hc : Ignored c) : Ends (getcharStep (some r) (.key c)) GetcharSound := by
  obtain ⟨hpos, hlen, flushed, hline, hreturned⟩ := h.filling hreading
  rw [getcharStep_key hreading]
  by_cases hroom : r.stdin.inputBufferLen < inputBufferSize - 1
  · rw [getcharTurn_body hc.1 heof hroom, if_neg (Bool.not_eq_true _ ▸ hc.2.1),
      if_neg (Bool.not_eq_true _ ▸ hc.2.2)]
    refine ends_some.mpr (.typing flushed h.unget hpos hlen ?_ ?_)
    · rw [typed_ignored hc]
      exact hline
    · rw [typed_ignored hc]
      exact hreturned
  · have full : r.stdin.inputBufferLen = inputBufferSize - 1 := by omega
    rw [getcharTurn_full full]
    refine (getcharEnd_full hc.1 hpos full).map fun turn hend => h.ended hend ?_
    rw [typedText_ignored hc]
    exact h.line_text hreading

/-- A key that fits keeps the invariant. -/
theorem GetcharSound.key (h : GetcharSound r) (hreading : r.reading = true) (heof : c ≠ eof)
    (hroom : r.stdin.inputBufferLen < inputBufferSize - 1 ∨ Ignored c)
    (herased : isErase c = true → r.stdin.inputBufferLen = 0 → (typed r.consumed).2 = []) :
    Ends (getcharStep (some r) (.key c)) GetcharSound := by
  rcases hroom with hroom | hignored
  · by_cases hnewline : c = 10
    · subst hnewline
      obtain ⟨hpos, -⟩ := h.filling hreading
      rw [getcharStep_key hreading, getcharTurn_newline]
      refine (getcharEnd_newline hpos hroom).map fun turn hend => h.ended hend ?_
      rw [List.map_append, ← List.append_assoc, h.line_text hreading, typedText_newline,
        List.map_append]
    · cases herase : isErase c with
      | true => exact h.key_erase hreading heof hroom herase (herased herase)
      | false =>
        cases hkept : isKept c with
        | true => exact h.key_kept hreading hnewline heof hroom herase hkept
        | false => exact h.key_ignored hreading heof ⟨hnewline, herase, hkept⟩
  · exact h.key_ignored hreading heof hignored

/-! Where the text goes wrong, its length does. -/

theorem length_typedText (keys : List UInt8) :
    (typedText keys).length = (typed keys).1.length + (typed keys).2.length :=
  List.length_append

theorem length_typedText_erase (hc : isErase c = true) (keys : List UInt8) :
    (typedText (keys ++ [c])).length =
      (typed keys).1.length + ((typed keys).2.length - 1) := by
  simp only [typedText, typed_erase hc, List.length_append, List.length_dropLast]

theorem length_typedText_kept (hc : isKept c = true) (keys : List UInt8) :
    (typedText (keys ++ [c])).length = (typed keys).1.length + (typed keys).2.length + 1 := by
  simp only [typedText, typed_kept hc, List.length_append, List.length_singleton, Nat.add_assoc]

/-- A turn that reads on or ends the line leaves a right text only if the key adds nothing to it. -/
theorem GetcharSound.length_of_right (h : GetcharSound r) (hreading : r.reading = true)
    {turn : GetcharTurn × Stdin} (hturn : (∃ line, LineEnded r.stdin line turn ∧
      line.length = r.stdin.inputBufferLen) ∨ turn = (.reading, r.stdin))
    (right : GetcharRun.Right ({ r with consumed := r.consumed ++ [c] }.put turn)) :
    (typedText (r.consumed ++ [c])).length = (typedText r.consumed).length := by
  have text := congrArg List.length (h.line_text hreading)
  rw [List.length_append, List.length_map, List.length_map, length_bytesAt] at text
  rcases hturn with ⟨line, ⟨-, -, -, first, hturn, rfl⟩, hlength⟩ | rfl
  · obtain ⟨turn, s⟩ := turn
    obtain rfl := hturn
    have length := congrArg List.length right
    simp only [GetcharRun.put, List.length_append, List.length_map, List.length_cons,
      List.length_nil] at length hlength
    omega
  · have length := congrArg List.length right
    simp only [GetcharRun.put, List.length_append, List.length_map,
      h.unread_filling hreading, length_bytesAt] at length
    omega

/-- A key that does not fit leaves a text that is not right, or an access outside the buffer. -/
theorem GetcharSound.key_not_right (h : GetcharSound r) (hreading : r.reading = true)
    (heof : c ≠ eof) (hfits : ¬ ((r.stdin.inputBufferLen < inputBufferSize - 1 ∨ Ignored c) ∧
      (isErase c = true → r.stdin.inputBufferLen = 0 → (typed r.consumed).2 = []))) :
    ¬ GetcharRight (getcharStep (some r) (.key c)) := by
  obtain ⟨hpos, hlen, flushed, hline, hreturned⟩ := h.filling hreading
  have line := length_typedText r.consumed
  rintro ⟨t, ht, right⟩
  rw [getcharStep_key hreading] at ht
  by_cases hfull : r.stdin.inputBufferLen < inputBufferSize - 1
  · -- a backspace at an empty buffer
    have herased : isErase c = true ∧ r.stdin.inputBufferLen = 0 ∧ (typed r.consumed).2 ≠ [] := by
      by_contra hnot
      refine hfits ⟨.inl hfull, fun herase hzero => ?_⟩
      by_contra hne
      exact hnot ⟨herase, hzero, hne⟩
    obtain ⟨herase, hzero, hne⟩ := herased
    rw [getcharTurn_body (isErase_newline herase).1 heof hfull, if_pos herase,
      if_neg (Nat.not_lt.mpr (Nat.le_of_eq hzero))] at ht
    obtain rfl := Option.some.inj ht
    have same := h.length_of_right hreading (.inr rfl) right
    have short := length_typedText_erase herase r.consumed
    have := List.length_pos_iff.mpr hne
    omega
  · have full : r.stdin.inputBufferLen = inputBufferSize - 1 := by omega
    rw [getcharTurn_full full] at ht
    by_cases hnewline : c = 10
    · subst hnewline
      rw [getcharEnd_overrun full] at ht
      exact absurd ht.symm (Option.some_ne_none t)
    · obtain ⟨turn, hend, ended⟩ := getcharEnd_full hnewline hpos full
      rw [hend] at ht
      obtain rfl := Option.some.inj ht
      have same := h.length_of_right hreading (.inl ⟨_, ended, length_bytesAt ..⟩) right
      cases herase : isErase c with
      | true =>
        have short := length_typedText_erase herase r.consumed
        have some := congrArg List.length hline
        rw [h.unread_filling hreading, List.length_append, length_bytesAt, full] at some
        have size : inputBufferSize = 256 := rfl
        omega
      | false =>
        cases hkept : isKept c with
        | true =>
          have long := length_typedText_kept hkept r.consumed
          omega
        | false =>
          refine hfits ⟨.inr ⟨hnewline, herase, hkept⟩, fun herased => ?_⟩
          exact absurd (herase.symm.trans herased) Bool.noConfusion

end Keys

/-! ## Runs -/

/-- What a run keeps, as long as no access is outside the buffer. -/
def GetcharHolds (r : Option GetcharRun) : Prop := Ends r GetcharSound

/-- The character is not the one that reads as `EOF`. -/
def GetcharEvent.NotEof (e : GetcharEvent) : Prop := ∀ c, e = .key c → c ≠ eof

theorem GetcharHolds.step {r : Option GetcharRun} {e : GetcharEvent} (h : GetcharHolds r)
    (he : e.NotEof) (hfits : GetcharFits r e) : GetcharHolds (getcharStep r e) := by
  obtain ⟨t, rfl, h⟩ := h
  cases e with
  | call => exact h.call
  | key c =>
    cases hreading : t.reading with
    | true =>
      obtain ⟨hroom, herased⟩ := hfits t c rfl hreading rfl
      exact h.key hreading (he c rfl) hroom herased
    | false =>
      refine ⟨t, ?_, h⟩
      show (if t.reading then _ else _) = _
      rw [hreading]
      rfl

theorem GetcharHolds.right {r : Option GetcharRun} (h : GetcharHolds r) : GetcharRight r :=
  Ends.mono h fun _ h => h.right

theorem GetcharHolds.not_right {r : Option GetcharRun} {e : GetcharEvent} (h : GetcharHolds r)
    (he : e.NotEof) (hfits : ¬ GetcharFits r e) : ¬ GetcharRight (getcharStep r e) := by
  obtain ⟨t, rfl, h⟩ := h
  intro hright
  refine hfits fun t' c ht hreading hc => ?_
  obtain rfl := Option.some.inj ht
  subst hc
  by_contra hnot
  exact h.key_not_right hreading (he c rfl) hnot hright

theorem getcharRunStart_holds : GetcharHolds getcharRunStart :=
  ends_some.mpr ⟨rfl, rfl, ⟨Nat.le_refl 0, Nat.zero_le _⟩, fun _ h => absurd h (Nat.lt_irrefl 0),
    fun h => absurd h Bool.noConfusion⟩

/-- An entry of a table without that character, or the zero behind its end. -/
theorem getD_ne_eof {l : List UInt8} (h : l.all (· != eof) = true) (n : Nat) :
    l.getD n 0 ≠ eof := by
  by_cases hn : n < l.length
  · rw [List.getD_eq_getElem _ _ hn]
    exact bne_iff_ne.mp (List.all_eq_true.mp h _ (List.getElem_mem hn))
  · rw [List.getD_eq_default _ _ (Nat.le_of_not_lt hn)]
    decide

/-- `kb_getchar` never returns the character that reads as `EOF`. -/
theorem kbGetcharTurn_ne_eof {hw : KbController} {kb : Kb} {c : UInt8}
    (h : (kbGetcharTurn hw kb).1 = some c) : c ≠ eof := by
  have plain := getD_ne_eof (l := kbScancodeToAscii) (by decide)
  have shifted := getD_ne_eof (l := kbShiftScancodeToAscii) (by decide)
  have ascii : ∀ state scancode, scancodeToAscii state scancode ≠ eof := by
    intro state scancode
    unfold scancodeToAscii
    dsimp only
    split
    · split
      · exact shifted _
      · exact plain _
    · split
      · exact shifted _
      · exact plain _
  unfold kbGetcharTurn at h
  dsimp only at h
  split at h
  · exact absurd h.symm (Option.some_ne_none c)
  · split at h
    · exact absurd h.symm (Option.some_ne_none c)
    · split at h
      · exact absurd h.symm (Option.some_ne_none c)
      · split at h
        · obtain rfl := Option.some.inj h
          exact ascii _ _
        · exact absurd h.symm (Option.some_ne_none c)

/-- In every run of calls and keys, what has been returned and what waits in the buffer are the text
typed so far, with no access outside the buffer, exactly when every key fits. -/
theorem getchar_line_iff (events : List GetcharEvent) (hkeys : ∀ e ∈ events, e.NotEof) :
    EveryState getcharStep GetcharRight getcharRunStart events ↔
      EveryStep getcharStep GetcharFits getcharRunStart events :=
  everyState_iff_within (fun _ _ h he hfits => h.step he hfits) (fun _ h => h.right)
    (fun _ _ h he hfits => h.not_right he hfits) getcharRunStart_holds
    (everyStep_of_forall hkeys)

/-- A call that reads a key, a backspace and a line. -/
theorem getchar_line_iff_short :
    EveryState getcharStep GetcharRight getcharRunStart
        [.call, .key 97, .key 8, .key 98, .key 10, .call] ↔
      EveryStep getcharStep GetcharFits getcharRunStart
        [.call, .key 97, .key 8, .key 98, .key 10, .call] :=
  getchar_line_iff [.call, .key 97, .key 8, .key 98, .key 10, .call] (by
    intro e he c hc
    subst hc
    simp only [List.mem_cons, reduceCtorEq, GetcharEvent.key.injEq, List.not_mem_nil, or_false,
      false_or] at he
    rcases he with rfl | rfl | rfl | rfl <;> decide)

/-- 255 characters on a line, and a newline: the terminator is stored behind the array. -/
theorem getchar_line_full :
    ¬ EveryState getcharStep GetcharRight getcharRunStart
      (.call :: (List.replicate 255 (.key 97) ++ [.key 10])) := by
  intro h
  have overrun : (runFrom getcharStep getcharRunStart
      (.call :: (List.replicate 255 (.key 97) ++ [.key 10]))).isNone = true := by
    decide +kernel
  obtain ⟨t, ht, -⟩ := h.last
  rw [ht] at overrun
  exact absurd overrun Bool.noConfusion

end Unics
