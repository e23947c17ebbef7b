import Unics.Laws.Libc.Getchar
import Unics.Laws.Vga.Typing
import Unics.Lib.Simulation
import Unics.Libc.Terminal

/-!
# What is typed is what is shown

The terminal as it is meant: a text that has been shown, a line that is being typed, and what of
finished lines the program has not read. There is no buffer with a length and a position, and no
screen with an end. `UserTerminal.step` is this terminal, and `terminal_shows` is the refinement:
over whole runs the program reads the same characters, and the screen shows the end of the text and
of the line, however often it is scrolled and however far a line is taken back.

The one thing to keep away from is a newline at a full buffer, which is stored past its end.
-/

namespace Unics

open Unics.Lib

/-! ## The terminal as it is meant -/

structure UserTerminal where
  shown : List UInt8
  line : List UInt8
  reading : Bool
  unread : List UInt8
  pushed : Option UInt8
  returned : List (Option UInt8)

namespace UserTerminal

variable (u : UserTerminal)

def start : UserTerminal := ⟨[], [], false, [], none, []⟩

def answer (c : Option UInt8) : UserTerminal := { u with returned := u.returned ++ [c] }

/-- The line is handed to the program, which gets its first character. -/
def finish (text : List UInt8) : UserTerminal :=
  { u with
    shown := u.shown ++ text
    line := []
    reading := false
    unread := text.tail
    returned := u.returned ++ [text.head?] }

def step : TerminalEvent → UserTerminal
  | .print text => if u.reading then u else { u with shown := u.shown ++ text }
  | .call =>
    if u.reading then u
    else
      match u.pushed, u.unread with
      | some c, _ => { u with pushed := none }.answer (some c)
      | none, c :: unread => { u with unread := unread }.answer (some c)
      | none, [] => { u with reading := true }
  | .unget c =>
    if u.reading then u
    else if u.pushed = none then { u with pushed := c }.answer c
    else u.answer none
  | .key c =>
    if u.reading then
      if c = 10 then u.finish (u.line ++ [10])
      -- a full line is handed out without a newline
      else if c = eof ∨ u.line.length = inputBufferSize - 1 then u.finish u.line
      else { u with line := typeKey isErase isKept (fun _ => true) u.line c }
    else u

/-- What is printed are characters, newlines and tabs, and no newline meets a full line. -/
def Fits : TerminalEvent → Prop
  | .print text => ∀ c ∈ text, Printable c ∨ c = 10 ∨ c = 9
  | .key c => u.reading = true → c = 10 → u.line.length < inputBufferSize - 1
  | _ => True

end UserTerminal

/-! ## The text on the screen -/

theorem isKept_printable {c : UInt8} (h : isKept c = true) : Printable c := by
  obtain ⟨low, high⟩ := Bool.and_eq_true_iff.mp h
  exact ⟨of_decide_eq_true low, of_decide_eq_true high⟩

/-! ## The code's terminal and this one -/

structure TerminalIs (color : UInt8) (t : Terminal) (u : UserTerminal) : Prop where
  reading : t.reading = u.reading
  returned : t.returned = u.returned
  pushed : t.stdin.ungetChar = u.pushed
  within : t.stdin.inputBufferPos ≤ t.stdin.inputBufferLen ∧
    t.stdin.inputBufferLen ≤ inputBufferSize
  filling : u.reading = true → t.stdin.inputBufferPos = 0 ∧
    t.stdin.inputBufferLen ≤ inputBufferSize - 1 ∧
    bytesAt t.stdin.inputBuffer 0 t.stdin.inputBufferLen = u.line
  waiting : u.reading = false → u.line = [] ∧ t.stdin.unread = u.unread ∧
    (t.stdin.inputBufferPos < t.stdin.inputBufferLen → t.stdin.inputBufferValid = true)
  kept : ∀ c ∈ u.line, isKept c = true
  screen : t.vga.ShowsLine color u.shown u.line

theorem terminalStart_is {vga : Vga} (hbuf : vga.buffer = true) :
    Ends (terminalStart vga) (TerminalIs vga.color · .start) :=
  (vgaClear_shows hbuf).bind fun _ hs => ends_some.mpr
    { reading := rfl
      returned := rfl
      pushed := rfl
      within := ⟨Nat.le_refl 0, Nat.zero_le _⟩
      filling := fun h => absurd h Bool.noConfusion
      waiting := fun _ => ⟨rfl, rfl, fun h => absurd h (Nat.lt_irrefl 0)⟩
      kept := fun _ h => absurd h List.not_mem_nil
      screen := Vga.ShowsText.showsLine (hs.showsEnd 0) }

/-! ### The end of a line -/

/-- A line is handed out, its first character at once. -/
structure HandsOut (s : Stdin) (line : List UInt8) (r : GetcharTurn × Stdin) : Prop where
  turn : r.1 = .returned line.head?
  unread : r.2.unread = line.tail
  pushed : r.2.ungetChar = s.ungetChar
  within : r.2.inputBufferPos ≤ r.2.inputBufferLen ∧ r.2.inputBufferLen ≤ inputBufferSize
  valid : r.2.inputBufferValid = true

theorem LineEnded.handsOut {s : Stdin} {line : List UInt8} {r : GetcharTurn × Stdin}
    (h : LineEnded s line r) : HandsOut s line r := by
  obtain ⟨c, hturn, rfl⟩ := h.first
  exact ⟨hturn, rfl, h.unget, h.within, h.valid⟩

/-- A line that ends without a newline. -/
theorem getcharEnd_handsOut {s : Stdin} {c : UInt8} (hc : c ≠ 10) (hpos : s.inputBufferPos = 0)
    (hlen : s.inputBufferLen ≤ inputBufferSize - 1) :
    Ends (getcharEnd s c) (HandsOut s (bytesAt s.inputBuffer 0 s.inputBufferLen)) := by
  have size : inputBufferSize = 256 := rfl
  have room : s.inputBufferLen < 256 := by omega
  unfold getcharEnd
  rw [if_neg hc]
  dsimp only [Option.bind_eq_bind, Option.bind_some]
  rw [storeChar_of_lt _ _ room]
  dsimp only [Option.bind_some]
  have line : bytesAt (Function.update s.inputBuffer s.inputBufferLen 0) 0 s.inputBufferLen =
      bytesAt s.inputBuffer 0 s.inputBufferLen := bytesAt_update (.inr (by omega)) 0
  by_cases hsome : 0 < s.inputBufferLen
  · rw [hpos, if_pos hsome, getcharNext_eq (Nat.succ_pos 255)]
    have next := Stdin.unread_next (s := { s with
      inputBuffer := Function.update s.inputBuffer s.inputBufferLen 0, inputBufferPos := 0,
      inputBufferValid := true }) hsome
    have first : bytesAt s.inputBuffer 0 s.inputBufferLen = _ := line.symm.trans next
    rw [first]
    exact ends_some.mpr ⟨rfl, rfl, rfl, ⟨hsome, Nat.le_of_lt room⟩, rfl⟩
  · have none : s.inputBufferLen = 0 := Nat.eq_zero_of_not_pos hsome
    rw [hpos, if_neg hsome, none]
    exact ends_some.mpr ⟨rfl, rfl, rfl, ⟨Nat.le_refl 0, Nat.zero_le _⟩, rfl⟩

section Steps

variable {color : UInt8} {t : Terminal} {u : UserTerminal} {c : UInt8}

theorem TerminalIs.finish (h : TerminalIs color t u) {text : List UInt8} {vga : Vga}
    {turn : GetcharTurn × Stdin} (hturn : HandsOut t.stdin text turn)
    (hscreen : vga.ShowsLine color u.shown text) :
    TerminalIs color (Terminal.put { t with vga := vga } turn) (u.finish text) := by
  obtain ⟨turn, s⟩ := turn
  obtain rfl := hturn.turn
  exact
    { reading := rfl
      returned := congrArg (· ++ [text.head?]) h.returned
      pushed := hturn.pushed.trans h.pushed
      within := hturn.within
      filling := fun h => absurd h Bool.noConfusion
      waiting := fun _ => ⟨rfl, hturn.unread, fun _ => hturn.valid⟩
      kept := fun _ h => absurd h List.not_mem_nil
      screen := hscreen.showsText.showsLine }

/-! ### The program -/

theorem TerminalIs.print (h : TerminalIs color t u) {text : List UInt8}
    (htext : ∀ c ∈ text, Printable c ∨ c = 10 ∨ c = 9) :
    Ends (terminalStep (some t) (.print text)) (TerminalIs color · (u.step (.print text))) := by
  show Ends (if t.reading then some t else _) fun t' =>
    TerminalIs color t' (if u.reading then u else _)
  rw [h.reading]
  cases hreading : u.reading with
  | true => exact ends_some.mpr h
  | false =>
    rw [if_neg Bool.false_ne_true, if_neg Bool.false_ne_true]
    obtain ⟨hline, -⟩ := h.waiting hreading
    refine (h.screen.puts htext).bind fun vga hvga => ?_
    rw [hline, List.nil_append] at hvga
    exact ends_some.mpr
      { h with
        reading := rfl
        filling := fun h => absurd h Bool.noConfusion
        waiting := fun _ => h.waiting hreading
        screen := hline ▸ hvga.showsText.showsLine }

theorem TerminalIs.call (h : TerminalIs color t u) :
    Ends (terminalStep (some t) .call) (TerminalIs color · (u.step .call)) := by
  show Ends (if t.reading then some t else _) fun t' =>
    TerminalIs color t' (if u.reading then u else _)
  rw [h.reading]
  cases hreading : u.reading with
  | true => exact ends_some.mpr h
  | false =>
    rw [if_neg Bool.false_ne_true, if_neg Bool.false_ne_true, getcharCall, h.pushed]
    obtain ⟨hline, hunread, hvalid⟩ := h.waiting hreading
    cases hpushed : u.pushed with
    | some c =>
      exact ends_some.mpr
        { h with
          reading := rfl
          returned := congrArg (· ++ [some c]) h.returned
          pushed := rfl
          filling := fun h => absurd h Bool.noConfusion
          waiting := fun _ => ⟨hline, hunread, hvalid⟩ }
    | none =>
      dsimp only
      by_cases hnext : t.stdin.inputBufferPos < t.stdin.inputBufferLen
      · rw [if_pos ⟨hvalid hnext, hnext⟩,
          getcharNext_eq (Nat.lt_of_lt_of_le hnext h.within.2)]
        rw [Stdin.unread_next hnext] at hunread
        rw [← hunread]
        exact ends_some.mpr
          { h with
            reading := rfl
            returned := congrArg (· ++ _) h.returned
            pushed := h.pushed.trans hpushed
            within := ⟨hnext, h.within.2⟩
            filling := fun h => absurd h Bool.noConfusion
            waiting := fun _ => ⟨hline, rfl, fun _ => hvalid hnext⟩ }
      · rw [if_neg fun hboth => hnext hboth.2]
        rw [Stdin.unread_eq_nil (Nat.le_of_not_lt hnext)] at hunread
        rw [← hunread]
        exact ends_some.mpr
          { h with
            reading := rfl
            pushed := rfl
            within := ⟨Nat.le_refl 0, Nat.zero_le _⟩
            filling := fun _ => ⟨rfl, Nat.zero_le _, hline.symm⟩
            waiting := fun h => absurd h Bool.noConfusion }

theorem TerminalIs.unget (h : TerminalIs color t u) (c : Option UInt8) :
    Ends (terminalStep (some t) (.unget c)) (TerminalIs color · (u.step (.unget c))) := by
  show Ends (if t.reading then some t else _) fun t' =>
    TerminalIs color t' (if u.reading then u else _)
  rw [h.reading]
  cases hreading : u.reading with
  | true => exact ends_some.mpr h
  | false =>
    rw [if_neg Bool.false_ne_true, if_neg Bool.false_ne_true, h.pushed]
    have waiting := h.waiting hreading
    cases hpushed : u.pushed with
    | some d =>
      rw [if_neg (Option.some_ne_none d)]
      exact ends_some.mpr
        { h with
          reading := hreading.symm
          returned := congrArg (· ++ [none]) h.returned }
    | none =>
      rw [if_pos rfl]
      exact ends_some.mpr
        { h with
          reading := rfl
          returned := congrArg (· ++ [c]) h.returned
          pushed := rfl
          filling := fun h => absurd h Bool.noConfusion
          waiting := fun _ => waiting }

/-! ### The keys -/

/-- A key that a call waits for: its echo, and its turn. -/
theorem terminalStep_key (hreading : t.reading = true) (c : UInt8) {P : Vga → Prop}
    {Q : GetcharTurn × Stdin → Prop} {R : Terminal → Prop}
    (hecho : Ends ((getcharEcho t.stdin c).foldlM vgaPutchar t.vga) P)
    (hturn : Ends (getcharTurn t.stdin c) Q)
    (hnext : ∀ vga turn, P vga → Q turn → R (Terminal.put { t with vga := vga } turn)) :
    Ends (terminalStep (some t) (.key c)) R := by
  show Ends (if t.reading then _ else _) R
  rw [if_pos hreading]
  exact hecho.bind fun vga hvga => hturn.bind fun turn hq => ends_some.mpr (hnext vga turn hvga hq)

/-- What the buffer holds after a key that goes on with the line. -/
structure Typing (s : Stdin) (line : List UInt8) (s' : Stdin) : Prop where
  pushed : s'.ungetChar = s.ungetChar
  position : s'.inputBufferPos = 0
  length : s'.inputBufferLen ≤ inputBufferSize - 1
  bytes : bytesAt s'.inputBuffer 0 s'.inputBufferLen = line
  kept : ∀ c ∈ line, isKept c = true

theorem TerminalIs.typing (h : TerminalIs color t u) (hreading : u.reading = true) {s : Stdin}
    {line echo : List UInt8} (hturn : getcharTurn t.stdin c = some (.reading, s))
    (hecho : getcharEcho t.stdin c = echo) (hline : Typing t.stdin line s)
    (hscreen : Ends (echo.foldlM vgaPutchar t.vga) (Vga.ShowsLine · color u.shown line)) :
    Ends (terminalStep (some t) (.key c)) (TerminalIs color · { u with line := line }) := by
  rw [← hecho] at hscreen
  refine terminalStep_key (Q := fun turn => turn = (.reading, s)) (h.reading.trans hreading) c
    hscreen (hturn ▸ ends_some.mpr rfl) fun vga turn hvga hturn => ?_
  rw [hturn]
  exact
    { reading := hreading.symm
      returned := h.returned
      pushed := hline.pushed.trans h.pushed
      within := ⟨hline.position ▸ Nat.zero_le _,
        Nat.le_trans hline.length (by decide : inputBufferSize - 1 ≤ inputBufferSize)⟩
      filling := fun _ => ⟨hline.position, hline.length, hline.bytes⟩
      waiting := fun hnot => absurd (hreading.symm.trans hnot) Bool.noConfusion
      kept := hline.kept
      screen := hvga }

theorem TerminalIs.length_line (h : TerminalIs color t u) (hreading : u.reading = true) :
    t.stdin.inputBufferLen = u.line.length := by
  obtain ⟨-, -, hline⟩ := h.filling hreading
  rw [← hline, length_bytesAt]

theorem TerminalIs.key_newline (h : TerminalIs color t u) (hreading : u.reading = true)
    (hroom : u.line.length < inputBufferSize - 1) :
    Ends (terminalStep (some t) (.key 10)) (TerminalIs color · (u.finish (u.line ++ [10]))) := by
  obtain ⟨hpos, -, hline⟩ := h.filling hreading
  have ended := getcharEnd_newline hpos (h.length_line hreading ▸ hroom)
  rw [hline, ← getcharTurn_newline] at ended
  have echo : Ends ([10].foldlM vgaPutchar t.vga) _ :=
    h.screen.puts fun c hc => .inr (.inl (List.mem_singleton.mp hc))
  refine terminalStep_key (h.reading.trans hreading) 10 echo ended fun vga turn hvga hturn => ?_
  exact h.finish hturn.handsOut hvga

/-- A key that ends the line without a newline. -/
theorem TerminalIs.key_handed (h : TerminalIs color t u) (hreading : u.reading = true)
    (hc : c ≠ 10) (hend : c = eof ∨ u.line.length = inputBufferSize - 1) :
    Ends (terminalStep (some t) (.key c)) (TerminalIs color · (u.finish u.line)) := by
  obtain ⟨hpos, hlen, hline⟩ := h.filling hreading
  have stop : ¬ (c ≠ 10 ∧ c ≠ eof ∧ t.stdin.inputBufferLen < inputBufferSize - 1) := by
    rw [h.length_line hreading]
    rintro ⟨-, hne, hlt⟩
    exact hend.elim hne fun hfull => absurd hfull (Nat.ne_of_lt hlt)
  have ended := getcharEnd_handsOut hc hpos hlen
  have turn : getcharTurn t.stdin c = getcharEnd t.stdin c := if_neg stop
  have echo : getcharEcho t.stdin c = [] := (if_neg stop).trans (if_neg hc)
  rw [hline, ← turn] at ended
  have screen : Ends ((getcharEcho t.stdin c).foldlM vgaPutchar t.vga)
      (Vga.ShowsLine · color u.shown u.line) := by
    rw [echo]
    exact ends_some.mpr h.screen
  exact terminalStep_key (h.reading.trans hreading) c screen ended fun vga turn hvga hturn =>
    h.finish hturn hvga

/-- The turn of a key that is not the last one of its line. -/
structure Goes (u : UserTerminal) (c : UInt8) : Prop where
  newline : c ≠ 10
  eof : c ≠ eof
  room : u.line.length < inputBufferSize - 1

theorem TerminalIs.key_goes (h : TerminalIs color t u) (hreading : u.reading = true)
    (hc : Goes u c) : getcharEcho t.stdin c =
      if isErase c then if 0 < t.stdin.inputBufferLen then [8, 32, 8] else []
      else if isKept c then [c] else [] :=
  if_pos ⟨hc.newline, hc.eof, h.length_line hreading ▸ hc.room⟩

/-- A key that erases takes the last character of the line off the screen. -/
theorem TerminalIs.key_erase (h : TerminalIs color t u) (hreading : u.reading = true)
    (hc : Goes u c) (herase : isErase c = true) :
    Ends (terminalStep (some t) (.key c))
      (TerminalIs color · { u with line := u.line.dropLast }) := by
  obtain ⟨hpos, hlen, hline⟩ := h.filling hreading
  have count := h.length_line hreading
  have echo := h.key_goes hreading hc
  have turn := getcharTurn_body hc.newline hc.eof (count ▸ hc.room)
  rw [if_pos herase] at echo turn
  have kept : ∀ c ∈ u.line.dropLast, isKept c = true := fun c hc =>
    h.kept c (List.dropLast_subset _ hc)
  by_cases hsome : 0 < t.stdin.inputBufferLen
  · rw [if_pos hsome] at echo turn
    have rest : u.line ≠ [] := List.ne_nil_of_length_pos (count ▸ hsome)
    -- the end of the line is a few rows below its start
    have few : u.line.length ≤ 80 * 22 := count ▸ Nat.le_trans hlen (by decide)
    refine h.typing hreading turn echo ⟨rfl, hpos, Nat.le_trans (Nat.sub_le _ _) hlen, ?_, kept⟩
      (h.screen.erase rest (fun c hc => isKept_printable (h.kept c hc)) few)
    rw [← hline]
    exact bytesAt_pop ..
  · have nothing : u.line = [] := List.eq_nil_of_length_eq_zero (by omega)
    have screen := h.screen
    rw [if_neg hsome] at echo turn
    rw [nothing] at hline kept screen ⊢
    exact h.typing hreading turn echo ⟨rfl, hpos, hlen, hline, kept⟩ (ends_some.mpr screen)

/-- A key that is kept is shown. -/
theorem TerminalIs.key_kept (h : TerminalIs color t u) (hreading : u.reading = true)
    (hc : Goes u c) (herase : isErase c = false) (hkept : isKept c = true) :
    Ends (terminalStep (some t) (.key c))
      (TerminalIs color · { u with line := u.line ++ [c] }) := by
  obtain ⟨hpos, -, hline⟩ := h.filling hreading
  have room := hc.room
  rw [← h.length_line hreading] at room
  have echo := h.key_goes hreading hc
  have turn := getcharTurn_body hc.newline hc.eof room
  rw [if_neg (Bool.not_eq_true _ ▸ herase), if_pos hkept] at echo turn
  have shown : Ends ([c].foldlM vgaPutchar t.vga) _ :=
    h.screen.puts fun d hd => .inl (List.mem_singleton.mp hd ▸ isKept_printable hkept)
  have push := bytesAt_push t.stdin.inputBuffer 0 t.stdin.inputBufferLen c
  rw [Nat.zero_add, hline] at push
  refine h.typing hreading turn echo ⟨rfl, hpos, room, push, fun d hd => ?_⟩ shown
  rcases List.mem_append.mp hd with hd | hd
  · exact h.kept d hd
  · exact List.mem_singleton.mp hd ▸ hkept

/-- Another key changes nothing. -/
theorem TerminalIs.key_ignored (h : TerminalIs color t u) (hreading : u.reading = true)
    (hc : Goes u c) (herase : isErase c = false) (hkept : isKept c = false) :
    Ends (terminalStep (some t) (.key c)) (TerminalIs color · u) := by
  obtain ⟨hpos, hlen, hline⟩ := h.filling hreading
  have echo := h.key_goes hreading hc
  have turn := getcharTurn_body hc.newline hc.eof (h.length_line hreading ▸ hc.room)
  rw [if_neg (Bool.not_eq_true _ ▸ herase), if_neg (Bool.not_eq_true _ ▸ hkept)] at echo turn
  exact h.typing hreading turn echo ⟨rfl, hpos, hlen, hline, h.kept⟩ (ends_some.mpr h.screen)

/-- Every key is what the user takes it for. -/
theorem TerminalIs.key (h : TerminalIs color t u) (hfits : u.Fits (.key c)) :
    Ends (terminalStep (some t) (.key c)) (TerminalIs color · (u.step (.key c))) := by
  show Ends _ fun t' => TerminalIs color t' (if u.reading then if c = 10 then _ else _ else u)
  by_cases hreading : u.reading = true
  · rw [if_pos hreading]
    split
    · next hnewline =>
      subst hnewline
      exact h.key_newline hreading (hfits hreading rfl)
    · next hnewline =>
      split
      · next hend => exact h.key_handed hreading hnewline hend
      · next hend =>
        obtain ⟨heof, hfull⟩ := not_or.mp hend
        have few : u.line.length ≤ inputBufferSize - 1 :=
          h.length_line hreading ▸ (h.filling hreading).2.1
        have goes : Goes u c := ⟨hnewline, heof, Nat.lt_of_le_of_ne few hfull⟩
        cases herase : isErase c with
        | true =>
          rw [typeKey_erase herase]
          exact h.key_erase hreading goes herase
        | false =>
          cases hkept : isKept c with
          | true =>
            rw [typeKey_keep herase hkept rfl]
            exact h.key_kept hreading goes herase hkept
          | false =>
            rw [typeKey_skip herase fun h => absurd (hkept.symm.trans h) Bool.noConfusion]
            exact h.key_ignored hreading goes herase hkept
  · refine ⟨t, ?_, ?_⟩
    · exact if_neg (h.reading ▸ hreading)
    · rw [if_neg hreading]
      exact h

/-- One step of either. -/
theorem TerminalIs.step (h : TerminalIs color t u) {e : TerminalEvent} (hfits : u.Fits e) :
    Ends (terminalStep (some t) e) (TerminalIs color · (u.step e)) := by
  cases e with
  | print text => exact h.print hfits
  | call => exact h.call
  | unget c => exact h.unget c
  | key c => exact h.key hfits

end Steps

/-- Over every run of a program at the console, what `getchar` returns is what the user has typed,
and the screen shows the end of what has been shown and of the line that is being typed. -/
theorem terminal_shows {vga : Vga} (hbuf : vga.buffer = true) (events : List TerminalEvent)
    (hevents : EveryStep UserTerminal.step UserTerminal.Fits .start events) :
    Ends (runFrom terminalStep (terminalStart vga) events)
      (TerminalIs vga.color · (runFrom UserTerminal.step .start events)) := by
  have run : Ends (runFrom terminalStep (terminalStart vga) (events.map id))
      (TerminalIs vga.color · (runFrom UserTerminal.step .start events)) := by
    refine hevents.simulates (R := fun u t => Ends t (TerminalIs vga.color · u)) ?_
      (terminalStart_is hbuf)
    rintro u _ e ⟨t, rfl, h⟩ hfits
    exact h.step hfits
  rwa [List.map_id] at run

/-- A question, and an answer with a backspace in it. -/
theorem terminal_shows_answer :
    Ends (runFrom terminalStep (terminalStart ⟨3, 7, vgaColorDefault, true, fun _ => 0, 0⟩)
        [.print [63], .call, .key 97, .key 8, .key 98, .key 10, .call])
      (TerminalIs vgaColorDefault · (runFrom UserTerminal.step .start
        [.print [63], .call, .key 97, .key 8, .key 98, .key 10, .call])) :=
  terminal_shows rfl _ ⟨by simp [UserTerminal.Fits, Printable], trivial, fun _ _ => by decide,
    fun _ _ => by decide, fun _ _ => by decide, fun _ _ => by decide, trivial, trivial⟩

end Unics
