import Unics.Laws.Libc.Getchar
import Unics.Libc.Scanf

/-!
# What the console hands out

A text that is typed comes out of `getchar` as it is, except that characters which are not kept are
left out, and that of a line with more than 254 characters every 256th is lost, or the newline is
where the buffer overflows (`getcharAnswers_eq`).
-/

namespace Unics

open Unics.Lib

/-- What is handed out of the keys, behind the characters that wait in the buffer. -/
def handedOut (line : List UInt8) : List UInt8 → List UInt8
  | [] => []
  | c :: keys =>
    if line.length < inputBufferSize - 1 then
      if c = 10 then line ++ 10 :: handedOut [] keys
      else handedOut (if isKept c then line ++ [c] else line) keys
    else if c = 10 then [] else line ++ handedOut [] keys

/-- A line that fits comes out unchanged. -/
theorem handedOut_line {line body : List UInt8} (hkept : ∀ c ∈ body, isKept c = true)
    (hfits : line.length + body.length < inputBufferSize - 1) :
    handedOut line (body ++ [10]) = line ++ (body ++ [10]) := by
  induction body generalizing line with
  | nil =>
    have room : line.length < inputBufferSize - 1 := hfits
    show handedOut line [10] = _
    rw [handedOut, if_pos room, if_pos rfl]
    rfl
  | cons c body ih =>
    have hc := hkept c List.mem_cons_self
    have count : (c :: body).length = body.length + 1 := rfl
    rw [List.cons_append, handedOut, if_pos (by omega), if_neg (isKept_newline hc).1, if_pos hc,
      ih (fun d hd => hkept d (List.mem_cons_of_mem c hd)), List.append_assoc]
    · rfl
    · rw [List.length_append, List.length_singleton]
      omega

/-- Nothing is handed out that is not typed. -/
theorem mem_handedOut {line keys : List UInt8} {c : UInt8} (h : c ∈ handedOut line keys) :
    c ∈ line ∨ c ∈ keys := by
  induction keys generalizing line with
  | nil => exact absurd h List.not_mem_nil
  | cons d keys ih =>
    have later (h : c ∈ handedOut [] keys) : c ∈ d :: keys :=
      List.mem_cons_of_mem d ((ih h).resolve_left List.not_mem_nil)
    rw [handedOut] at h
    split at h
    · split at h
      · next hd =>
        rcases List.mem_append.mp h with h | h
        · exact .inl h
        · rcases List.mem_cons.mp h with rfl | h
          · exact .inr (hd ▸ List.mem_cons_self)
          · exact .inr (later h)
      · rcases ih h with h | h
        · split at h
          · rcases List.mem_append.mp h with h | h
            · exact .inl h
            · exact .inr (List.mem_singleton.mp h ▸ List.mem_cons_self)
          · exact .inl h
        · exact .inr (List.mem_cons_of_mem d h)
    · split at h
      · exact absurd h List.not_mem_nil
      · rcases List.mem_append.mp h with h | h
        · exact .inl h
        · exact .inr (later h)

/-! ## Calls -/

section Calls

variable {s : Stdin} {keys : List UInt8} {n : ℕ}

/-- Nothing is in the buffer that could be returned. -/
structure Stdin.Empty (s : Stdin) : Prop where
  unget : s.ungetChar = none
  read : s.inputBufferLen ≤ s.inputBufferPos

/-- A line is read, of which these characters are there. -/
structure Stdin.Reads (s : Stdin) (line : List UInt8) : Prop where
  unget : s.ungetChar = none
  start : s.inputBufferPos = 0
  within : s.inputBufferLen ≤ inputBufferSize - 1
  line : bytesAt s.inputBuffer 0 s.inputBufferLen = line

theorem Stdin.Reads.length {line : List UInt8} (h : s.Reads line) :
    line.length = s.inputBufferLen := by
  rw [← h.line, length_bytesAt]

theorem stdinStart_empty : stdinStart.Empty := ⟨rfl, Nat.le_refl 0⟩

/-- A call that finds nothing in the buffer begins a line. -/
theorem Stdin.Empty.getcharKeys (h : s.Empty) (keys : List UInt8) :
    ∃ t : Stdin, t.Reads [] ∧ getcharKeys s keys = getcharAwait t keys := by
  refine ⟨{ s with inputBufferPos := 0, inputBufferLen := 0, inputBufferValid := false },
    ⟨h.unget, rfl, Nat.zero_le _, rfl⟩, ?_⟩
  rw [Unics.getcharKeys, getcharCall, h.unget]
  dsimp only
  rw [if_neg fun hboth => absurd hboth.2 (Nat.not_lt.mpr h.read)]

/-- What the buffer holds is returned by the next calls, whatever is typed. -/
theorem getcharAnswers_unread (keys : List UInt8) (hunget : s.ungetChar = none)
    (hvalid : s.inputBufferValid = true) (hwithin : s.inputBufferLen ≤ inputBufferSize)
    (hn : s.unread.length ≤ n) :
    ∃ t : Stdin, t.Empty ∧
      getcharAnswers n s keys =
        s.unread.map some ++ getcharAnswers (n - s.unread.length) t keys := by
  induction n generalizing s with
  | zero =>
    have none := List.length_eq_zero_iff.mp (Nat.le_zero.mp hn)
    rw [none]
    refine ⟨s, ⟨hunget, ?_⟩, rfl⟩
    by_contra hlt
    rw [Stdin.unread_next (Nat.lt_of_not_le hlt)] at none
    exact absurd none (List.cons_ne_nil _ _)
  | succ n ih =>
    by_cases hnext : s.inputBufferPos < s.inputBufferLen
    · have call : getcharKeys s keys = some (some (s.inputBuffer s.inputBufferPos),
          { s with inputBufferPos := s.inputBufferPos + 1 }, keys) := by
        rw [getcharKeys, getcharCall, hunget]
        dsimp only
        rw [if_pos ⟨hvalid, hnext⟩, getcharNext_eq (Nat.lt_of_lt_of_le hnext hwithin), hunget]
      rw [Stdin.unread_next hnext] at hn ⊢
      obtain ⟨t, ht, hrest⟩ := ih (s := { s with inputBufferPos := s.inputBufferPos + 1 }) hunget
        hvalid hwithin (Nat.le_of_succ_le_succ hn)
      refine ⟨t, ht, ?_⟩
      rw [getcharAnswers, call, List.length_cons, Nat.add_sub_add_right]
      exact congrArg (_ :: ·) hrest
    · have read := Nat.le_of_not_lt hnext
      rw [Stdin.unread_eq_nil read]
      exact ⟨s, ⟨hunget, read⟩, rfl⟩

/-- The calls from one that waits on. -/
def answersFrom (n : ℕ) : Option (Option UInt8 × Stdin × List UInt8) → List (Option UInt8)
  | none => []
  | some (c, s, keys) => c :: getcharAnswers n s keys

theorem getcharAnswers_succ (n : ℕ) (s : Stdin) (keys : List UInt8) :
    getcharAnswers (n + 1) s keys = answersFrom n (getcharKeys s keys) := by
  rw [getcharAnswers]
  rcases getcharKeys s keys with _ | ⟨c, s, keys⟩
  · rfl
  · rfl

/-- A line that ends is handed out, and then what follows. -/
theorem answersFrom_ended {line out : List UInt8} {turn : GetcharTurn × Stdin} {c : UInt8}
    (hunget : s.ungetChar = none) (hturn : getcharTurn s c = some turn)
    (hend : LineEnded s line turn) (hn : line.length ≤ n + 1)
    (hrest : ∀ t : Stdin, t.Empty → getcharAnswers (n + 1 - line.length) t keys = out.map some) :
    answersFrom n (getcharAwait s (c :: keys)) = (line ++ out).map some := by
  obtain ⟨turn, t⟩ := turn
  obtain ⟨unget, within, valid, first, hfirst, rfl⟩ := hend
  obtain rfl := hfirst
  have call : getcharAwait s (c :: keys) = some (some first, t, keys) := by
    rw [getcharAwait, hturn]
  obtain ⟨u, hu, hanswers⟩ := getcharAnswers_unread keys (unget.trans hunget) valid
    within.2 (Nat.le_of_succ_le_succ hn)
  have behind := hrest u hu
  rw [List.length_cons, Nat.add_sub_add_right] at behind
  rw [call, answersFrom, hanswers, behind, List.cons_append, List.map_cons, List.map_append]

section Keys

variable {line : List UInt8} {c : UInt8}

/-- A key that is kept. -/
theorem Stdin.Reads.kept (h : s.Reads line) (hroom : line.length < inputBufferSize - 1)
    (heof : c ≠ eof) (hkept : isKept c = true) (keys : List UInt8) :
    ∃ t : Stdin, t.Reads (line ++ [c]) ∧ getcharAwait s (c :: keys) = getcharAwait t keys := by
  obtain ⟨hnewline, herase⟩ := isKept_newline hkept
  have room : s.inputBufferLen < inputBufferSize - 1 := h.length ▸ hroom
  have turn := getcharTurn_body hnewline heof room
  rw [herase, if_neg Bool.false_ne_true, if_pos hkept] at turn
  have push := bytesAt_push s.inputBuffer 0 s.inputBufferLen c
  rw [Nat.zero_add, h.line] at push
  refine ⟨{ s with
    inputBuffer := Function.update s.inputBuffer s.inputBufferLen c
    inputBufferLen := s.inputBufferLen + 1 }, ⟨h.unget, h.start, room, push⟩, ?_⟩
  rw [getcharAwait, turn]

/-- A key that is neither kept nor erases. -/
theorem Stdin.Reads.ignored (h : s.Reads line) (hroom : line.length < inputBufferSize - 1)
    (heof : c ≠ eof) (hc : Ignored c) (keys : List UInt8) :
    getcharAwait s (c :: keys) = getcharAwait s keys := by
  obtain ⟨hnewline, herase, hkept⟩ := hc
  have turn := getcharTurn_body hnewline heof (h.length ▸ hroom)
  rw [herase, if_neg Bool.false_ne_true, hkept, if_neg Bool.false_ne_true] at turn
  rw [getcharAwait, turn]

theorem Stdin.Reads.full (h : s.Reads line) (hroom : ¬ line.length < inputBufferSize - 1) :
    s.inputBufferLen = inputBufferSize - 1 :=
  Nat.le_antisymm h.within (h.length ▸ Nat.le_of_not_lt hroom)

/-- A newline that does not fit. -/
theorem Stdin.Reads.overrun (h : s.Reads line) (hroom : ¬ line.length < inputBufferSize - 1)
    (keys : List UInt8) : getcharAwait s (10 :: keys) = none := by
  have full := h.full hroom
  rw [getcharAwait, getcharTurn_full full, getcharEnd_overrun full]

end Keys

/-- The answers from a call that reads a line. -/
theorem answersFrom_reads {line : List UInt8} (hreads : s.Reads line)
    (hkeys : ∀ c ∈ keys, c ≠ eof ∧ isErase c = false) (hn : line.length + keys.length ≤ n + 1) :
    answersFrom n (getcharAwait s keys) = (handedOut line keys).map some := by
  induction keys generalizing s line n with
  | nil => rfl
  | cons c keys ih =>
    obtain ⟨heof, herase⟩ := hkeys c List.mem_cons_self
    have others : ∀ c ∈ keys, c ≠ eof ∧ isErase c = false :=
      fun d hd => hkeys d (List.mem_cons_of_mem c hd)
    have count : (c :: keys).length = keys.length + 1 := rfl
    -- the calls behind the line
    have behind {m : ℕ} (hm : keys.length ≤ m) (t : Stdin) (ht : t.Empty) :
        getcharAnswers m t keys = (handedOut [] keys).map some := by
      cases m with
      | zero =>
        obtain rfl := List.length_eq_zero_iff.mp (Nat.le_zero.mp hm)
        rfl
      | succ m =>
        obtain ⟨u, hu, hcall⟩ := ht.getcharKeys keys
        rw [getcharAnswers_succ, hcall]
        exact ih hu others (by rw [List.length_nil, Nat.zero_add]; exact hm)
    rw [handedOut]
    by_cases hroom : line.length < inputBufferSize - 1
    · rw [if_pos hroom]
      by_cases hnewline : c = 10
      · subst hnewline
        obtain ⟨turn, hturn, hend⟩ := getcharEnd_newline hreads.start (hreads.length ▸ hroom)
        rw [hreads.line] at hend
        have length : (line ++ [10]).length = line.length + 1 := List.length_append
        rw [if_pos rfl, List.append_cons]
        exact answersFrom_ended hreads.unget ((getcharTurn_newline s).trans hturn) hend (by omega)
          (behind (by omega))
      · rw [if_neg hnewline]
        by_cases hkept : isKept c = true
        · obtain ⟨t, ht, hnext⟩ := hreads.kept hroom heof hkept keys
          rw [if_pos hkept, hnext]
          refine ih ht others ?_
          rw [List.length_append, List.length_singleton]
          omega
        · have ignored : Ignored c := ⟨hnewline, herase, Bool.eq_false_iff.mpr hkept⟩
          rw [if_neg hkept, hreads.ignored hroom heof ignored]
          exact ih hreads others (by omega)
    · rw [if_neg hroom]
      by_cases hnewline : c = 10
      · subst hnewline
        rw [if_pos rfl, hreads.overrun hroom]
        rfl
      · have full := hreads.full hroom
        obtain ⟨turn, hturn, hend⟩ := getcharEnd_full hnewline hreads.start full
        rw [hreads.line] at hend
        rw [if_neg hnewline]
        exact answersFrom_ended hreads.unget ((getcharTurn_full full c).trans hturn) hend (by omega)
          (behind (by omega))

/-- What calls return when nothing is erased, if there are enough of them. -/
theorem getcharAnswers_eq (hkeys : ∀ c ∈ keys, c ≠ eof ∧ isErase c = false) (hn : keys.length ≤ n) :
    getcharAnswers n stdinStart keys = (handedOut [] keys).map some := by
  cases n with
  | zero =>
    obtain rfl := List.length_eq_zero_iff.mp (Nat.le_zero.mp hn)
    rfl
  | succ n =>
    obtain ⟨t, ht, hcall⟩ := stdinStart_empty.getcharKeys keys
    rw [getcharAnswers_succ, hcall]
    exact answersFrom_reads ht hkeys (by rw [List.length_nil, Nat.zero_add]; exact hn)

end Calls

end Unics
