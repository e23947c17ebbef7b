import Unics.Dev.Shell
import Unics.Laws.Libc.Strings
import Unics.Lib.Fields

/-!
# Two tokenizers, one argument vector

Both tokenizers skip blanks, take what comes up to the next one, store a terminator there and go on
behind it. What is stored behind an argument does not change it, so at the end the arguments are the
fields of the line, as many as there is room for (`tokenizers_agree`). The token that
`shell_process_input` fetches and has no room for makes no difference.
-/

namespace Unics

open Unics.Lib

/-! ## An argument -/

section Argument

variable {size p : Nat} {buf : Buffer}

/-- A word with its terminator is an argument, whatever is behind. -/
theorem argument_eq {word : List UInt8} (hbytes : bytesAt buf p word.length = word)
    (hstop : buf (p + word.length) = 0) (hinside : p + word.length < size)
    (hnul : (0 : UInt8) ∉ word) : argument size buf p = word := by
  have held : (List.range word.length).map (fun i => buf (p + i)) = word := by
    rw [bytesAt, List.range'_eq_map_range, List.map_map] at hbytes
    exact hbytes
  rw [argument, textOf_eq (k := word.length) (by omega) ?_ fun _ => hstop, held]
  intro i hi hzero
  refine hnul ?_
  rw [← hbytes, ← hzero]
  exact List.mem_map.mpr ⟨p + i, List.mem_range'_1.mpr ⟨by omega, by omega⟩, rfl⟩

end Argument

/-! ## A turn -/

/-- Where a turn finds its word, and what it leaves. -/
structure WordAt (size : Nat) (buf : Buffer) (p : Nat) (front word tail : List UInt8) : Prop where
  line : LineAt size buf p (front ++ (word ++ tail))
  front : ∀ c ∈ front, isBlank c = true
  nonempty : word ≠ []
  word : ∀ c ∈ word, isBlank c = false
  tail : ∀ c, tail.head? = some c → isBlank c = true

section WordAt

variable {size p : Nat} {buf : Buffer} {front word tail : List UInt8}

theorem WordAt.wordLine (h : WordAt size buf p front word tail) :
    LineAt size buf (p + front.length) (word ++ tail) := h.line.advance

theorem WordAt.tailLine (h : WordAt size buf p front word tail) :
    LineAt size buf (p + front.length + word.length) tail := h.wordLine.advance

theorem WordAt.head_word (h : WordAt size buf p front word tail) :
    ∃ c, (word ++ tail).head? = some c ∧ isBlank c = false := by
  obtain ⟨c, rest, rfl⟩ := List.exists_cons_of_ne_nil h.nonempty
  exact ⟨c, rfl, h.word c List.mem_cons_self⟩

/-- The line does not end before the word. -/
theorem WordAt.start_ne (h : WordAt size buf p front word tail) :
    (front ++ (word ++ tail)).head?.getD 0 ≠ 0 := by
  refine h.line.head_ne fun hnil => ?_
  exact h.nonempty (List.append_eq_nil_iff.mp (List.append_eq_nil_iff.mp hnil).2).1

theorem WordAt.word_ne (h : WordAt size buf p front word tail) :
    (word ++ tail).head?.getD 0 ≠ 0 :=
  h.wordLine.head_ne fun hnil => h.nonempty (List.append_eq_nil_iff.mp hnil).1

/-- A scan that stops at no blank finds the word. -/
theorem WordAt.skip_front (h : WordAt size buf p front word tail) {test : UInt8 → Bool}
    (htest : ∀ c, c ≠ 0 → test c = isBlank c) :
    skipWhile size buf test p = some (p + front.length) := by
  obtain ⟨c, hc, hblank⟩ := h.head_word
  have ne := h.word_ne
  rw [hc, Option.getD_some] at ne
  refine h.line.skip (fun d hd => ?_) ?_
  · rw [htest d fun hzero => h.line.noNul (hzero ▸ List.mem_append_left _ hd)]
    exact h.front d hd
  · rw [hc, Option.getD_some, htest c ne]
    exact hblank

/-- A scan that stops at a blank, or at the terminator, finds the end of the word. -/
theorem WordAt.skip_word (h : WordAt size buf p front word tail) {test : UInt8 → Bool}
    (htest : ∀ c, c ≠ 0 → test c = !isBlank c) (hzero : test 0 = false) :
    skipWhile size buf test (p + front.length) = some (p + front.length + word.length) := by
  refine h.wordLine.skip (fun d hd => ?_) ?_
  · rw [htest d fun heq => h.wordLine.noNul (heq ▸ List.mem_append_left _ hd), h.word d hd]
    rfl
  · cases htail : tail.head? with
    | none => exact hzero
    | some c =>
      have ne : c ≠ 0 := fun heq => h.tailLine.noNul (heq ▸ List.mem_of_mem_head? htail)
      rw [Option.getD_some, htest c ne, h.tail c htail]
      rfl

/-- The line behind a word, once a terminator is stored behind it. -/
theorem WordAt.rest {c : UInt8} {more : List UInt8} (h : WordAt size buf p front word (c :: more)) :
    LineAt size (Function.update buf (p + front.length + word.length) 0)
      (p + front.length + word.length + 1) more := by
  have tailLine : LineAt size buf (p + front.length + word.length) ([c] ++ more) := h.tailLine
  have behind : LineAt size buf (p + front.length + word.length + 1) more := tailLine.advance
  exact behind.update (Nat.lt_succ_self _) 0

/-- The word stays an argument as long as it and its terminator are left alone. -/
theorem WordAt.argument (h : WordAt size buf p front word tail) {buf' : Buffer}
    (hsame : ∀ i < p + front.length + word.length, buf' i = buf i)
    (hstop : buf' (p + front.length + word.length) = 0) :
    argument size buf' (p + front.length) = word := by
  have bytes := h.wordLine.bytes
  have inside := h.wordLine.inside
  rw [List.length_append] at bytes inside
  rw [bytesAt_add] at bytes
  have held := (List.append_inj bytes (length_bytesAt ..)).1
  refine argument_eq ?_ hstop (by omega)
    fun hmem => h.wordLine.noNul (List.mem_append_left _ hmem)
  rw [bytesAt_congr fun i hi => hsame _ (by omega)]
  exact held

end WordAt

/-- A line is blank or begins with a word. -/
theorem LineAt.cases {size p : Nat} {buf : Buffer} {rest : List UInt8}
    (h : LineAt size buf p rest) :
    ((∀ c ∈ rest, isBlank c = true) ∧ fields isBlank rest = []) ∨
      ∃ front word tail, WordAt size buf p front word tail ∧ rest = front ++ (word ++ tail) ∧
        fields isBlank rest = word :: fields isBlank tail.tail := by
  rcases fields_cases isBlank rest with hblank | ⟨front, word, tail, rfl, hfront, hne, hw, ht, hf⟩
  · exact .inl hblank
  · exact .inr ⟨front, word, tail, ⟨h, hfront, hne, hw, ht⟩, rfl, hf⟩

/-! ## `shell_run` -/

/-- What comes of a line from `p` on: the array before `p` is left alone, and the arguments are the
fields. -/
structure Tokenized (size p room : Nat) (buf : Buffer) (rest : List UInt8) (buf' : Buffer)
    (argv : List Nat) : Prop where
  before : ∀ i < p, buf' i = buf i
  args : argv.map (argument size buf') = (fields isBlank rest).take room

section Turns

variable {size p room : Nat} {buf buf' : Buffer} {rest : List UInt8} {argv : List Nat}

theorem Tokenized.nothing (hfields : (fields isBlank rest).take room = []) :
    Tokenized size p room buf rest buf [] :=
  ⟨fun _ _ => rfl, hfields.symm⟩

theorem shellTokenize_nil (h : LineAt size buf p []) (room : Nat) :
    shellTokenize size room buf p = some (buf, []) := by
  have load : loadChar size buf p = some 0 := h.load
  cases room with
  | zero =>
    rw [shellTokenize, load]
    rfl
  | succ room =>
    rw [shellTokenize, load]
    rfl

/-- A turn takes a word. -/
theorem shellTokenize_word {front word tail : List UInt8} (h : WordAt size buf p front word tail)
    (room : Nat) :
    shellTokenize size (room + 1) buf p =
      (match tail with
      | [] => shellTokenize size room buf (p + front.length + word.length)
      | _ :: _ =>
        shellTokenize size room (Function.update buf (p + front.length + word.length) 0)
          (p + front.length + word.length + 1)).map
        fun (buf, argv) => (buf, (p + front.length) :: argv) := by
  have first : skipWhile size buf isBlank p = some (p + front.length) :=
    h.skip_front fun _ _ => rfl
  have second : skipWhile size buf (fun c => c ≠ 0 && !isBlank c) (p + front.length) =
      some (p + front.length + word.length) :=
    h.skip_word (fun c hc => by rw [decide_eq_true hc, Bool.true_and]) rfl
  rw [shellTokenize, h.line.load]
  simp only [Option.bind_eq_bind, Option.bind_some, if_neg h.start_ne, first, h.wordLine.load,
    if_neg h.word_ne, second, h.tailLine.load]
  cases tail with
  | nil =>
    simp only [List.head?_nil, Option.getD_none, if_true]
    cases shellTokenize size room buf (p + front.length + word.length) with
    | _ => rfl
  | cons c more =>
    have ne := h.tailLine.head_ne (List.cons_ne_nil c more)
    have inside := h.tailLine.inside
    rw [List.length_cons] at inside
    simp only [if_neg ne, storeChar_of_lt buf 0 (by omega : p + front.length + word.length < size),
      Option.bind_some]
    cases shellTokenize size room _ (p + front.length + word.length + 1) with
    | _ => rfl

theorem shellTokenize_spec (h : LineAt size buf p rest) (room : Nat) :
    ∃ buf' argv, shellTokenize size room buf p = some (buf', argv) ∧
      Tokenized size p room buf rest buf' argv := by
  induction room generalizing p buf rest with
  | zero =>
    refine ⟨buf, [], ?_, .nothing List.take_zero⟩
    rw [shellTokenize, h.load]
    rfl
  | succ room ih =>
    rcases h.cases with ⟨hblank, hfields⟩ | ⟨front, word, tail, hword, rfl, hfields⟩
    · refine ⟨buf, [], ?_, .nothing (by rw [hfields, List.take_nil])⟩
      cases rest with
      | nil => exact shellTokenize_nil h (room + 1)
      | cons c rest =>
        have ne := h.head_ne (List.cons_ne_nil c rest)
        rw [shellTokenize, h.load]
        simp only [Option.bind_eq_bind, Option.bind_some, if_neg ne, h.skip_all hblank rfl,
          h.load_end, if_true]
    · rw [shellTokenize_word hword]
      cases tail with
      | nil =>
        have last := hword.tailLine
        refine ⟨buf, [p + front.length], ?_, fun _ _ => rfl, ?_⟩
        · rw [shellTokenize_nil last]
          rfl
        · rw [List.map_singleton, hword.argument (fun _ _ => rfl) last.stop, hfields,
            List.take_succ_cons, List.tail_nil, fields_nil, List.take_nil]
      | cons c more =>
        obtain ⟨buf', argv, hrun, hbefore, hargs⟩ := ih hword.rest
        refine ⟨buf', (p + front.length) :: argv, ?_, fun i hi => ?_, ?_⟩
        · dsimp only
          rw [hrun]
          rfl
        · rw [hbefore i (by omega), Function.update_of_ne (by omega)]
        · have same : ∀ i < p + front.length + word.length, buf' i = buf i := fun i hi => by
            rw [hbefore i (by omega), Function.update_of_ne (by omega)]
          have stop : buf' (p + front.length + word.length) = 0 := by
            rw [hbefore _ (Nat.lt_succ_self _), Function.update_self]
          rw [List.map_cons, hword.argument same stop, hargs, hfields, List.take_succ_cons,
            List.tail_cons]

/-! ## `shell_process_input` -/

theorem strchr_blanks {c : UInt8} (hc : c ≠ 0) : (strchr blanks c).isSome = isBlank c := by
  unfold strchr blanks isBlank strchrLoop
  by_cases hspace : (32 : UInt8) = c
  · rw [if_pos hspace, ← hspace]
    rfl
  · rw [if_neg hspace, decide_eq_false fun h => hspace h.symm, Bool.false_or, strchrLoop]
    by_cases htab : (9 : UInt8) = c
    · rw [if_pos htab, ← htab]
      rfl
    · rw [if_neg htab, decide_eq_false fun h => htab h.symm, strchrLoop, if_neg hc]
      rfl

/-- The tests of `strtok` in front of a word and in it. -/
theorem strchr_front {c : UInt8} (hc : c ≠ 0) :
    (decide (c ≠ 0) && (strchr blanks c).isSome) = isBlank c := by
  rw [decide_eq_true hc, Bool.true_and, strchr_blanks hc]

theorem strchr_word {c : UInt8} (hc : c ≠ 0) :
    (decide (c ≠ 0) && (strchr blanks c).isNone) = !isBlank c := by
  rw [decide_eq_true hc, Bool.true_and, ← strchr_blanks hc, Option.not_isSome]

/-- Where `strtok` goes on: at what is left of the line, or nowhere. -/
def CursorAt (size : Nat) (buf : Buffer) (last : Option Nat) (rest : List UInt8) : Prop :=
  match last with
  | none => rest = []
  | some p => LineAt size buf p rest

/-- A call of `strtok` has found no field, or the first one, which stays an argument as long as it
and its terminator are left alone. -/
inductive Fetched (size : Nat) (rest : List UInt8) (call : Strtok) : Prop
  | nothing (hfields : fields isBlank rest = []) (htoken : call.token = none)
  | word {word more : List UInt8} {token : Nat}
      (hfields : fields isBlank rest = word :: fields isBlank more)
      (htoken : call.token = some token) (hinside : token + word.length < call.last.getD size)
      (hargument : ∀ buf' : Buffer, (∀ i ≤ token + word.length, buf' i = call.buf i) →
        argument size buf' token = word)
      (hcursor : CursorAt size call.buf call.last more)

theorem strtokFrom_spec (h : LineAt size buf p rest) :
    ∃ call, strtokFrom size buf p blanks = some call ∧ Fetched size rest call ∧
      (∀ i < p, call.buf i = buf i) ∧ p ≤ call.last.getD size := by
  have bound := h.inside
  unfold strtokFrom
  rw [h.load]
  simp only [Option.bind_eq_bind, Option.bind_some]
  rcases h.cases with ⟨hblank, hfields⟩ | ⟨front, word, tail, hword, rfl, hfields⟩
  · cases rest with
    | nil =>
      simp only [List.head?_nil, Option.getD_none, if_true]
      exact ⟨_, rfl, .nothing hfields rfl, fun _ _ => rfl, Nat.le_refl p⟩
    | cons c rest =>
      have skipped : skipWhile size buf (fun c => c ≠ 0 && (strchr blanks c).isSome) p =
          some (p + (c :: rest).length) := by
        refine h.skip_all (fun d hd => ?_) rfl
        rw [strchr_front fun hzero => h.noNul (hzero ▸ hd)]
        exact hblank d hd
      have ne := h.head_ne (List.cons_ne_nil c rest)
      simp only [if_neg ne, skipped, h.load_end, Option.bind_some, if_true]
      exact ⟨_, rfl, .nothing hfields rfl, fun _ _ => rfl, by
        rw [Option.getD_none]
        omega⟩
  · have first := hword.skip_front fun _ => strchr_front
    have second := hword.skip_word (fun _ => strchr_word) rfl
    have inside := hword.tailLine.inside
    simp only [if_neg hword.start_ne, first, hword.wordLine.load, Option.bind_some,
      if_neg hword.word_ne, second, hword.tailLine.load]
    cases tail with
    | nil =>
      simp only [List.head?_nil, Option.getD_none, if_true]
      refine ⟨_, rfl, .word hfields rfl ?_ (fun buf' hsame => ?_) rfl, fun _ _ => rfl,
        ?_⟩
      · rw [Option.getD_none]
        exact inside
      · refine hword.argument (fun i hi => hsame i (Nat.le_of_lt hi)) ?_
        rw [hsame _ (Nat.le_refl _)]
        exact hword.tailLine.stop
      · rw [Option.getD_none]
        omega
    | cons c more =>
      have ne := hword.tailLine.head_ne (List.cons_ne_nil c more)
      rw [List.length_cons] at inside
      simp only [if_neg ne,
        storeChar_of_lt buf 0 (by omega : p + front.length + word.length < size), Option.bind_some]
      refine ⟨_, rfl, .word hfields rfl (Nat.lt_succ_self _) (fun buf' hsame => ?_) hword.rest,
        fun i hi => Function.update_of_ne (by omega) .., ?_⟩
      · refine hword.argument (fun i hi => ?_) ?_
        · rw [hsame i (Nat.le_of_lt hi)]
          exact Function.update_of_ne (Nat.ne_of_lt hi) ..
        · rw [hsame _ (Nat.le_refl _)]
          exact Function.update_self ..
      · rw [Option.getD_some]
        omega

theorem strtok_spec {last : Option Nat} (h : CursorAt size buf last rest) :
    ∃ call, strtok size buf last none blanks = some call ∧ Fetched size rest call ∧
      (∀ i < last.getD size, call.buf i = buf i) ∧ last.getD size ≤ call.last.getD size := by
  cases last with
  | none =>
    obtain rfl : rest = [] := h
    exact ⟨_, rfl, .nothing rfl rfl, fun _ _ => rfl, Nat.le_refl size⟩
  | some p => exact strtokFrom_spec h

theorem shellTokens_spec {call : Strtok} (h : Fetched size rest call) (room : Nat) :
    ∃ call' argv, shellTokens size room call = some (call', argv) ∧
      Tokenized size (call.last.getD size) room call.buf rest call'.buf argv := by
  induction room generalizing call rest with
  | zero => exact ⟨call, [], rfl, .nothing List.take_zero⟩
  | succ room ih =>
    cases h with
    | nothing hfields htoken =>
      refine ⟨call, [], ?_, .nothing (by rw [hfields, List.take_nil])⟩
      rw [shellTokens, htoken]
    | @word word more token hfields htoken hinside hargument hcursor =>
      obtain ⟨next, hnext, hfetched, hbuf, hlast⟩ := strtok_spec hcursor
      obtain ⟨call', argv, hrun, hbefore, hargs⟩ := ih hfetched
      have same : ∀ i < call.last.getD size, call'.buf i = call.buf i := fun i hi =>
        (hbefore i (Nat.lt_of_lt_of_le hi hlast)).trans (hbuf i hi)
      refine ⟨call', token :: argv, ?_, same, ?_⟩
      · rw [shellTokens, htoken]
        simp only [hnext, Option.bind_eq_bind, Option.bind_some, hrun]
      · rw [List.map_cons, hargument call'.buf fun i hi => same i (by omega), hargs, hfields,
          List.take_succ_cons]

end Turns

/-- The two argument vectors of a line are its fields, truncated to the first 31. -/
theorem tokenizers_agree {size : Nat} {buf : Buffer} {line : CString}
    (h : CString.ofBuffer size buf = some line) (last : Option Nat) :
    ∃ bufRun argvRun bufProcess argvProcess,
      shellRunArgv size buf = some (bufRun, argvRun) ∧
      shellProcessArgv size buf last = some (bufProcess, argvProcess) ∧
      argvRun.map (argument size bufRun) = (fields isBlank line.bytes).take (shellMaxArgs - 1) ∧
      argvProcess.map (argument size bufProcess) =
        (fields isBlank line.bytes).take (shellMaxArgs - 1) := by
  have start := lineAt_start h
  obtain ⟨bufRun, argvRun, hrun, -, hargsRun⟩ := shellTokenize_spec start (shellMaxArgs - 1)
  obtain ⟨call, hcall, hfetched, -, -⟩ := strtokFrom_spec start
  obtain ⟨call', argvProcess, htokens, -, hargs⟩ := shellTokens_spec hfetched (shellMaxArgs - 1)
  refine ⟨bufRun, argvRun, call'.buf, argvProcess, hrun, ?_, hargsRun, hargs⟩
  have first : strtok size buf last (some 0) blanks = some call := hcall
  unfold shellProcessArgv
  simp only [first, Option.bind_eq_bind, Option.bind_some, htokens]

/-- The line "\ta  b ". -/
def spacedLine : CString := ⟨[9, 97, 32, 32, 98, 32], by decide⟩

/-- In an array that it fills. -/
theorem tokenizers_agree_spaced :
    ∃ bufRun argvRun bufProcess argvProcess,
      shellRunArgv 7 spacedLine.buffer = some (bufRun, argvRun) ∧
      shellProcessArgv 7 spacedLine.buffer none = some (bufProcess, argvProcess) ∧
      argvRun.map (argument 7 bufRun) = [[97], [98]] ∧
      argvProcess.map (argument 7 bufProcess) = [[97], [98]] := by
  have held : CString.ofBuffer 7 spacedLine.buffer = some spacedLine := by decide
  have words : (fields isBlank spacedLine.bytes).take (shellMaxArgs - 1) = [[97], [98]] := by
    decide
  rw [← words]
  exact tokenizers_agree held none

end Unics
