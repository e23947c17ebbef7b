import Unics.Dev.ShellRun
import Unics.Laws.Libc.Numbers
import Unics.Laws.Shell.History
import Unics.Laws.Shell.Tokens
import Unics.Laws.Vga.Invariant

/-!
# From a line to a command

What the parts of the shell's loop come to: the number of the prompt is the decimal text of the
status (`intToStr_eq`), the commands see the history in order (`HistoryIs.texts`), the arguments of
a line end inside its array (`shellRunArgv_strings`), and no key but the one that ends the session
touches `running` (`shellTurn_running`).
-/

namespace Unics

open Unics.Lib

/-! ## Numbers -/

/-- One digit more. -/
theorem numeral_step {n : ℕ} (h : 0 < n / 10) :
    numeral 10 n = numeral 10 (n / 10) ++ [digitByte (n % 10)] := by
  have ne : n ≠ 0 := by
    rintro rfl
    exact absurd h (by decide)
  rw [numeral, if_neg ne, numeral, if_neg (Nat.ne_of_gt h),
    Nat.digits_eq_cons_digits_div (by decide) ne, List.map_cons, List.reverse_cons]

theorem numeral_digit {n : ℕ} (h : n < 10) : numeral 10 n = [digitByte n] := by
  rcases Nat.eq_zero_or_pos n with rfl | hpos
  · rfl
  · rw [numeral, if_neg (Nat.ne_of_gt hpos), Nat.digits_of_lt 10 n (Nat.ne_of_gt hpos) h]
    rfl

theorem intToStrDigits_eq {room n : ℕ} (h : n < 10 ^ room) (hroom : 0 < room) :
    (intToStrDigits room n).reverse = numeral 10 n := by
  induction room generalizing n with
  | zero => exact absurd hroom (by decide)
  | succ room ih =>
    have small : n % 10 < 10 := Nat.mod_lt n (by decide)
    have digit : UInt8.ofNat (48 + (n : Int).tmod 10).toNat = digitByte (n % 10) := by
      have value : (48 + (n : Int).tmod 10).toNat = n % 10 + 48 := by
        have remainder : (n : Int).tmod 10 = ((n % 10 : ℕ) : Int) := (Int.ofNat_tmod n 10).symm
        rw [remainder]
        omega
      rw [value, digitByte, if_pos small]
    have quotient : (n : Int).tdiv 10 = ((n / 10 : ℕ) : Int) := (Int.ofNat_tdiv n 10).symm
    rw [intToStrDigits, digit, quotient, List.reverse_cons]
    by_cases hmore : 0 < n / 10
    · have fits : n / 10 < 10 ^ room := by
        rw [Nat.div_lt_iff_lt_mul (by decide), ← Nat.pow_succ]
        exact h
      have room_pos : 0 < room := by
        rcases Nat.eq_zero_or_pos room with rfl | hpos
        · rw [Nat.pow_zero] at fits
          omega
        · exact hpos
      have more : (0 : Int) < ((n / 10 : ℕ) : Int) := by omega
      rw [if_pos more, ih fits room_pos, numeral_step hmore]
    · have one : n < 10 := by omega
      have last : ¬ (0 : Int) < ((n / 10 : ℕ) : Int) := by omega
      rw [if_neg last, Nat.mod_eq_of_lt one, numeral_digit one]
      rfl

theorem length_intToStrDigits {room n : ℕ} (h : n < 10 ^ room) (hroom : 0 < room) :
    (intToStrDigits (room + 1) n).length ≤ room := by
  have same : (intToStrDigits (room + 1) n).length = (intToStrDigits room n).length := by
    have wide : n < 10 ^ (room + 1) := Nat.lt_trans h (Nat.pow_lt_pow_right (by decide) (by omega))
    rw [← List.length_reverse, intToStrDigits_eq wide (Nat.succ_pos room),
      ← intToStrDigits_eq h hroom, List.length_reverse]
  have bound : ∀ room value, (intToStrDigits room value).length ≤ room := by
    intro room
    induction room with
    | zero => exact fun _ => Nat.le_refl 0
    | succ room ih =>
      intro value
      rw [intToStrDigits, List.length_cons]
      split
      · exact Nat.succ_le_succ (ih _)
      · exact Nat.succ_le_succ (Nat.zero_le _)
  rw [same]
  exact bound room n

/-- The array of the prompt has room for the decimal text of every value but the least, which has no
opposite. -/
theorem intToStr_eq {value : BitVec 32} (hmin : value ≠ BitVec.intMin 32) :
    intToStr value 12 = signed (decide (value.toInt < 0)) (numeral 10 value.toInt.natAbs) := by
  have range : value.toInt.natAbs < 10 ^ 10 := by
    have := BitVec.toInt_lt (x := value)
    have := BitVec.le_toInt value
    omega
  have wide : value.toInt.natAbs < 10 ^ 11 := Nat.lt_trans range (by decide)
  unfold intToStr
  by_cases hneg : value.toInt < 0
  · have opposite : (-value).toInt = (value.toInt.natAbs : ℕ) := toInt_neg_eq_natAbs hneg hmin
    have short := length_intToStrDigits range (by decide)
    simp only [if_pos hneg, opposite]
    rw [if_pos ⟨hneg, Nat.lt_succ_of_le short⟩, List.reverse_append,
      intToStrDigits_eq wide (by decide), decide_eq_true hneg]
    rfl
  · have same : value.toInt = (value.toInt.natAbs : ℕ) := by omega
    simp only [hneg, false_and, if_false, decide_false]
    rw [same, intToStrDigits_eq wide (by decide), ← same]
    rfl

/-! ## The history -/

/-- A loop whose steps all answer. -/
theorem mapM_eq_some_of_map {α β : Type} {f : α → Option β} {l : List α} {m : List β}
    (h : l.map f = m.map some) : l.mapM f = some m := by
  induction l generalizing m with
  | nil =>
    obtain rfl := List.map_eq_nil_iff.mp h.symm
    rfl
  | cons a l ih =>
    cases m with
    | nil => cases h
    | cons b m =>
      obtain ⟨ha, hl⟩ := List.cons.inj h
      rw [List.mapM_cons, ha, ih hl]
      rfl

section History

variable {history : ShellHistory} {commands : List CString}

theorem HistoryIs.walk (h : HistoryIs history commands) :
    ∃ es, historyEntries history = some es ∧
      es.map (fun e => CString.ofBuffer shellMaxInputLength (history.command e)) =
        commands.map some := by
  obtain ⟨es, hes, hcommands⟩ := h.entries
  have same : es.length = commands.length := by
    have := congrArg List.length hcommands
    rwa [List.length_map, List.length_map] at this
  refine ⟨es, ?_, hcommands⟩
  rw [historyEntries, h.count, Int.toNat_natCast, ← same]
  exact hes.walk (Nat.le_refl _)

/-- The commands see the history, the oldest first. -/
theorem HistoryIs.texts (h : HistoryIs history commands) :
    historyTexts history = some commands := by
  obtain ⟨es, hwalk, hcommands⟩ := h.walk
  rw [historyTexts, hwalk]
  exact mapM_eq_some_of_map hcommands

/-- The line editor sees the same texts. -/
theorem textOf_of_ofBuffer {buf : Buffer} {str : CString}
    (h : CString.ofBuffer shellMaxInputLength buf = some str) (hshort : str.strlen ≤ 255) :
    textOf buf 255 = str.bytes := by
  obtain ⟨-, hend⟩ := CString.ofBuffer_end h
  have bytes := CString.ofBuffer_bytes h
  rw [textOf_eq hshort (fun i hi hzero => ?_) fun _ => hend, bytes]
  refine str.noNul ?_
  rw [← bytes, ← hzero]
  exact List.mem_map.mpr ⟨i, List.mem_range.mpr hi, rfl⟩

end History

/-! ## The arguments -/

/-- Behind the end of the line the array is left alone, and the arguments begin before it. -/
theorem shellTokenize_inside {size p : Nat} {buf : Buffer} {rest : List UInt8}
    (h : LineAt size buf p rest) (room : Nat) {buf' : Buffer} {argv : List Nat}
    (hrun : shellTokenize size room buf p = some (buf', argv)) :
    buf' (p + rest.length) = 0 ∧ ∀ q ∈ argv, q ≤ p + rest.length := by
  have none_left : ∀ {buf' argv}, some (buf, ([] : List Nat)) = some (buf', argv) →
      buf' (p + rest.length) = 0 ∧ ∀ q ∈ argv, q ≤ p + rest.length := by
    intro buf' argv heq
    obtain ⟨rfl, rfl⟩ := Prod.mk.inj (Option.some.inj heq)
    exact ⟨h.stop, fun q hq => absurd hq List.not_mem_nil⟩
  induction room generalizing p buf rest buf' argv with
  | zero =>
    rw [shellTokenize, h.load] at hrun
    exact none_left hrun
  | succ room ih =>
    rcases h.cases with ⟨hblank, -⟩ | ⟨front, word, tail, hword, rfl, -⟩
    · cases rest with
      | nil =>
        rw [shellTokenize_nil h] at hrun
        exact none_left hrun
      | cons c rest =>
        have ne := h.head_ne (List.cons_ne_nil c rest)
        rw [shellTokenize, h.load] at hrun
        simp only [Option.bind_eq_bind, Option.bind_some, if_neg ne, h.skip_all hblank rfl,
          h.load_end, if_true] at hrun
        exact none_left hrun
    · have whole : p + (front ++ (word ++ tail)).length =
          p + front.length + word.length + tail.length := by
        rw [List.length_append, List.length_append]
        omega
      rw [shellTokenize_word hword] at hrun
      rw [whole]
      cases tail with
      | nil =>
        have last := hword.tailLine
        dsimp only at hrun
        rw [shellTokenize_nil last] at hrun
        obtain ⟨rfl, rfl⟩ := Prod.mk.inj (Option.some.inj hrun)
        refine ⟨last.stop, fun q hq => ?_⟩
        obtain rfl := List.mem_singleton.mp hq
        omega
      | cons c more =>
        dsimp only at hrun
        obtain ⟨⟨buf'', argv'⟩, hrest, heq⟩ := Option.map_eq_some_iff.mp hrun
        obtain ⟨rfl, rfl⟩ := Prod.mk.inj heq
        have next := hword.rest
        have stop : ∀ {buf' argv}, some (Function.update buf
            (p + front.length + word.length) 0, ([] : List Nat)) = some (buf', argv) →
            buf' (p + front.length + word.length + 1 + more.length) = 0 ∧
              ∀ q ∈ argv, q ≤ p + front.length + word.length + 1 + more.length := by
          intro buf' argv heq
          obtain ⟨rfl, rfl⟩ := Prod.mk.inj (Option.some.inj heq)
          exact ⟨next.stop, fun q hq => absurd hq List.not_mem_nil⟩
        obtain ⟨hzero, hall⟩ := ih next hrest stop
        have count : p + front.length + word.length + (c :: more).length =
            p + front.length + word.length + 1 + more.length := by
          rw [List.length_cons]
          omega
        rw [count]
        refine ⟨hzero, fun q hq => ?_⟩
        rcases List.mem_cons.mp hq with rfl | hq
        · omega
        · exact hall q hq

/-- A string that begins before a terminator. -/
theorem ofBuffer_argument {size p stop : Nat} {buf : Buffer} (hp : p ≤ stop) (hstop : stop < size)
    (hzero : buf stop = 0) :
    (CString.ofBuffer (size - p) fun i => buf (p + i)) =
      some (.ofBytes (argument size buf p)) := by
  have noNul := zero_notMem_textOf (fun i => buf (p + i)) (size - p)
  have short : (textOf (fun i => buf (p + i)) (size - p)).length < size - p := by
    by_contra hlong
    -- a text that fills the array has no terminator
    have all : textOf (fun i => buf (p + i)) (size - p) =
        (List.range (size - p)).map fun i => buf (p + i) := by
      refine (List.takeWhile_prefix _).eq_of_length_le ?_
      rw [List.length_map, List.length_range]
      exact Nat.not_lt.mp hlong
    refine noNul ?_
    rw [all, ← hzero]
    refine List.mem_map.mpr ⟨stop - p, List.mem_range.mpr (by omega), ?_⟩
    rw [Nat.add_sub_cancel' hp]
  rw [CString.ofBuffer, if_pos short]
  exact congrArg some (CString.ext (bytes_ofBytes fun c hc hzero => noNul (hzero ▸ hc)).symm)

/-- The arguments that `shell_run` makes of a line are its words. -/
theorem shellRunArgv_strings {size : Nat} {buf : Buffer} {line : CString}
    (h : CString.ofBuffer size buf = some line) :
    ∃ buf' argv, shellRunArgv size buf = some (buf', argv) ∧
      (argv.mapM fun p => CString.ofBuffer (size - p) fun i => buf' (p + i)) =
        some (((fields isBlank line.bytes).take (shellMaxArgs - 1)).map .ofBytes) := by
  have start := lineAt_start h
  obtain ⟨buf', argv, hrun, -, hargs⟩ := shellTokenize_spec start (shellMaxArgs - 1)
  obtain ⟨hzero, hall⟩ := shellTokenize_inside start _ hrun
  refine ⟨buf', argv, hrun, ?_⟩
  rw [mapM_eq_map fun p hp => ofBuffer_argument (hall p hp) start.inside hzero, ← hargs,
    List.map_map]
  rfl

/-! ## The flag of the loop -/

/-- Where the code ends, `running` is as it was. -/
def Shell.Keeps (running : Bool) (x : Option Shell) : Prop :=
  ∀ shell, x = some shell → shell.running = running

section Keeps

variable {b : Bool} {shell : Shell}

theorem keeps_some (h : shell.running = b) : Shell.Keeps b (some shell) := by
  intro s hs
  obtain rfl := Option.some.inj hs
  exact h

/-- A step whose answer is no context. -/
theorem keeps_bind {α : Type} {x : Option α} {f : α → Option Shell}
    (hf : ∀ a, Shell.Keeps b (f a)) : Shell.Keeps b (x >>= f) := by
  intro s hs
  obtain ⟨a, -, ha⟩ := Option.bind_eq_some_iff.mp hs
  exact hf a s ha

theorem Shell.Keeps.bind {x : Option Shell} {f : Shell → Option Shell} (hx : Shell.Keeps b x)
    (hf : ∀ t : Shell, t.running = b → Shell.Keeps b (f t)) : Shell.Keeps b (x >>= f) := by
  intro s hs
  obtain ⟨t, ht, hft⟩ := Option.bind_eq_some_iff.mp hs
  exact hf t (hx t ht) s hft

theorem keeps_foldlM {α : Type} {f : Shell → α → Option Shell} {l : List α}
    (hf : ∀ (a : α) (t : Shell), t.running = b → Shell.Keeps b (f t a)) (h : shell.running = b) :
    Shell.Keeps b (l.foldlM f shell) := by
  induction l generalizing shell with
  | nil => exact keeps_some h
  | cons a l ih =>
    rw [List.foldlM_cons]
    exact (hf a shell h).bind fun t ht => ih ht

theorem keeps_putchar (h : shell.running = b) (c : UInt8) : Shell.Keeps b (shell.putchar c) :=
  keeps_bind fun _ => keeps_some h

theorem keeps_puts (h : shell.running = b) (str : CString) : Shell.Keeps b (shell.puts str) :=
  keeps_bind fun _ => keeps_some h

theorem keeps_write (h : shell.running = b) (i : Nat) (c : UInt8) :
    Shell.Keeps b (shell.write i c) :=
  keeps_bind fun _ => keeps_some h

theorem keeps_copyChar (h : shell.running = b) (dest src : Nat) :
    Shell.Keeps b (shell.copyChar dest src) :=
  keeps_bind fun c => keeps_write h dest c

theorem keeps_drawChar (h : shell.running = b) (i : Nat) : Shell.Keeps b (shell.drawChar i) :=
  keeps_bind fun c => keeps_putchar h c

theorem keeps_putMany (h : shell.running = b) (n : Nat) (c : UInt8) :
    Shell.Keeps b (shell.putMany n c) :=
  keeps_foldlM (fun _ _ ht => keeps_putchar ht c) h

theorem keeps_draw (h : shell.running = b) (start stop : Nat) :
    Shell.Keeps b (shell.draw start stop) :=
  keeps_foldlM (fun i _ ht => keeps_drawChar ht i) h

theorem keeps_eraseInput (h : shell.running = b) : Shell.Keeps b (shellEraseInput shell) := by
  refine (keeps_foldlM (fun _ t ht => ?_) h).bind fun t ht =>
    (keeps_putMany ht _ 32).bind fun t ht => keeps_putMany ht _ 8
  exact (keeps_putchar ht 8).bind fun t ht => keeps_bind fun _ => keeps_some ht

/-- The moves of the fields besides `running`. -/
theorem keeps_puts_cursor (h : shell.running = b) (cursorPos : Nat) (str : CString) :
    Shell.Keeps b (Shell.puts { shell with cursorPos := cursorPos } str) :=
  keeps_bind fun _ => keeps_some h

theorem keeps_navigate (h : shell.running = b) (direction : Int) :
    Shell.Keeps b (shellNavigateHistory shell direction) := by
  unfold shellNavigateHistory
  split
  · exact keeps_some h
  · dsimp only
    generalize shellSelect shell.history.length direction shell.historyCurrent = current
    have selected : Shell.running { shell with historyCurrent := current } = b := h
    refine (keeps_eraseInput selected).bind fun t ht => ?_
    refine Shell.Keeps.bind ?_ fun t ht => keeps_bind fun str => keeps_puts_cursor ht _ str
    cases current with
    | some i =>
      exact keeps_bind fun _ => keeps_bind fun _ => keeps_bind fun _ => keeps_bind fun _ =>
        keeps_some ht
    | none => exact (keeps_write ht 0 0).bind fun t ht => keeps_some ht

theorem keeps_backspace (h : shell.running = b) : Shell.Keeps b (shellBackspace shell) := by
  unfold shellBackspace
  dsimp only
  refine keeps_bind fun start => keeps_bind fun stop => ?_
  refine (keeps_foldlM (fun i t ht => keeps_copyChar ht i (i + 1)) h).bind fun t ht => ?_
  refine keeps_bind fun inputLength => keeps_bind fun cursorPos => ?_
  have shorter : Shell.running { t with inputLength := inputLength, cursorPos := cursorPos } = b :=
    ht
  refine (keeps_putchar shorter 8).bind fun t ht => ?_
  exact (keeps_draw ht _ _).bind fun t ht => (keeps_putchar ht 32).bind fun t ht =>
    keeps_putMany ht _ 8

theorem keeps_insert (h : shell.running = b) (c : UInt8) :
    Shell.Keeps b (shellInsert shell c) := by
  unfold shellInsert
  dsimp only
  refine (keeps_foldlM (fun i t ht => keeps_copyChar ht i (i - 1)) h).bind fun t ht => ?_
  refine (keeps_write ht _ c).bind fun t ht => ?_
  have longer : Shell.running
      { t with inputLength := t.inputLength + 1, cursorPos := t.cursorPos + 1 } = b := ht
  exact (keeps_draw longer _ _).bind fun t ht => keeps_putMany ht _ 8

theorem keeps_escape (h : shell.running = b) (next1 next2 : UInt8) :
    Shell.Keeps b (shellEscape shell next1 next2) := by
  unfold shellEscape
  split_ifs
  · exact keeps_navigate h 1
  · exact keeps_navigate h (-1)
  · exact (keeps_drawChar h _).bind fun t ht => keeps_some ht
  · exact keeps_some h
  · exact (keeps_putchar h 8).bind fun t ht => keeps_bind fun _ => keeps_some ht
  · exact keeps_some h
  · exact keeps_some h
  · exact keeps_some h

end Keeps

/-- Only the key that ends the session clears `running`. -/
theorem shellTurn_running {shell shell' : Shell} {key : ShellKey} {turn : ShellTurn}
    (h : shellTurn shell key = some (shell', turn)) :
    shell'.running = (shell.running && turn != .exited) := by
  have done {x : Option Shell} {t : ShellTurn} (hx : Shell.Keeps shell.running x)
      (ht : t ≠ .exited)
      (heq : (x >>= fun s => some (s, t)) = some (shell', turn)) :
      shell'.running = (shell.running && turn != .exited) := by
    obtain ⟨s, hs, hpair⟩ := Option.bind_eq_some_iff.mp heq
    obtain ⟨rfl, rfl⟩ := Prod.mk.inj (Option.some.inj hpair)
    rw [hx s hs, bne_iff_ne.mpr ht, Bool.and_true]
  have same {t : ShellTurn} (ht : t ≠ .exited) (heq : some (shell, t) = some (shell', turn)) :
      shell'.running = (shell.running && turn != .exited) :=
    done (keeps_some rfl) ht heq
  cases key with
  | escape next1 next2 => exact done (keeps_escape rfl next1 next2) (by decide) h
  | char c =>
    unfold shellTurn at h
    dsimp only at h
    split_ifs at h
    · exact done (keeps_putchar rfl 10) (by decide) h
    · obtain ⟨s, hs, hpair⟩ := Option.bind_eq_some_iff.mp h
      obtain ⟨rfl, rfl⟩ := Prod.mk.inj (Option.some.inj hpair)
      have cleared : Shell.running { shell with running := false } = false := rfl
      rw [keeps_puts cleared _ s hs]
      exact (Bool.and_false _).symm
    · exact same (by decide) h
    · obtain ⟨s, hs, hpair⟩ := Option.bind_eq_some_iff.mp h
      obtain ⟨rfl, rfl⟩ := Prod.mk.inj (Option.some.inj hpair)
      exact (keeps_puts rfl _ s hs).trans (Bool.and_true _).symm
    · exact done (keeps_backspace rfl) (by decide) h
    · exact same (by decide) h
    · exact done (keeps_insert rfl c) (by decide) h
    · exact same (by decide) h

end Unics
