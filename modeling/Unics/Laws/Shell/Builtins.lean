import Unics.Laws.Libc.Strtol
import Unics.Laws.Shell.Session

/-!
# The shell's own commands

`exit` and `history` are safe in every session (`builtins_safe`). What `history` shows is the
numbered history, with the line that called it if there was memory for that (`history_shows`), and
no key is read after a line that calls `exit` (`exit_ends`). The status that it sets is the decimal
number at the head of its argument modulo 2^32 (`exitStatus_eq`).
-/

namespace Unics

open Unics.Lib

/-! ## Numbers -/

theorem historyDigits_le {n k : ℕ} (h : n < 10 ^ k) : historyDigits n ≤ k := by
  induction k generalizing n with
  | zero =>
    rw [Nat.pow_zero] at h
    obtain rfl := Nat.lt_one_iff.mp h
    rw [historyDigits, if_neg (Nat.lt_irrefl 0)]
  | succ k ih =>
    rw [historyDigits]
    split
    · refine Nat.succ_le_succ (ih ?_)
      rw [Nat.div_lt_iff_lt_mul (by decide), ← Nat.pow_succ]
      exact h
    · exact Nat.zero_le _

theorem numeral_snoc (n : ℕ) :
    numeral 10 n = (if n / 10 = 0 then [] else numeral 10 (n / 10)) ++ [digitByte (n % 10)] := by
  by_cases hmore : n / 10 = 0
  · rw [if_pos hmore, numeral_digit (by omega), Nat.mod_eq_of_lt (by omega), List.nil_append]
  · rw [if_neg hmore, numeral_step (Nat.pos_of_ne_zero hmore)]

/-- The loop fills as many places as the number has digits, and no others. -/
theorem historyNumber_loop (temp : ℕ) (numStr : Buffer) (hroom : historyDigits temp ≤ 8) :
    ∃ buf, (List.range (historyDigits temp)).reverse.foldlM
        (fun (numStr, temp) j => do
          let numStr ← storeChar 8 numStr j (UInt8.ofNat (48 + temp % 10))
          some (numStr, temp / 10)) (numStr, temp) = some (buf, 0) ∧
      bytesAt buf 0 (historyDigits temp) = (if temp = 0 then [] else numeral 10 temp) ∧
      ∀ i, historyDigits temp ≤ i → buf i = numStr i := by
  induction temp using Nat.strong_induction_on generalizing numStr with
  | _ temp ih =>
    rcases Nat.eq_zero_or_pos temp with rfl | hpos
    · refine ⟨numStr, ?_, ?_, fun _ _ => rfl⟩
      · rw [historyDigits, if_neg (Nat.lt_irrefl 0)]
        rfl
      · rw [historyDigits, if_neg (Nat.lt_irrefl 0), if_pos rfl]
        rfl
    · have count : historyDigits temp = historyDigits (temp / 10) + 1 := by
        rw [historyDigits, if_pos hpos]
      rw [count] at hroom ⊢
      have digit : UInt8.ofNat (48 + temp % 10) = digitByte (temp % 10) := by
        rw [digitByte, if_pos (Nat.mod_lt temp (by decide)), Nat.add_comm]
      obtain ⟨buf, hloop, hbytes, hframe⟩ := ih (temp / 10) (Nat.div_lt_self hpos (by decide))
        (Function.update numStr (historyDigits (temp / 10)) (digitByte (temp % 10)))
        (Nat.le_of_succ_le hroom)
      refine ⟨buf, ?_, ?_, fun i hi => ?_⟩
      · rw [List.range_succ, List.reverse_append, List.reverse_singleton, List.singleton_append,
          List.foldlM_cons]
        dsimp only
        rw [storeChar_of_lt _ _ (by omega), digit]
        exact hloop
      · rw [bytesAt_add, hbytes, if_neg (Nat.ne_of_gt hpos), numeral_snoc temp, Nat.zero_add,
          bytesAt_succ, hframe _ (Nat.le_refl _), Function.update_self]
        rfl
      · rw [hframe i (by omega), Function.update_of_ne (by omega)]

/-- The array holds the number's decimal text. -/
theorem historyNumber_eq (numStr : Buffer) {num : ℕ} (hpos : 0 < num) (hsmall : num < 10 ^ 7) :
    historyNumber numStr num = some (.ofBytes (numeral 10 num)) := by
  have room := historyDigits_le hsmall
  have ne : num ≠ 0 := Nat.ne_of_gt hpos
  obtain ⟨buf, hloop, hbytes, -⟩ := historyNumber_loop num numStr (Nat.le_succ_of_le room)
  rw [if_neg ne] at hbytes
  have bytes : (CString.ofBytes (numeral 10 num)).bytes = numeral 10 num :=
    bytes_ofBytes (numeral_noNul (by decide) (by decide))
  have length : (CString.ofBytes (numeral 10 num)).strlen = historyDigits num := by
    rw [CString.strlen, bytes, ← hbytes, length_bytesAt]
  unfold historyNumber
  dsimp only
  rw [if_neg ne, hloop]
  simp only [Option.bind_eq_bind, Option.bind_some]
  rw [storeChar_of_lt _ _ (Nat.lt_succ_of_le room)]
  refine CString.ofBuffer_eq ?_ ?_ ?_
  · rw [length]
    exact Nat.lt_succ_of_le room
  · rw [length, bytes, ← hbytes]
    exact bytesAt_congr fun i hi => Function.update_of_ne (by omega) ..
  · rw [length, Function.update_self]

/-- The loop is that of `atoi`. -/
theorem exitDigits_eq_atoiLoop (exitCode : BitVec 32) (str : List UInt8) :
    exitDigits exitCode str = atoiLoop exitCode str := by
  induction str generalizing exitCode with
  | nil => rfl
  | cons c str ih =>
    rw [exitDigits, atoiLoop]
    by_cases hdigit : 48 ≤ c ∧ c ≤ 57
    · have low : 48 ≤ c.toNat := UInt8.le_iff_toNat_le.mp hdigit.1
      have value : ((c.toNat - 48 : ℕ) : Int) = c.toNat - 48 := by omega
      rw [if_pos hdigit, if_pos hdigit, ih, ← value, BitVec.ofInt_natCast]
    · rw [if_neg hdigit, if_neg hdigit]

/-- The digits behind a minus sign make a status below zero, those without one another; what follows
the digits is not read. -/
theorem exitStatus_eq (name str : CString) (args : List CString) :
    exitStatus (name :: str :: args) =
      if str.bytes.head? = some 45 then
        -BitVec.ofNat 32 (digitsValue 10 0 (str.bytes.tail.takeWhile (isDigitOf 10)))
      else BitVec.ofNat 32 (digitsValue 10 0 (str.bytes.takeWhile (isDigitOf 10))) := by
  rw [exitStatus]
  cases str.bytes with
  | nil => rfl
  | cons c rest =>
    dsimp only [List.head?_cons, List.tail_cons]
    simp only [exitDigits_eq_atoiLoop, Option.some_inj]
    split
    · exact congrArg Neg.neg (atoiLoop_eq 0 rest)
    · exact atoiLoop_eq 0 (c :: rest)

/-! ## What `history` shows -/

/-- A line for each command, with its number. -/
def numbered : ℕ → List CString → List UInt8
  | _, [] => []
  | index, command :: history =>
    historyGap.bytes ++ (numeral 10 index ++ (historyGap.bytes ++ (command.bytes ++
      10 :: numbered (index + 1) history)))

theorem historyLines_eq (vga : Vga) {index : ℕ} (hpos : 0 < index) {history : List CString}
    (hsmall : index + history.length ≤ 10 ^ 7) :
    historyLines vga index history = vga.prints (numbered index history) := by
  induction history generalizing vga index with
  | nil => rfl
  | cons command history ih =>
    rw [List.length_cons] at hsmall
    have bytes : (CString.ofBytes (numeral 10 index)).bytes = numeral 10 index :=
      bytes_ofBytes (numeral_noNul (by decide) (by decide))
    rw [historyLines, numbered, historyNumber_eq _ hpos (by omega)]
    simp only [Option.bind_eq_bind, Option.bind_some, Vga.prints_append]
    refine congrArg (Option.bind _) (funext fun vga => ?_)
    have text : vgaPuts vga (some (.ofBytes (numeral 10 index))) =
        vga.prints (numeral 10 index) := congrArg vga.prints bytes
    rw [text]
    refine congrArg (Option.bind _) (funext fun vga => ?_)
    refine congrArg (Option.bind _) (funext fun vga => ?_)
    refine congrArg (Option.bind _) (funext fun vga => ?_)
    show Option.bind _ _ = List.foldlM vgaPutchar vga (10 :: _)
    rw [List.foldlM_cons]
    exact congrArg (Option.bind _) (funext fun vga => ih vga (Nat.succ_pos index) (by omega))

section Safe

variable {W : Type}

theorem historyMain_eq {history : List CString} (hsmall : history.length ≤ shellHistorySize)
    (state : CommandState W) :
    historyMain history state =
      (state.prints (historyText.bytes ++ numbered 1 history)).map fun state => (state, 0) := by
  have size : shellHistorySize = 16 := rfl
  have room : 1 + history.length ≤ 10 ^ 7 := by omega
  unfold historyMain CommandState.prints
  rw [Vga.prints_append]
  show (state.vga.prints historyText.bytes).bind _ = _
  cases state.vga.prints historyText.bytes with
  | none => rfl
  | some vga =>
    simp only [Option.bind_eq_bind, Option.bind_some]
    rw [historyLines_eq vga Nat.one_pos room]
    cases vga.prints (numbered 1 history) with
    | none => rfl
    | some vga => rfl

/-- A table with these two is safe as far as they go. -/
theorem builtins_safe {commands : List (ShellCommand W)} (h : SafeCommands commands) :
    SafeCommands (exitCommand :: historyCommand :: commands) := by
  intro command hcommand history state args hsmall hvga
  rcases List.mem_cons.mp hcommand with rfl | hcommand
  · have printed : Ends (vgaPuts state.vga exitText) Vga.Within := Vga.prints_ends hvga _
    exact printed.bind fun _ hnext => ends_some.mpr hnext
  · rcases List.mem_cons.mp hcommand with rfl | hcommand
    · show Ends (historyMain history state) _
      rw [historyMain_eq hsmall]
      exact (CommandState.prints_ends hvga _).map fun _ hnext => hnext
    · exact h command hcommand history state args hsmall hvga

end Safe

/-! ## Their lines -/

/-- A line has been typed, and the history holds these commands. -/
def typedSession (history : ShellHistory) (commands : List CString) (line : CString) :
    ShellSession Unit where
  shell := ⟨line.buffer, line.strlen, line.strlen, commands.map CString.buffer, none, true,
    blankScreen⟩
  history := history
  lastExitStatus := 0
  world := ()
  reading := true

def typedUser (commands : List CString) (line : CString) : UserSession Unit where
  editor := ⟨EditLine.ofText line.bytes, none⟩
  history := commands
  status := 0
  machine := ⟨blankScreen, true, ()⟩
  reading := true

theorem bytesAt_buffer (str : CString) : bytesAt str.buffer 0 str.strlen = str.bytes := by
  rw [bytesAt, ← List.range_eq_range']
  refine List.ext_getElem (by rw [List.length_map, List.length_range]; rfl) fun i hi hbytes => ?_
  rw [List.getElem_map, List.getElem_range, CString.buffer, List.getElem?_eq_getElem hbytes,
    Option.getD_some]

/-- A line that the editor may hold. -/
def Typable (line : CString) : Prop :=
  Recordable line ∧ ∀ c ∈ line.bytes, 32 ≤ c ∧ c ≤ 126

instance : DecidablePred Typable := fun _ =>
  inferInstanceAs (Decidable ((_ ∧ _) ∧ _))

theorem typed_is {history : ShellHistory} {commands : List CString} {line : CString}
    (hhistory : HistoryIs history commands) (hbound : commands.length ≤ shellHistorySize)
    (hcommands : ∀ command ∈ commands, Typable command) (hline : Typable line) :
    SessionIs (typedSession history commands line) (typedUser commands line) where
  machine := rfl
  within := blankScreen_within
  status := rfl
  history := hhistory
  bound := hbound
  printable := fun command hcommand => (hcommands command hcommand).2
  reading := rfl
  running := fun _ => rfl
  line := fun _ =>
    { edits :=
        { bytes := bytesAt_buffer line
          cursor := rfl
          short := hline.1.2
          recalled := rfl
          entry := fun _ hi => nomatch hi }
      texts := by
        show (commands.map CString.buffer).map _ = commands.map CString.bytes
        rw [List.map_map]
        exact List.map_congr_left fun command hcommand =>
          textOf_buffer (hcommands command hcommand).1.2
      printable := hline.2 }

section Lines

variable {W : Type} {commands : List (ShellCommand W)} {cwd : W → CString} {s : ShellSession W}
  {u : UserSession W}

theorem UserSession.step_entered (hreading : u.reading = true) (allocated : Bool) :
    UserSession.step commands cwd (some u) (.char 10, allocated) =
      (u.machine.prints [10]).bind fun machine =>
        (UserSession.enter commands { u with machine := machine } allocated).bind
          (UserSession.prompt cwd) :=
  if_pos hreading

theorem UserSession.enter_words {name : CString} {args : List CString}
    (hwords : u.words = name :: args) (allocated : Bool) :
    u.enter commands allocated =
      (dispatch commands (record u.history (.ofBytes u.editor.line.text) allocated) u.machine name
        args).map fun result =>
          { u with
            history := record u.history (.ofBytes u.editor.line.text) allocated
            machine := result.1
            status := result.2 } := by
  have busy : ¬ u.editor.line.text = [] := by
    intro hempty
    unfold UserSession.words at hwords
    rw [hempty] at hwords
    cases hwords
  unfold UserSession.enter
  rw [if_neg busy, hwords]
  exact Option.map_eq_bind.symm

variable (cwd) in
/-- Return runs the command, on a new line of the screen. -/
theorem SessionIs.entered (h : SessionIs s u) (hreading : u.reading = true)
    (hsafe : SafeCommands commands) {name : CString} {args : List CString}
    (hwords : u.words = name :: args) {block : Option HistoryEntry}
    (hfresh : FreshBlock s.history block) :
    ∃ s' vga machine, shellRunStep commands cwd (some s) (.char 10, block) = some s' ∧
      s.shell.vga.prints [10] = some vga ∧
      dispatch commands (record u.history (.ofBytes u.editor.line.text) block.isSome)
        ⟨vga, true, s.world⟩ name args = some (machine, s'.lastExitStatus) ∧
      HistoryIs s'.history (record u.history (.ofBytes u.editor.line.text) block.isSome) ∧
      s'.reading = machine.running ∧
      if machine.running then
        machine.vga.prompt s'.lastExitStatus (cwd machine.world) = some s'.shell.vga
      else machine.vga = s'.shell.vga := by
  obtain ⟨s', u', hs', hu', h'⟩ :
      BothEnd (shellRunStep commands cwd (some s) (.char 10, block))
        (UserSession.step commands cwd (some u) (.char 10, block.isSome)) SessionIs :=
    h.step hsafe hfresh
  rw [UserSession.step_entered hreading] at hu'
  obtain ⟨machine, hprint, hrest⟩ := Option.bind_eq_some_iff.mp hu'
  obtain ⟨vga, hvga, rfl⟩ := Option.map_eq_some_iff.mp hprint
  obtain ⟨v, henter, hprompt⟩ := Option.bind_eq_some_iff.mp hrest
  have same : UserSession.words { u with machine := { u.machine with vga := vga } } =
      name :: args := hwords
  rw [UserSession.enter_words same] at henter
  obtain ⟨⟨machine, status⟩, hrun, rfl⟩ := Option.map_eq_some_iff.mp henter
  rw [h.machine, h.running hreading] at hrun
  rw [h.machine] at hvga
  unfold UserSession.prompt at hprompt
  dsimp only at hprompt
  refine ⟨s', vga, machine, hs', hvga, ?_⟩
  by_cases hrunning : machine.running = true
  · rw [if_pos hrunning] at hprompt
    obtain ⟨next, hnext, heq⟩ := Option.bind_eq_some_iff.mp hprompt
    obtain rfl := Option.some.inj heq
    have shown : s'.shell.vga = next := by
      have same := h'.machine
      exact (congrArg CommandState.vga same).symm
    rw [h'.status, h'.reading, shown, if_pos hrunning]
    exact ⟨hrun, h'.history, hrunning.symm, hnext⟩
  · rw [if_neg hrunning] at hprompt
    obtain rfl := Option.some.inj hprompt
    rw [h'.status, h'.reading, if_neg hrunning]
    exact ⟨hrun, h'.history, (Bool.eq_false_iff.mpr hrunning).symm,
      congrArg CommandState.vga h'.machine⟩

/-- The line is the last one if there was memory for it, or if it has been that before. -/
theorem getLast?_record_iff (history : List CString) (line : CString) (allocated : Bool) :
    (record history line allocated).getLast? = some line ↔
      allocated = true ∨ history.getLast? = some line := by
  unfold record
  cases allocated with
  | true =>
    refine iff_of_true ?_ (.inl rfl)
    show (remember shellHistorySize history line).getLast? = some line
    unfold remember
    split
    · next hlast => exact hlast
    · exact List.getLast?_concat ..
  | false =>
    rw [if_neg Bool.false_ne_true, or_iff_right Bool.false_ne_true]
    split
    · exact Iff.rfl
    · split
      · next hfull =>
        have more : ¬ history.length = 1 := fun hone => absurd (hone ▸ hfull) (by decide)
        rw [List.getLast?_tail, if_neg more]
      · exact Iff.rfl

/-- After a line that calls `history` the screen has shown the lines that the history holds then,
the oldest first and numbered from one. That line itself is the last exactly if `malloc` has given a
block for it, or if it repeats the last. -/
theorem history_shows (h : SessionIs s u) (hreading : u.reading = true)
    (hsafe : SafeCommands commands)
    (hfind : (commands.find? fun c => c.name = historyName) = some historyCommand)
    {args : List CString} (hwords : u.words = historyName :: args)
    {block : Option HistoryEntry} (hfresh : FreshBlock s.history block) :
    Ends (shellRunStep commands cwd (some s) (.char 10, block)) fun s' =>
      ∃ lines shown, HistoryIs s'.history lines ∧
        lines = record u.history (.ofBytes u.editor.line.text) block.isSome ∧
        (lines.getLast? = some (.ofBytes u.editor.line.text) ↔
          block.isSome = true ∨ u.history.getLast? = some (.ofBytes u.editor.line.text)) ∧
        s.shell.vga.prints (10 :: (historyText.bytes ++ numbered 1 lines)) = some shown ∧
        shown.prompt 0 (cwd s.world) = some s'.shell.vga ∧ s'.lastExitStatus = 0 ∧
        s'.reading = true := by
  obtain ⟨s', vga, machine, hs', hvga, hrun, hhistory, hends, hprompt⟩ :=
    h.entered cwd hreading hsafe hwords hfresh
  unfold dispatch at hrun
  rw [hfind] at hrun
  have hrun : historyMain _ _ = _ := hrun
  rw [historyMain_eq (length_record h.bound _ _)] at hrun
  obtain ⟨next, hnext, heq⟩ := Option.map_eq_some_iff.mp hrun
  obtain ⟨shown, hshown, rfl⟩ := Option.map_eq_some_iff.mp hnext
  obtain ⟨rfl, hstatus⟩ := Prod.mk.inj heq
  rw [if_pos rfl, ← hstatus] at hprompt
  refine ⟨s', hs', _, shown, hhistory, rfl, getLast?_record_iff _ _ _, ?_, hprompt, hstatus.symm,
    hends⟩
  show s.shell.vga.prints ([10] ++ _) = _
  rw [Vga.prints_append, hvga]
  exact hshown

/-- `history` behind two other lines, with a block for it. -/
theorem history_shows_third :
    ∃ history, HistoryIs history [.char 97 CString.a_ne_zero, .slash] ∧
      Ends (shellRunStep [historyCommand] rootCwd
          (some (typedSession history [.char 97 CString.a_ne_zero, .slash] historyName))
          (.char 10, some 2))
        fun s' => ∃ lines shown, HistoryIs s'.history lines ∧
          lines = [.char 97 CString.a_ne_zero, .slash, historyName] ∧
          blankScreen.prints (10 :: (historyText.bytes ++ numbered 1 lines)) = some shown ∧
          shown.prompt 0 (rootCwd ()) = some s'.shell.vga ∧ s'.lastExitStatus = 0 ∧
          s'.reading = true := by
  have safe : SafeCommands (W := Unit) [historyCommand] := fun command hcommand =>
    builtins_safe (fun _ h => absurd h List.not_mem_nil) command (List.mem_cons_of_mem _ hcommand)
  have words : (typedUser [.char 97 CString.a_ne_zero, .slash] historyName).words =
      [historyName] := by decide
  have recorded : record [.char 97 CString.a_ne_zero, .slash] (.ofBytes historyName.bytes) true =
      [.char 97 CString.a_ne_zero, .slash, historyName] := by decide
  have typable : ∀ command ∈ [CString.char 97 CString.a_ne_zero, .slash], Typable command := by
    decide +kernel
  obtain ⟨history, hhistory, hfree⟩ := exists_historyIs fun c hc => (typable c hc).1
  have typed := typed_is hhistory (by decide) typable (by decide +kernel : Typable historyName)
  refine ⟨history, hhistory,
    (history_shows typed rfl safe rfl words (hfree.block (Nat.le_refl 2))).mono ?_⟩
  rintro s' ⟨lines, shown, hlines, heq, -, hends⟩
  exact ⟨lines, shown, hlines, heq.trans recorded, hends⟩

/-- A line that calls `exit` ends the session, with the number that it gives (`exitStatus_eq`), and
no key after it is read. -/
theorem exit_ends (h : SessionIs s u) (hreading : u.reading = true)
    (hsafe : SafeCommands commands)
    (hfind : (commands.find? fun c => c.name = exitName) = some exitCommand)
    {args : List CString} (hwords : u.words = exitName :: args)
    {block : Option HistoryEntry} (hfresh : FreshBlock s.history block) :
    Ends (shellRunStep commands cwd (some s) (.char 10, block)) fun s' =>
      s.shell.vga.prints (10 :: exitText.bytes) = some s'.shell.vga ∧
        s'.lastExitStatus = exitStatus (exitName :: args) ∧ s'.reading = false ∧
        ∀ calls, runFrom (shellRunStep commands cwd) (some s') calls = some s' := by
  obtain ⟨s', vga, machine, hs', hvga, hrun, -, hends, hprompt⟩ :=
    h.entered cwd hreading hsafe hwords hfresh
  unfold dispatch at hrun
  rw [hfind] at hrun
  have hrun : exitMain _ _ = _ := hrun
  obtain ⟨shown, hshown, heq⟩ := Option.bind_eq_some_iff.mp hrun
  obtain ⟨rfl, hstatus⟩ := Prod.mk.inj (Option.some.inj heq)
  rw [if_neg Bool.false_ne_true] at hprompt
  refine ⟨s', hs', ?_, hstatus.symm, hends, fun calls => ?_⟩
  · show s.shell.vga.prints ([10] ++ _) = _
    rw [Vga.prints_append, hvga, ← hprompt]
    exact hshown
  · induction calls with
    | nil => rfl
    | cons call calls ih =>
      have idle : shellRunStep commands cwd (some s') call = some s' :=
        if_pos (by rw [hends]; exact Bool.false_ne_true)
      rw [runFrom_cons, idle]
      exact ih

/-- `exit -12x`, behind another line. -/
theorem exit_ends_twelve :
    ∃ history, HistoryIs history [.slash] ∧
      Ends (shellRunStep [historyCommand, exitCommand] rootCwd
          (some (typedSession history [.slash]
            ⟨[101, 120, 105, 116, 32, 45, 49, 50, 120], by decide⟩)) (.char 10, some 1))
        fun s' => blankScreen.prints (10 :: exitText.bytes) = some s'.shell.vga ∧
          s'.lastExitStatus = -12 ∧ s'.reading = false ∧
          ∀ calls, runFrom (shellRunStep [historyCommand, exitCommand] rootCwd) (some s') calls =
            some s' := by
  have safe : SafeCommands (W := Unit) [historyCommand, exitCommand] := by
    intro command hcommand
    refine builtins_safe (fun _ h => absurd h List.not_mem_nil) command ?_
    exact (List.Perm.swap historyCommand exitCommand []).mem_iff.mpr hcommand
  have words : (typedUser [.slash] ⟨[101, 120, 105, 116, 32, 45, 49, 50, 120], by decide⟩).words =
      [exitName, ⟨[45, 49, 50, 120], by decide⟩] := by decide
  have status : exitStatus [exitName, ⟨[45, 49, 50, 120], by decide⟩] = -12 := by
    rw [exitStatus_eq]
    decide
  have typable : ∀ command ∈ [CString.slash], Typable command := by decide +kernel
  obtain ⟨history, hhistory, hfree⟩ := exists_historyIs fun c hc => (typable c hc).1
  refine ⟨history, hhistory, ?_⟩
  rw [← status]
  exact exit_ends (typed_is hhistory (by decide) typable (by decide +kernel)) rfl safe rfl words
    (hfree.block (Nat.le_refl 1))

end Lines

end Unics
