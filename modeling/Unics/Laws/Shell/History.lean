import Unics.Dev.Shell
import Unics.Lib.Recent
import Unics.Lib.Run

/-!
# What the history remembers

An entry is added behind the others, unless the last one holds the same command, and then the oldest
leaves if there are sixteen. So the queue is the recent past of the commands
(`shell_history_recent`), as long as `malloc` gives blocks that are not in use; blocks that come one
after the other never are (`mallocServes_withBlocks`).
-/

namespace Unics

open Unics.Lib

/-- The queue's entries hold these commands, and the count is their number. -/
structure HistoryIs (history : ShellHistory) (commands : List CString) : Prop where
  entries : ∃ es, history.historyHead.Holds es ∧
    es.map (fun e => CString.ofBuffer shellMaxInputLength (history.command e)) = commands.map some
  count : history.historyCount = commands.length

/-- If the call comes to `malloc`, that returns a block that is not in use. -/
def MallocServes (history : Option ShellHistory) (call : CString × Option HistoryEntry) : Prop :=
  ∀ h t, history = some h → historyRepeats h call.1 = some false → historyEvict h = some t →
    ∃ entry, call.2 = some entry ∧ t.historyHead.entries entry = none

/-- A command that the line editor may hand over. -/
def Recordable (command : CString) : Prop := 0 < command.strlen ∧ command.strlen ≤ 255

/-! ## One call -/

theorem historyIs_init (history : ShellHistory) : HistoryIs (shellInit history) [] :=
  ⟨⟨[], TailQueue.holds_init _, rfl⟩, rfl⟩

theorem textOf_buffer {command : CString} (h : command.strlen ≤ 255) :
    textOf command.buffer 255 = command.bytes := by
  have chars : (List.range command.strlen).map command.buffer = command.bytes := by
    refine List.ext_getElem (by rw [List.length_map, List.length_range]; rfl) fun i hi hbytes => ?_
    rw [List.getElem_map, List.getElem_range, CString.buffer, List.getElem?_eq_getElem hbytes,
      Option.getD_some]
  rw [textOf_eq h (fun i hi => ?_) (fun _ => ?_), chars]
  · rw [CString.buffer, List.getElem?_eq_getElem hi, Option.getD_some]
    exact fun hzero => command.noNul (hzero ▸ List.getElem_mem hi)
  · exact congrArg (Option.getD · 0) (List.getElem?_eq_none (Nat.le_refl command.bytes.length))

section Calls

variable {history : ShellHistory} {commands : List CString} {command : CString}

theorem HistoryIs.repeats (h : HistoryIs history commands) (command : CString) :
    historyRepeats history command = some (decide (commands.getLast? = some command)) := by
  obtain ⟨es, hes, hcommands⟩ := h.entries
  unfold historyRepeats
  rcases List.eq_nil_or_concat' es with rfl | ⟨es, e, rfl⟩
  · obtain rfl := List.map_eq_nil_iff.mp hcommands.symm
    rw [hes.first]
    rfl
  · rcases List.eq_nil_or_concat' commands with rfl | ⟨commands, held, rfl⟩
    · simp at hcommands
    · rw [List.map_append, List.map_append] at hcommands
      obtain ⟨-, hlast⟩ := List.append_inj' hcommands rfl
      have hheld : CString.ofBuffer shellMaxInputLength (history.command e) = some held :=
        (List.cons.inj hlast).1
      have busy : ¬ history.historyHead.first.isNone = true := by
        rw [hes.first, List.head?_append]
        cases es.head? with
        | _ => exact Bool.noConfusion
      obtain ⟨entry, hentry⟩ := Option.ne_none_iff_exists'.mp
        (hes.in_memory (List.mem_append_right es (List.mem_singleton_self e)))
      rw [if_neg busy, hes.lastElement]
      show (history.historyHead.entries e >>= fun _ => _) = _
      rw [hentry]
      show (CString.ofBuffer shellMaxInputLength (history.command e) >>= _) = _
      rw [hheld]
      show some (decide (strcmp held command = 0)) = _
      rw [List.getLast?_concat]
      simp only [strcmp_eq_zero_iff, Option.some_inj]

/-- What is left in the queue, and where it has room. -/
theorem HistoryIs.evict (h : HistoryIs history commands) :
    ∃ t, historyEvict history = some t ∧
      HistoryIs t (if shellHistorySize ≤ commands.length then commands.tail else commands) := by
  have full : history.historyCount ≥ shellHistorySize ↔ shellHistorySize ≤ commands.length := by
    rw [h.count]
    exact Int.ofNat_le
  unfold historyEvict
  by_cases hfull : shellHistorySize ≤ commands.length
  · rw [if_pos hfull, if_pos (full.mpr hfull)]
    obtain ⟨es, hes, hcommands⟩ := h.entries
    cases commands with
    | nil => exact absurd hfull (by decide)
    | cons oldest commands =>
      cases es with
      | nil => cases hcommands
      | cons e es =>
        obtain ⟨-, hrest⟩ := List.cons.inj hcommands
        obtain ⟨head, hremove, hhead⟩ := hes.remove_first
        have out := (List.nodup_cons.mp hes.nodup).1
        have evicted : (history.historyHead.first >>= fun oldest =>
            history.historyHead.remove oldest >>= fun head =>
              some { history with
                historyHead := head.free oldest
                historyCount := history.historyCount - 1 }) =
            some { history with
              historyHead := head.free e
              historyCount := history.historyCount - 1 } := by
          rw [hes.first]
          show (history.historyHead.remove e >>= _) = _
          rw [hremove]
          rfl
        refine ⟨_, evicted, ⟨es, hhead.update out none, hrest⟩, ?_⟩
        show history.historyCount - 1 = commands.length
        rw [h.count, List.length_cons]
        omega
  · rw [if_neg hfull, if_neg (mt full.mp hfull)]
    exact ⟨history, rfl, h⟩

theorem HistoryIs.insert (h : HistoryIs history commands) (hcommand : command.strlen ≤ 255)
    {entry : HistoryEntry} (hfree : history.historyHead.entries entry = none) :
    ∃ t, historyInsert history command entry = some t ∧ HistoryIs t (commands ++ [command]) := by
  obtain ⟨es, hes, hcommands⟩ := h.entries
  have hnew : entry ∉ es := fun hin => hes.in_memory hin hfree
  obtain ⟨copied, hcopy, str, hstr, htext⟩ :=
    strncpy_terminated (history.command entry) command.buffer (by decide : 255 < 256)
  obtain rfl : str = command := CString.ext (htext.trans (textOf_buffer hcommand))
  have hplaced : (history.historyHead.alloc entry ⟨none, .first⟩).Holds es :=
    hes.update hnew (some ⟨none, .first⟩)
  obtain ⟨head, hinsert, hhead⟩ := hplaced.insertTail hnew (by
    show Function.update history.historyHead.entries entry _ entry ≠ none
    rw [Function.update_self]
    exact Option.some_ne_none _)
  have inserted : historyInsert history str entry = some
      { historyHead := head
        command := Function.update history.command entry (Function.update copied 255 0)
        historyCount := history.historyCount + 1 } := by
    have stored : storeChar shellMaxInputLength copied (shellMaxInputLength - 1) 0 =
        some (Function.update copied 255 0) := storeChar_of_lt copied 0 (by decide)
    show (strncpy 256 (history.command entry) str.buffer 255 >>= _) = _
    rw [hcopy]
    simp only [Option.bind_eq_bind, Option.bind_some, stored, hinsert]
  refine ⟨_, inserted, ⟨es ++ [entry], hhead, ?_⟩, ?_⟩
  · have kept : es.map (fun e => CString.ofBuffer shellMaxInputLength
        (Function.update history.command entry (Function.update copied 255 0) e)) =
        commands.map some := by
      rw [← hcommands]
      refine List.map_congr_left fun e he => ?_
      rw [Function.update_of_ne (ne_of_mem_of_not_mem he hnew)]
    have added :
        CString.ofBuffer shellMaxInputLength
          (Function.update history.command entry (Function.update copied 255 0) entry) =
        some str := by
      rw [Function.update_self]
      exact hstr
    rw [List.map_append, List.map_append, kept]
    exact congrArg (commands.map some ++ [·]) added
  · show history.historyCount + 1 = (commands ++ [str]).length
    rw [h.count, List.length_append]
    rfl

/-- A call remembers its command. -/
theorem HistoryIs.step (h : HistoryIs history commands) (hcommand : Recordable command)
    {block : Option HistoryEntry} (hmalloc : MallocServes (some history) (command, block)) :
    ∃ t, shellAddToHistory history command block = some t ∧
      HistoryIs t (remember shellHistorySize commands command) := by
  have hrepeats := h.repeats command
  unfold shellAddToHistory remember
  rw [if_neg (Nat.ne_of_gt hcommand.1), hrepeats]
  by_cases hlast : commands.getLast? = some command
  · rw [if_pos hlast, decide_eq_true hlast]
    exact ⟨history, rfl, h⟩
  · rw [decide_eq_false hlast] at hrepeats ⊢
    obtain ⟨t, hevict, ht⟩ := h.evict
    obtain ⟨entry, hblock, hfree⟩ := hmalloc history t rfl hrepeats hevict
    obtain ⟨v, hinsert, hv⟩ := ht.insert hcommand.2 hfree
    have hblock : block = some entry := hblock
    refine ⟨v, ?_, ?_⟩
    · show (historyEvict history >>= _) = some v
      rw [hevict, hblock]
      exact hinsert
    · rw [if_neg hlast]
      exact hv

end Calls

/-! ## Runs -/

/-- From any history on. -/
theorem HistoryIs.run {history : ShellHistory} {commands : List CString}
    (h : HistoryIs history commands) {calls : List (CString × Option HistoryEntry)}
    (hcalls : ∀ call ∈ calls, Recordable call.1)
    (hmalloc : EveryStep historyStep MallocServes (some history) calls) :
    ∃ t, runFrom historyStep (some history) calls = some t ∧
      HistoryIs t ((calls.map Prod.fst).foldl (remember shellHistorySize) commands) := by
  induction calls generalizing history commands with
  | nil => exact ⟨history, rfl, h⟩
  | cons call calls ih =>
    obtain ⟨here, later⟩ := hmalloc
    obtain ⟨t, hstep, ht⟩ := h.step (hcalls call List.mem_cons_self) here
    have hstep : historyStep (some history) call = some t := hstep
    rw [hstep] at later
    rw [runFrom_cons, hstep]
    exact ih ht (fun c hc => hcalls c (List.mem_cons_of_mem call hc)) later

/-- After `shell_init` and any commands, the queue holds the last sixteen of them, repetitions in a
row counted once, and `history_count` is its length. -/
theorem shell_history_recent (history : ShellHistory) (calls : List (CString × Option HistoryEntry))
    (hcalls : ∀ call ∈ calls, Recordable call.1)
    (hmalloc : EveryStep historyStep MallocServes (some (shellInit history)) calls) :
    ∃ t, runFrom historyStep (some (shellInit history)) calls = some t ∧
      HistoryIs t (recent shellHistorySize (calls.map Prod.fst)) := by
  rw [← foldl_remember (by decide)]
  exact (historyIs_init history).run hcalls hmalloc

/-! ## Blocks that are new -/

/-- No block from this number on is in use. -/
def FreeFrom (history : ShellHistory) (n : ℕ) : Prop :=
  ∀ entry, n ≤ entry → history.historyHead.entries entry = none

/-- `malloc` returns one block after the other. -/
def withBlocks {α : Type} : ℕ → List α → List (α × Option HistoryEntry)
  | _, [] => []
  | n, a :: calls => (a, some n) :: withBlocks (n + 1) calls

theorem fst_withBlocks {α : Type} (n : ℕ) (calls : List α) :
    (withBlocks n calls).map Prod.fst = calls := by
  induction calls generalizing n with
  | nil => rfl
  | cons a calls ih => exact congrArg (a :: ·) (ih (n + 1))

/-- What holds of the calls alone. -/
theorem forall_withBlocks {α : Type} {P : α → Prop} {n : ℕ} {calls : List α}
    (h : ∀ a ∈ calls, P a) : ∀ call ∈ withBlocks n calls, P call.1 := by
  intro call hcall
  refine h call.1 ?_
  rw [← fst_withBlocks n calls]
  exact List.mem_map_of_mem hcall

section Fresh

variable {history t : ShellHistory} {n : ℕ} {command : CString}

theorem FreeFrom.succ (h : FreeFrom history n) : FreeFrom history (n + 1) :=
  fun entry hentry => h entry (Nat.le_of_succ_le hentry)

theorem FreeFrom.evict (h : FreeFrom history n) (hevict : historyEvict history = some t) :
    FreeFrom t n := by
  unfold historyEvict at hevict
  split at hevict
  · obtain ⟨oldest, -, hrest⟩ := Option.bind_eq_some_iff.mp hevict
    obtain ⟨head, hremove, hfreed⟩ := Option.bind_eq_some_iff.mp hrest
    obtain rfl := Option.some.inj hfreed
    intro entry hentry
    show Function.update head.entries oldest none entry = none
    rw [Function.update_apply]
    split
    · rfl
    · exact TailQueue.remove_none hremove (h entry hentry)
  · obtain rfl := Option.some.inj hevict
    exact h

theorem FreeFrom.insert (h : FreeFrom history n)
    (hinsert : historyInsert history command n = some t) : FreeFrom t (n + 1) := by
  obtain ⟨copied, -, hrest⟩ := Option.bind_eq_some_iff.mp hinsert
  obtain ⟨buffer, -, hrest⟩ := Option.bind_eq_some_iff.mp hrest
  obtain ⟨head, hhead, hplaced⟩ := Option.bind_eq_some_iff.mp hrest
  obtain rfl := Option.some.inj hplaced
  intro entry hentry
  refine TailQueue.insertTail_none hhead ?_
  have other : entry ≠ n := Nat.ne_of_gt hentry
  exact (Function.update_of_ne other ..).trans (h.succ entry hentry)

theorem FreeFrom.add (h : FreeFrom history n)
    (hadd : shellAddToHistory history command (some n) = some t) : FreeFrom t (n + 1) := by
  unfold shellAddToHistory at hadd
  split at hadd
  · obtain rfl := Option.some.inj hadd
    exact h.succ
  · obtain ⟨repeats, -, hrest⟩ := Option.bind_eq_some_iff.mp hadd
    cases repeats with
    | true =>
      obtain rfl := Option.some.inj hrest
      exact h.succ
    | false =>
      obtain ⟨evicted, hevict, hinsert⟩ := Option.bind_eq_some_iff.mp hrest
      exact (h.evict hevict).insert hinsert

theorem FreeFrom.step {history : Option ShellHistory}
    (h : ∀ held, history = some held → FreeFrom held n)
    (hstep : historyStep history (command, some n) = some t) : FreeFrom t (n + 1) := by
  obtain ⟨held, rfl, hadd⟩ := Option.bind_eq_some_iff.mp hstep
  exact (h held rfl).add hadd

/-- Blocks that come one after the other are not in use. -/
theorem mallocServes_withBlocks {history : Option ShellHistory}
    (h : ∀ held, history = some held → FreeFrom held n) (commands : List CString) :
    EveryStep historyStep MallocServes history (withBlocks n commands) := by
  induction commands generalizing history n with
  | nil => exact trivial
  | cons command commands ih =>
    refine ⟨?_, ih fun t => FreeFrom.step h⟩
    rintro held t rfl - hevict
    exact ⟨n, rfl, (h held rfl).evict hevict n (Nat.le_refl n)⟩

theorem FreeFrom.run {history : Option ShellHistory}
    (h : ∀ held, history = some held → FreeFrom held n) {commands : List CString}
    (hrun : runFrom historyStep history (withBlocks n commands) = some t) :
    FreeFrom t (n + commands.length) := by
  induction commands generalizing history n with
  | nil => exact h t hrun
  | cons command commands ih =>
    rw [List.length_cons, Nat.add_comm commands.length, ← Nat.add_assoc]
    exact ih (fun _ => FreeFrom.step h) hrun

end Fresh

/-- A context with nothing in memory. -/
def noHistory : ShellHistory :=
  { historyHead := { first := none, last := .first, entries := fun _ => none }
    command := fun _ _ => 0
    historyCount := 0 }

theorem freeFrom_start (n : ℕ) :
    ∀ held, some (shellInit noHistory) = some held → FreeFrom held n := by
  intro held hheld
  obtain rfl := Option.some.inj hheld
  exact fun _ _ => rfl

/-- These commands have been entered, with the first blocks. -/
theorem exists_historyIs {commands : List CString}
    (hcommands : ∀ command ∈ commands, Recordable command) :
    ∃ t, HistoryIs t (recent shellHistorySize commands) ∧ FreeFrom t commands.length := by
  obtain ⟨t, hrun, ht⟩ := (historyIs_init noHistory).run (forall_withBlocks hcommands)
    (mallocServes_withBlocks (freeFrom_start 0) commands)
  rw [fst_withBlocks, foldl_remember (by decide)] at ht
  have free := FreeFrom.run (freeFrom_start 0) hrun
  rw [Nat.zero_add] at free
  exact ⟨t, ht, free⟩

/-- Nineteen commands, the first two of them the same: the next two are forgotten. -/
theorem shell_history_recent_nineteen :
    ∃ t, runFrom historyStep (some (shellInit noHistory))
        (withBlocks 7 (.char 97 CString.a_ne_zero ::
          (List.replicate 9 [.char 97 CString.a_ne_zero, .slash]).flatten)) = some t ∧
      HistoryIs t (List.replicate 8 [.char 97 CString.a_ne_zero, .slash]).flatten := by
  have recordable : ∀ command ∈ CString.char 97 CString.a_ne_zero :: (List.replicate 9
      [CString.char 97 CString.a_ne_zero, .slash]).flatten,
      Recordable command := by
    unfold Recordable
    decide
  have last : recent shellHistorySize (CString.char 97 CString.a_ne_zero :: (List.replicate 9
      [CString.char 97 CString.a_ne_zero, .slash]).flatten) =
      (List.replicate 8 [.char 97 CString.a_ne_zero, .slash]).flatten := by
    decide
  rw [← last, ← fst_withBlocks 7 (_ :: _)]
  exact shell_history_recent noHistory _ (forall_withBlocks recordable)
    (mallocServes_withBlocks (freeFrom_start 7) _)

end Unics
