import Unics.Laws.Libc.ScanReaders

/-!
# `scanf` and `sscanf`

The two scans of a format read the same fields, but `scanf` goes over whitespace also before `%c`
and `%%`, clears the destination of a number that is not there, and waits for a character behind the
last field. So they agree as long as the fields are there and nothing of this matters
(`SameFields`). What the console hands out differs from the text that is typed where a line does not
fit.
-/

namespace Unics

open Unics.Lib

/-! ## Where the scans agree -/

/-- The text and the console at a character `c` that is expected. The console has a character; where
both have `c`, both go on behind it, and where one of them has, that one goes on alone. -/
def MeetsChar (c : UInt8) (t u : List UInt8) (both : List UInt8 → List UInt8 → Prop)
    (text console : List UInt8 → Prop) : Prop :=
  ∃ x v, u = x :: v ∧ (t.head? = some c → x = c → both t.tail v) ∧
    (t.head? = some c → x ≠ c → text t.tail) ∧ (t.head? ≠ some c → x = c → console v)

/-- In a string the items store nothing. -/
def StoresNothing : List ScanItem → List UInt8 → Prop
  | [], _ => True
  | .literal c _ :: items, t => t.head? = some c → StoresNothing items t.tail
  | .blank _ _ :: items, t => StoresNothing items t
  | .percent :: items, t => t.head? = some 37 → StoresNothing items t.tail
  | .number conv :: _, t => ¬ conv.Begins (skipBlanks t)
  | .char :: _, t => t = []
  | .string :: _, t => skipBlanks t = []

/-- On the console the items store nothing, and there are characters enough. -/
def StoresNothingTyped : List ScanItem → List UInt8 → Prop
  | [], _ => True
  | .literal c _ :: items, u => ∃ x v, u = x :: v ∧ (x = c → StoresNothingTyped items v)
  | .blank _ _ :: items, u => u ≠ [] ∧ StoresNothingTyped items u
  | .percent :: items, u => ∃ x v, skipBlanks u = x :: v ∧ (x = 37 → StoresNothingTyped items v)
  | _ :: _, _ => False

/-- The items find the same fields in a text and in what the console hands out of it: numbers and
words behind whitespace with something left at the console behind them, for `%c` a character with no
whitespace before it. This goes on until a character does not match, behind which nothing is
stored. -/
def SameFields : List ScanItem → List UInt8 → List UInt8 → Prop
  | [], _, _ => True
  | .literal c _ :: items, t, u =>
    MeetsChar c t u (SameFields items) (StoresNothing items) (StoresNothingTyped items)
  | .blank _ _ :: items, t, u => u ≠ [] ∧ SameFields items t u
  | .percent :: items, t, u =>
    MeetsChar 37 t (skipBlanks u) (SameFields items) (StoresNothing items)
      (StoresNothingTyped items)
  | .number conv :: items, t, u =>
    conv.Begins (skipBlanks t) ∧ conv.Begins (skipBlanks u) ∧
      conv.value (skipBlanks t) = conv.value (skipBlanks u) ∧ conv.behind (skipBlanks u) ≠ [] ∧
      SameFields items (conv.behind (skipBlanks t)) (conv.behind (skipBlanks u))
  | .char :: items, t, u => ∃ c t' u', t = c :: t' ∧ skipBlanks u = c :: u' ∧ SameFields items t' u'
  | .string :: items, t, u =>
    wordOf (skipBlanks t) = wordOf (skipBlanks u) ∧ wordOf (skipBlanks t) ≠ [] ∧
      behindWord (skipBlanks u) ≠ [] ∧
      SameFields items (behindWord (skipBlanks t)) (behindWord (skipBlanks u))

/-- `scanf` with the text typed at the console returns what `sscanf` returns on the text, and stores
the same. -/
def ScanfAgrees (items : List ScanItem) (text : ScanText) : Prop :=
  Agree ((scanf (scanFormat items) (Console.typed text.bytes)).map Scan.result)
    ((sscanf text.string (scanFormat items)).map Scan.result)

/-! ## The readers agree -/

section Agreement

variable {item : ScanItem} {items : List ScanItem} {t u : List UInt8} {c : UInt8}

/-- A character that is expected in a string. -/
theorem readText_expects
    (hread : readText item t = some (if t.head? = some c then .passes t.tail else .stops)) :
    readItems readText (item :: items) t = some (0, []) ↔
      (t.head? = some c → readItems readText items t.tail = some (0, [])) := by
  by_cases h : t.head? = some c
  · rw [if_pos h] at hread
    rw [readItems_passes hread]
    exact ⟨fun hrest _ => hrest, fun hrest => hrest h⟩
  · rw [if_neg h] at hread
    exact iff_of_true (readItems_stops hread) fun h' => absurd h' h

theorem storesNothing_iff (items : List ScanItem) (t : List UInt8) :
    readItems readText items t = some (0, []) ↔ StoresNothing items t := by
  induction items generalizing t with
  | nil => exact iff_of_true rfl trivial
  | cons item items ih =>
    cases item with
    | literal c plain => exact (readText_expects rfl).trans (imp_congr_right fun _ => ih _)
    | blank c space => exact ih t
    | percent => exact (readText_expects rfl).trans (imp_congr_right fun _ => ih _)
    | number conv =>
      show _ ↔ ¬ conv.Begins (skipBlanks t)
      by_cases h : conv.Begins (skipBlanks t)
      · rw [readItems_stores (readText_number h)]
        exact iff_of_false (map_countValue_ne _ _) (not_not.mpr h)
      · exact iff_of_true (readItems_stops (readText_no_number h)) h
    | char =>
      cases t with
      | nil => exact iff_of_true rfl rfl
      | cons c t => exact iff_of_false (map_countValue_ne _ _) (List.cons_ne_nil c t)
    | string =>
      show _ ↔ skipBlanks t = []
      by_cases h : skipBlanks t = []
      · exact iff_of_true (readItems_stops (readText_no_string h)) h
      · rw [readItems_stores (readText_string h)]
        exact iff_of_false (map_countValue_ne _ _) h

/-- A character that is expected at the console. -/
theorem readConsole_expects (hread : readConsole item u = readChar c t) :
    readItems readConsole (item :: items) u = some (0, []) ↔
      ∃ x v, t = x :: v ∧ (x = c → readItems readConsole items v = some (0, [])) := by
  cases t with
  | nil =>
    rw [readItems_waits hread]
    refine iff_of_false (Option.some_ne_none _).symm ?_
    rintro ⟨x, v, h, -⟩
    exact absurd h.symm (List.cons_ne_nil x v)
  | cons x v =>
    rw [readChar] at hread
    by_cases hx : x = c
    · rw [if_pos hx] at hread
      rw [readItems_passes hread]
      constructor
      · intro h
        exact ⟨x, v, rfl, fun _ => h⟩
      · rintro ⟨y, w, h, hrest⟩
        obtain ⟨rfl, rfl⟩ := List.cons.inj h
        exact hrest hx
    · rw [if_neg hx] at hread
      exact iff_of_true (readItems_stops hread) ⟨x, v, rfl, fun h => absurd h hx⟩

/-- A number that is not there is a zero all the same. -/
theorem readNumber_stores (conv : NumberConv) (items : List ScanItem) (u : List UInt8) :
    readItems readConsole (.number conv :: items) u ≠ some (0, []) := by
  by_cases hbehind : conv.behind (skipBlanks u) = []
  · rw [readItems_waits (readConsole_number_waits hbehind)]
    exact (Option.some_ne_none _).symm
  · by_cases hbegins : conv.Begins (skipBlanks u)
    · rw [readItems_stores (readConsole_number hbehind hbegins)]
      exact map_countValue_ne _ _
    · rw [readItems_spoils (readConsole_no_number hbehind hbegins)]
      exact fun h => List.cons_ne_nil _ _ (congrArg Prod.snd (Option.some.inj h))

theorem storesNothingTyped_iff (items : List ScanItem) (u : List UInt8) :
    readItems readConsole items u = some (0, []) ↔ StoresNothingTyped items u := by
  induction items generalizing u with
  | nil => exact iff_of_true rfl trivial
  | cons item items ih =>
    have expects {c : UInt8} {t : List UInt8} :
        (∃ x v, t = x :: v ∧ (x = c → readItems readConsole items v = some (0, []))) ↔
          ∃ x v, t = x :: v ∧ (x = c → StoresNothingTyped items v) :=
      exists_congr fun x => exists_congr fun v => and_congr_right fun _ => imp_congr_right fun _ =>
        ih v
    cases item with
    | literal c plain => exact (readConsole_expects rfl).trans expects
    | blank c space =>
      show _ ↔ u ≠ [] ∧ _
      by_cases h : u = []
      · rw [readItems_waits (readConsole_blank_waits h)]
        exact iff_of_false (Option.some_ne_none _).symm fun h' => h'.1 h
      · rw [readItems_passes (readConsole_blank h), ih u]
        exact (and_iff_right h).symm
    | percent => exact (readConsole_expects rfl).trans expects
    | number conv => exact iff_of_false (readNumber_stores conv items u) id
    | char =>
      refine iff_of_false ?_ id
      cases h : skipBlanks u with
      | nil =>
        rw [readItems_waits (readConsole_char_waits h)]
        exact (Option.some_ne_none _).symm
      | cons c v =>
        rw [readItems_stores (readConsole_char h)]
        exact map_countValue_ne _ _
    | string =>
      refine iff_of_false ?_ id
      by_cases h : behindWord (skipBlanks u) = []
      · rw [readItems_waits (readConsole_string_waits h)]
        exact (Option.some_ne_none _).symm
      · rw [readItems_stores (readConsole_string h)]
        exact map_countValue_ne _ _

/-- A character that both readers expect. -/
theorem agree_expects {w : List UInt8}
    (hconsole : readConsole item u = readChar c w)
    (htext : readText item t = some (if t.head? = some c then .passes t.tail else .stops))
    (ih : ∀ t u, Agree (readItems readConsole items u) (readItems readText items t) ↔
      SameFields items t u) :
    Agree (readItems readConsole (item :: items) u) (readItems readText (item :: items) t) ↔
      MeetsChar c t w (SameFields items) (StoresNothing items) (StoresNothingTyped items) := by
  cases w with
  | nil =>
    rw [readItems_waits hconsole]
    refine iff_of_false not_agree_none ?_
    rintro ⟨x, v, h, -⟩
    exact absurd h.symm (List.cons_ne_nil x v)
  | cons x v =>
    have meets : MeetsChar c t (x :: v) (SameFields items) (StoresNothing items)
        (StoresNothingTyped items) ↔
        (t.head? = some c → x = c → SameFields items t.tail v) ∧
          (t.head? = some c → x ≠ c → StoresNothing items t.tail) ∧
          (t.head? ≠ some c → x = c → StoresNothingTyped items v) := by
      constructor
      · rintro ⟨y, w, h, hall⟩
        obtain ⟨rfl, rfl⟩ := List.cons.inj h
        exact hall
      · intro hall
        exact ⟨x, v, rfl, hall⟩
    rw [meets]
    rw [readChar] at hconsole
    by_cases hx : x = c
    · rw [if_pos hx] at hconsole
      rw [readItems_passes hconsole]
      by_cases ht : t.head? = some c
      · rw [if_pos ht] at htext
        rw [readItems_passes htext, ih]
        constructor
        · intro h
          exact ⟨fun _ _ => h, fun _ hne => absurd hx hne, fun hne => absurd ht hne⟩
        · intro h
          exact h.1 ht hx
      · rw [if_neg ht] at htext
        rw [readItems_stops htext, agree_some, storesNothingTyped_iff]
        constructor
        · intro h
          exact ⟨fun hhead => absurd hhead ht, fun hhead => absurd hhead ht, fun _ _ => h⟩
        · intro h
          exact h.2.2 ht hx
    · rw [if_neg hx] at hconsole
      rw [readItems_stops hconsole, agree_some_left]
      by_cases ht : t.head? = some c
      · rw [if_pos ht] at htext
        rw [readItems_passes htext, storesNothing_iff]
        constructor
        · intro h
          exact ⟨fun _ heq => absurd heq hx, fun _ _ => h, fun hne => absurd ht hne⟩
        · intro h
          exact h.2.1 ht hx
      · rw [if_neg ht] at htext
        refine iff_of_true (readItems_stops htext) ⟨fun _ heq => absurd heq hx,
          fun hhead => absurd hhead ht, fun _ heq => absurd heq hx⟩

/-- A number that both readers look for. -/
theorem agree_number (conv : NumberConv)
    (ih : ∀ t u, Agree (readItems readConsole items u) (readItems readText items t) ↔
      SameFields items t u) :
    Agree (readItems readConsole (.number conv :: items) u)
        (readItems readText (.number conv :: items) t) ↔
      SameFields (.number conv :: items) t u := by
  by_cases ht : conv.Begins (skipBlanks t)
  · rw [readItems_stores (readText_number ht)]
    by_cases hbehind : conv.behind (skipBlanks u) = []
    · rw [readItems_waits (readConsole_number_waits hbehind)]
      exact iff_of_false not_agree_none fun h => h.2.2.2.1 hbehind
    · by_cases hu : conv.Begins (skipBlanks u)
      · rw [readItems_stores (readConsole_number hbehind hu), agree_stores, ih]
        constructor
        · rintro ⟨value, hrest⟩
          exact ⟨ht, hu, (ScanValue.int.inj value).symm, hbehind, hrest⟩
        · rintro ⟨-, -, value, -, hrest⟩
          exact ⟨congrArg ScanValue.int value.symm, hrest⟩
      · rw [readItems_spoils (readConsole_no_number hbehind hu), agree_some_left]
        exact iff_of_false (map_countValue_ne _ _) fun h => hu h.2.1
  · rw [readItems_stops (readText_no_number ht), agree_some]
    exact iff_of_false (readNumber_stores conv items u) fun h => ht h.1

theorem agree_iff (items : List ScanItem) (t u : List UInt8) :
    Agree (readItems readConsole items u) (readItems readText items t) ↔ SameFields items t u := by
  induction items generalizing t u with
  | nil => exact iff_of_true ⟨_, rfl, rfl⟩ trivial
  | cons item items ih =>
    cases item with
    | literal c plain => exact agree_expects rfl rfl ih
    | blank c space =>
      show _ ↔ u ≠ [] ∧ _
      by_cases h : u = []
      · rw [readItems_waits (readConsole_blank_waits h)]
        exact iff_of_false not_agree_none fun h' => h'.1 h
      · rw [readItems_passes (readConsole_blank h), ← ih t u]
        exact (and_iff_right h).symm
    | percent => exact agree_expects rfl rfl ih
    | number conv => exact agree_number conv ih
    | char =>
      cases hu : skipBlanks u with
      | nil =>
        rw [readItems_waits (readConsole_char_waits hu)]
        refine iff_of_false not_agree_none ?_
        rintro ⟨c, t', u', -, h, -⟩
        exact absurd (hu.symm.trans h).symm (List.cons_ne_nil c u')
      | cons c v =>
        rw [readItems_stores (readConsole_char hu)]
        cases t with
        | nil =>
          rw [readItems_stops rfl, agree_some]
          refine iff_of_false (map_countValue_ne _ _) ?_
          rintro ⟨d, t', u', h, -, -⟩
          exact absurd h.symm (List.cons_ne_nil d t')
        | cons d t =>
          have text : readText .char (d :: t) = some (.stores (.char d) t) := rfl
          rw [readItems_stores text, agree_stores, ih]
          constructor
          · rintro ⟨value, hrest⟩
            obtain rfl := ScanValue.char.inj value
            exact ⟨c, t, v, rfl, hu, hrest⟩
          · rintro ⟨e, t', u', h, h', hrest⟩
            obtain ⟨rfl, rfl⟩ := List.cons.inj h
            obtain ⟨rfl, rfl⟩ := List.cons.inj (hu.symm.trans h')
            exact ⟨rfl, hrest⟩
    | string =>
      by_cases hbehind : behindWord (skipBlanks u) = []
      · rw [readItems_waits (readConsole_string_waits hbehind)]
        exact iff_of_false not_agree_none fun h => h.2.2.1 hbehind
      · rw [readItems_stores (readConsole_string hbehind)]
        by_cases ht : skipBlanks t = []
        · rw [readItems_stops (readText_no_string ht), agree_some]
          refine iff_of_false (map_countValue_ne _ _) fun h => h.2.1 ?_
          rw [ht]
          rfl
        · rw [readItems_stores (readText_string ht), agree_stores, ih]
          constructor
          · rintro ⟨value, hrest⟩
            exact ⟨(ScanValue.string.inj value).symm, fun h => ht (wordOf_eq_nil h), hbehind, hrest⟩
          · rintro ⟨value, -, -, hrest⟩
            exact ⟨congrArg ScanValue.string value.symm, hrest⟩

end Agreement

/-! ## The scans agree -/

theorem scanf_eq (items : List ScanItem) (text : ScanText) :
    (scanf (scanFormat items) (Console.typed text.bytes)).map Scan.result =
      readItems readConsole items text.console := by
  refine scanf_reads.scan items ⟨?_, fun h => ?_⟩
  · exact getcharAnswers_eq (fun c hc => (ScanText.mem_bytes hc).2) (Nat.le_refl _)
  · exact (ScanText.mem_bytes ((mem_handedOut h).resolve_left List.not_mem_nil)).1 rfl

theorem sscanf_eq (items : List ScanItem) (text : ScanText) :
    (sscanf text.string (scanFormat items)).map Scan.result = readItems readText items text.bytes :=
  sscanf_reads.scan items rfl

/-- The two scans agree exactly on the same fields. -/
theorem scanf_agrees_iff (items : List ScanItem) (text : ScanText) :
    ScanfAgrees items text ↔ SameFields items text.bytes text.console := by
  rw [ScanfAgrees, scanf_eq, sscanf_eq]
  exact agree_iff items text.bytes text.console

/-- A blank and a letter. -/
def blankLetter : ScanText where
  body := [32, 97]
  plain := List.forall_mem_cons.mpr ⟨.inl rfl, List.forall_mem_singleton.mpr (.inl rfl)⟩

/-- `scanf` goes over the blank, and `sscanf` stores it. -/
theorem scanf_not_agrees : ¬ ScanfAgrees [.char] blankLetter := by
  have hscanf : (scanf (scanFormat [.char]) (Console.typed [32, 97, 10])).map Scan.result =
      some (1, [.char 97]) := by decide
  have hsscanf : (sscanf (CString.ofBytes [32, 97, 10]) (scanFormat [.char])).map Scan.result =
      some (1, [.char 32]) := by decide
  rintro ⟨r, hleft, hright⟩
  have left := hscanf.symm.trans hleft
  have right := hsscanf.symm.trans hright
  exact absurd (left.trans right.symm) (by decide)

end Unics
