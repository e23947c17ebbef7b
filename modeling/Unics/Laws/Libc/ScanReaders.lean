import Unics.Laws.Libc.ScanFields
import Unics.Lib.Reading

/-!
# The scans as readers

A scan reads the items of its format one after the other (`Reads.scan`): `sscanf` from a string, as
`readText` says, and `scanf` from the console, as `readConsole` says. Whitespace in a format is no
turn of its own, so the items are taken with the blanks in front of them.
-/

namespace Unics

open Unics.Lib

/-! ## Readers -/

/-- How an item is read from a string. -/
def readText : ScanItem → List UInt8 → Option (Reading (List UInt8) ScanValue)
  | .literal c _, t => some (if t.head? = some c then .passes t.tail else .stops)
  | .blank _ _, t => some (.passes t)
  | .percent, t => some (if t.head? = some 37 then .passes t.tail else .stops)
  | .number conv, t =>
    some (if conv.Begins (skipBlanks t) then
      .stores (.int (conv.value (skipBlanks t))) (conv.behind (skipBlanks t)) else .stops)
  | .char, [] => some .stops
  | .char, c :: t => some (.stores (.char c) t)
  | .string, t =>
    some (if skipBlanks t = [] then .stops
      else .stores (.string (wordOf (skipBlanks t))) (behindWord (skipBlanks t)))

/-- A character that is expected at the console. -/
def readChar (c : UInt8) : List UInt8 → Option (Reading (List UInt8) ScanValue)
  | [] => none
  | x :: u => some (if x = c then .passes u else .stops)

/-- How an item is read from the console. -/
def readConsole : ScanItem → List UInt8 → Option (Reading (List UInt8) ScanValue)
  | .literal c _, u => readChar c u
  | .blank _ _, u => if u = [] then none else some (.passes u)
  | .percent, u => readChar 37 (skipBlanks u)
  | .number conv, u =>
    if conv.behind (skipBlanks u) = [] then none
    else some (if conv.Begins (skipBlanks u) then
      .stores (.int (conv.value (skipBlanks u))) (conv.behind (skipBlanks u))
      else .spoils (.int 0))
  | .char, u =>
    match skipBlanks u with
    | [] => none
    | c :: u => some (.stores (.char c) u)
  | .string, u =>
    if behindWord (skipBlanks u) = [] then none
    else some (.stores (.string (wordOf (skipBlanks u))) (behindWord (skipBlanks u)))

section Readers

variable {conv : NumberConv} {t u : List UInt8}

theorem readText_number (h : conv.Begins (skipBlanks t)) :
    readText (.number conv) t =
      some (.stores (.int (conv.value (skipBlanks t))) (conv.behind (skipBlanks t))) :=
  congrArg some (if_pos h)

theorem readText_no_number (h : ¬ conv.Begins (skipBlanks t)) :
    readText (.number conv) t = some .stops :=
  congrArg some (if_neg h)

theorem readText_string (h : skipBlanks t ≠ []) :
    readText .string t =
      some (.stores (.string (wordOf (skipBlanks t))) (behindWord (skipBlanks t))) :=
  congrArg some (if_neg h)

theorem readText_no_string (h : skipBlanks t = []) : readText .string t = some .stops :=
  congrArg some (if_pos h)

theorem readConsole_number (hbehind : conv.behind (skipBlanks u) ≠ [])
    (h : conv.Begins (skipBlanks u)) :
    readConsole (.number conv) u =
      some (.stores (.int (conv.value (skipBlanks u))) (conv.behind (skipBlanks u))) :=
  (if_neg hbehind).trans (congrArg some (if_pos h))

theorem readConsole_no_number (hbehind : conv.behind (skipBlanks u) ≠ [])
    (h : ¬ conv.Begins (skipBlanks u)) : readConsole (.number conv) u = some (.spoils (.int 0)) :=
  (if_neg hbehind).trans (congrArg some (if_neg h))

theorem readConsole_number_waits (h : conv.behind (skipBlanks u) = []) :
    readConsole (.number conv) u = none :=
  if_pos h

theorem readConsole_char {c : UInt8} {v : List UInt8} (h : skipBlanks u = c :: v) :
    readConsole .char u = some (.stores (.char c) v) := by
  rw [readConsole, h]

theorem readConsole_char_waits (h : skipBlanks u = []) : readConsole .char u = none := by
  rw [readConsole, h]

theorem readConsole_string (h : behindWord (skipBlanks u) ≠ []) :
    readConsole .string u =
      some (.stores (.string (wordOf (skipBlanks u))) (behindWord (skipBlanks u))) :=
  if_neg h

theorem readConsole_string_waits (h : behindWord (skipBlanks u) = []) :
    readConsole .string u = none :=
  if_pos h

theorem readConsole_blank {c : UInt8} {space : isspace c = true} (h : u ≠ []) :
    readConsole (.blank c space) u = some (.passes u) :=
  if_neg h

theorem readConsole_blank_waits {c : UInt8} {space : isspace c = true} (h : u = []) :
    readConsole (.blank c space) u = none :=
  if_pos h

end Readers

/-! ## Turns -/

/-- The count, and what is stored. -/
def Scan.result {σ : Type} (s : Scan σ) : ℕ × List ScanValue := (s.count, s.stored)

section Took

variable {σ : Type}

/-- What a turn does for an item, by how the item is read. `view` says what an input is as text. -/
inductive Took (view : σ → List UInt8 → Prop) (rest : List UInt8) (s : Scan σ) :
    Option (Reading (List UInt8) ScanValue) → Option (Scan σ) → Prop
  | waits : Took view rest s none none
  | passes {s' : Scan σ} {t : List UInt8} : s'.format = rest → s'.stopped = false →
      view s'.input t → s'.result = s.result → Took view rest s (some (.passes t)) (some s')
  | stores {s' : Scan σ} {v : ScanValue} {t : List UInt8} : s'.format = rest → s'.stopped = false →
      view s'.input t → s'.result = (s.count + 1, s.stored ++ [v]) →
      Took view rest s (some (.stores v t)) (some s')
  | stops {s' : Scan σ} : s'.stopped = true → s'.result = s.result →
      Took view rest s (some .stops) (some s')
  | spoils {s' : Scan σ} {v : ScanValue} : s'.stopped = true →
      s'.result = (s.count, s.stored ++ [v]) → Took view rest s (some (.spoils v)) (some s')

/-- A blank of a format. -/
def ScanItem.IsBlank (item : ScanItem) : Prop := ∃ c space, item = .blank c space

/-- A loop over a format reads its items. Where it is over before the format, nothing would be
read. -/
structure Reads (view : σ → List UInt8 → Prop) (done : Scan σ → Bool)
    (turn : Scan σ → Option (Scan σ))
    (read : ScanItem → List UInt8 → Option (Reading (List UInt8) ScanValue)) : Prop where
  stopped : ∀ s, s.stopped = true → done s = true
  finished : ∀ s, s.format = [] → done s = true
  ended : ∀ s t items, done s = true → s.stopped = false → s.format ≠ [] → view s.input t →
    readItems read items t = some (0, [])
  blank : ∀ c space t, read (.blank c space) t = some (.passes t) ∨
    ∀ item, read item t = none
  item : ∀ s t item rest, ¬ item.IsBlank → s.format.dropWhile isspace = item.text ++ rest →
    s.stopped = false → view s.input t → Took view rest s (read item t) (turn s)
  last : ∀ s t c space, s.format.dropWhile isspace = [] → view s.input t →
    Took view [] s ((read (.blank c space) t).map fun _ => .stops) (turn s)

end Took

section Run

variable {σ : Type} {view : σ → List UInt8 → Prop} {done : Scan σ → Bool}
  {turn : Scan σ → Option (Scan σ)}
  {read : ScanItem → List UInt8 → Option (Reading (List UInt8) ScanValue)}
  {front items : List ScanItem} {s : Scan σ} {t : List UInt8} {n : ℕ}

theorem scanItemsText_append (front items : List ScanItem) :
    scanItemsText (front ++ items) = scanItemsText front ++ scanItemsText items :=
  List.flatMap_append

theorem dropWhile_front (hfront : ∀ i ∈ front, i.IsBlank) (text : List UInt8) :
    (scanItemsText front ++ text).dropWhile isspace = text.dropWhile isspace := by
  induction front with
  | nil => rfl
  | cons i front ih =>
    obtain ⟨c, space, rfl⟩ := hfront i List.mem_cons_self
    exact (List.dropWhile_cons_of_pos space).trans
      (ih fun j hj => hfront j (List.mem_cons_of_mem _ hj))

/-- What is no blank does not begin with whitespace. -/
theorem dropWhile_text {item : ScanItem} (h : ¬ item.IsBlank) (text : List UInt8) :
    (item.text ++ text).dropWhile isspace = item.text ++ text := by
  cases item with
  | literal c plain =>
    exact List.dropWhile_cons_of_neg (Bool.eq_false_iff.mp plain.2.2)
  | blank c space => exact absurd ⟨c, space, rfl⟩ h
  | percent => rfl
  | number conv => rfl
  | char => rfl
  | string => rfl

theorem ScanItem.text_length_pos (item : ScanItem) : 0 < item.text.length := by
  cases item
  all_goals exact Nat.succ_pos _

/-- Blanks alone store nothing. -/
theorem Reads.blanks (h : Reads view done turn read) (hfront : ∀ i ∈ front, i.IsBlank)
    {c : UInt8} {space : isspace c = true} (hpass : read (.blank c space) t = some (.passes t)) :
    readItems read front t = some (0, []) := by
  induction front with
  | nil => rfl
  | cons i front ih =>
    obtain ⟨d, dspace, rfl⟩ := hfront i List.mem_cons_self
    rcases h.blank d dspace t with hd | hnone
    · exact (readItems_passes hd).trans (ih fun j hj => hfront j (List.mem_cons_of_mem _ hj))
    · exact absurd ((hnone _).symm.trans hpass) (Option.some_ne_none _).symm

/-- The result of a scan from some state on. -/
def Scan.add (s : Scan σ) (r : ℕ × List ScanValue) : ℕ × List ScanValue :=
  (s.count + r.1, s.stored ++ r.2)

theorem Scan.add_nothing (s : Scan σ) : s.add (0, []) = s.result :=
  Prod.ext rfl (List.append_nil _)

theorem Scan.add_of_result {s s' : Scan σ} (h : s'.result = s.result) : s'.add = s.add := by
  have count : s'.count = s.count := congrArg Prod.fst h
  have stored : s'.stored = s.stored := congrArg Prod.snd h
  funext r
  rw [Scan.add, Scan.add, count, stored]

theorem Scan.add_of_stored {s s' : Scan σ} {v : ScanValue}
    (h : s'.result = (s.count + 1, s.stored ++ [v])) (r : ℕ × List ScanValue) :
    s'.add r = s.add (countValue v r) := by
  have count : s'.count = s.count + 1 := congrArg Prod.fst h
  have stored : s'.stored = s.stored ++ [v] := congrArg Prod.snd h
  rw [Scan.add, Scan.add, count, stored, List.append_assoc, Nat.add_assoc, Nat.add_comm 1]
  rfl

/-- A turn, and what the loop comes to behind it. -/
theorem Took.run {rest : List UInt8} {reading : Option (Reading (List UInt8) ScanValue)}
    {turned : Option (Scan σ)} (follow : List UInt8 → Option (ℕ × List ScanValue))
    (h : Reads view done turn read) (took : Took view rest s reading turned)
    (next : ∀ (s' : Scan σ) (u : List UInt8), s'.format = rest → s'.stopped = false →
      view s'.input u → (turns done turn n s').map Scan.result = (follow u).map s'.add) :
    (turned >>= turns done turn n).map Scan.result =
      (Reading.followed follow reading).map s.add := by
  cases took with
  | waits => rfl
  | @passes s' u hrest hgoes hinput hresult =>
    rw [Reading.followed, ← Scan.add_of_result hresult]
    exact next s' u hrest hgoes hinput
  | @stores s' v u hrest hgoes hinput hresult =>
    have added : s.add ∘ countValue v = s'.add :=
      funext fun r => (Scan.add_of_stored hresult r).symm
    rw [Reading.followed, Option.map_map, added]
    exact next s' u hrest hgoes hinput
  | @stops s' hover hresult =>
    show (turns done turn n s').map _ = _
    rw [turns_of_done (h.stopped s' hover)]
    exact congrArg some (hresult.trans s.add_nothing.symm)
  | @spoils s' v hover hresult =>
    show (turns done turn n s').map _ = _
    rw [turns_of_done (h.stopped s' hover)]
    exact congrArg some hresult

/-- A loop that is over has nothing to read; another takes a turn. -/
theorem Reads.run_turn (h : Reads view done turn read) (hformat : s.format ≠ [])
    (hstopped : s.stopped = false) (hview : view s.input t) (hn : s.format.length ≤ n)
    (hturn : ∀ m, n = m + 1 → (turn s >>= turns done turn m).map Scan.result =
      (readItems read items t).map s.add) :
    (turns done turn n s).map Scan.result = (readItems read items t).map s.add := by
  cases hdone : done s with
  | true =>
    rw [turns_of_done hdone, h.ended s t items hdone hstopped hformat hview]
    exact congrArg some s.add_nothing.symm
  | false =>
    have length := List.length_pos_iff.mpr hformat
    obtain ⟨m, rfl⟩ : ∃ m, n = m + 1 := Nat.exists_eq_succ_of_ne_zero (by omega)
    rw [turns_succ hdone]
    exact hturn m rfl

/-- At the end of a format only blanks are left. -/
theorem Reads.run_blanks (h : Reads view done turn read) (hfront : ∀ i ∈ front, i.IsBlank)
    (hformat : s.format = scanItemsText front) (hstopped : s.stopped = false)
    (hview : view s.input t) (hn : s.format.length ≤ n) :
    (turns done turn n s).map Scan.result = (readItems read front t).map s.add := by
  cases front with
  | nil =>
    rw [turns_of_done (h.finished s hformat)]
    exact congrArg some s.add_nothing.symm
  | cons i front =>
    obtain ⟨c, space, rfl⟩ := hfront i List.mem_cons_self
    have some : s.format ≠ [] := by
      rw [hformat]
      exact List.cons_ne_nil c _
    have nothing : s.format.dropWhile isspace = [] := by
      have all := dropWhile_front hfront []
      rwa [List.append_nil, ← hformat] at all
    refine h.run_turn some hstopped hview hn fun m _ => ?_
    have run := (h.last s t c space nothing hview).run (n := m) (fun _ => Option.some (0, [])) h
      fun s' u hrest _ _ => by
        rw [turns_of_done (h.finished s' hrest)]
        exact congrArg Option.some s'.add_nothing.symm
    rcases h.blank c space t with hpass | hnone
    · rw [h.blanks hfront hpass, run, hpass]
      rfl
    · rw [readItems_waits (hnone _), run, hnone]
      rfl

/-- The loop reads the items, blanks in front or not. -/
theorem Reads.run (h : Reads view done turn read) (hfront : ∀ i ∈ front, i.IsBlank)
    (hformat : s.format = scanItemsText (front ++ items)) (hstopped : s.stopped = false)
    (hview : view s.input t) (hn : s.format.length ≤ n) :
    (turns done turn n s).map Scan.result = (readItems read (front ++ items) t).map s.add := by
  induction items generalizing front s t n with
  | nil =>
    rw [List.append_nil] at hformat ⊢
    exact h.run_blanks hfront hformat hstopped hview hn
  | cons item items ih =>
    by_cases hitem : item.IsBlank
    · -- another blank in front of the rest
      rw [List.append_cons] at hformat ⊢
      refine ih ?_ hformat hstopped hview hn
      intro i hi
      rcases List.mem_append.mp hi with hi | hi
      · exact hfront i hi
      · exact List.mem_singleton.mp hi ▸ hitem
    · have parts : s.format = scanItemsText front ++ (item.text ++ scanItemsText items) :=
        hformat.trans (scanItemsText_append front _)
      have positive := item.text_length_pos
      have length := congrArg List.length parts
      rw [List.length_append, List.length_append] at length
      have head : s.format.dropWhile isspace = item.text ++ scanItemsText items := by
        rw [parts, dropWhile_front hfront, dropWhile_text hitem]
      have through : readItems read (front ++ item :: items) t =
          readItems read (item :: items) t := by
        refine readItems_append fun i hi => ?_
        obtain ⟨c, space, rfl⟩ := hfront i hi
        exact (h.blank c space t).imp_right fun hnone => ⟨hnone _, hnone item⟩
      rw [through]
      refine h.run_turn (List.length_pos_iff.mp (by omega)) hstopped hview hn fun m hm => ?_
      refine (h.item s t item _ hitem head hstopped hview).run _ h fun s' u hrest hgoes hinput => ?_
      exact ih (fun i (hi : i ∈ []) => absurd hi List.not_mem_nil) hrest hgoes hinput
        (by rw [hrest]; omega)

/-- The whole scan. -/
theorem Reads.scan (h : Reads view done turn read) (items : List ScanItem) {input : σ}
    (hview : view input t) :
    (turns done turn (scanFormat items).bytes.length (scanStart (scanFormat items) input)).map
        Scan.result = readItems read items t := by
  have run := h.run (s := scanStart (scanFormat items) input)
    (fun i (hi : i ∈ []) => absurd hi List.not_mem_nil) rfl rfl hview (Nat.le_refl _)
  have start : (scanStart (scanFormat items) input).add = id :=
    funext fun r => Prod.ext (Nat.zero_add r.1) rfl
  rwa [start, Option.map_id] at run

end Run

/-! ## `scanf` reads its items -/

section Console

variable {s : Scan Console} {item : ScanItem} {rest t : List UInt8}

/-- The text that `getchar` is going to return. -/
def Console.Holds (k : Console) (t : List UInt8) : Prop := k.answers = t.map some ∧ (0 : UInt8) ∉ t

theorem holds_suffix {u : List UInt8} (h : (0 : UInt8) ∉ t) (hu : u <:+ t) (unget : Bool) :
    Console.Holds ⟨unget, u.map some⟩ u :=
  ⟨rfl, fun hmem => h (hu.mem hmem)⟩

/-- Whitespace is gone over before every directive. -/
theorem scanfTurn_directive (letter : UInt8) (rest : List UInt8)
    (hletter : letter ≠ 108 ∧ letter ≠ 104)
    (hformat : s.format.dropWhile isspace = 37 :: letter :: rest)
    (hk : s.input.answers = t.map some) :
    scanfTurn s =
      match skipBlanks t with
      | [] => none
      | c :: u =>
        scanfConv { s with format := letter :: rest, input := ⟨true, (c :: u).map some⟩ } := by
  have length : scanfLength (letter :: rest) = letter :: rest :=
    if_neg fun h => h.elim (fun h => hletter.1 (Option.some.inj h))
      fun h => hletter.2 (Option.some.inj h)
  unfold scanfTurn
  rw [hformat]
  dsimp only
  rw [if_pos rfl, skipSpace, hk, scanfWhile_eq, length]
  unfold skipBlanks
  cases t.dropWhile isspace with
  | nil => rfl
  | cons c u => rfl

theorem scanfConv_number (conv : NumberConv) (s : Scan Console) (rest : List UInt8) (k : Console) :
    scanfConv { s with format := conv.letter :: rest, input := k } =
      (conv.scan k).map { s with format := rest, input := k }.number := by
  cases conv
  all_goals rfl

/-- A word is read until whitespace, which is put back. -/
theorem scanfConv_string (s : Scan Console) (rest : List UInt8) {c : UInt8} {u : List UInt8}
    (hc : isspace c = false) :
    scanfConv { s with format := 115 :: rest, input := ⟨true, (c :: u).map some⟩ } =
      if behindWord (c :: u) = [] then none
      else some (Scan.store { s with format := rest } (.string (wordOf (c :: u)))
        ⟨true, (behindWord (c :: u)).map some⟩) := by
  have again : skipSpace ⟨true, (c :: u).map some⟩ = some (some c, ⟨false, u.map some⟩) := by
    rw [skipSpace, scanfWhile_eq, List.dropWhile_cons_of_neg (Bool.eq_false_iff.mp hc)]
    rfl
  have conv : scanfConv { s with format := 115 :: rest, input := ⟨true, (c :: u).map some⟩ } =
      (skipSpace ⟨true, (c :: u).map some⟩).bind fun r =>
        if r.1 = none then some (Scan.stop { s with format := rest } r.2)
        else
          (scanfWhile (fun c => !isspace c) (fun bytes c => bytes ++ [c]) []
            (r.1 :: r.2.answers)).bind fun r =>
              some (Scan.store { s with format := rest } (.string r.1) (r.2.2.ungetc r.2.1)) := rfl
  rw [conv, again, Option.bind_some, if_neg (Option.some_ne_none c), ← List.map_cons (f := some),
    scanfWhile_eq, foldl_concat, behindWord, wordOf]
  cases (c :: u).dropWhile fun c => !isspace c with
  | nil => rfl
  | cons d v => rfl

/-- What a character is expected to be. -/
theorem took_char {c : UInt8} {turned : Option (Scan Console)} (hzero : (0 : UInt8) ∉ t)
    (hnil : t = [] → turned = none)
    (hcons : ∀ x u, t = x :: u → ∃ s' : Scan Console, s'.stopped = true ∧ s'.result = s.result ∧
      turned = some (if x = c then { s with format := rest, input := ⟨false, u.map some⟩ } else s'))
    (hstopped : s.stopped = false) : Took Console.Holds rest s (readChar c t) turned := by
  cases t with
  | nil =>
    rw [hnil rfl]
    exact .waits
  | cons x u =>
    obtain ⟨s', hover, hresult, hturned⟩ := hcons x u rfl
    rw [hturned, readChar]
    by_cases hx : x = c
    · rw [if_pos hx, if_pos hx]
      exact .passes rfl hstopped (holds_suffix hzero (List.suffix_cons x u) false) rfl
    · rw [if_neg hx, if_neg hx]
      exact .stops hover hresult

/-- A number behind blanks. -/
theorem scanfTurn_number {conv : NumberConv}
    (hformat : s.format.dropWhile isspace = (ScanItem.number conv).text ++ rest)
    (hstopped : s.stopped = false) (hview : s.input.Holds t) :
    Took Console.Holds rest s (readConsole (.number conv) t) (scanfTurn s) := by
  obtain ⟨hk, hzero⟩ := hview
  have blanks : skipBlanks t <:+ t := List.dropWhile_suffix _
  have letter : conv.letter ≠ 108 ∧ conv.letter ≠ 104 := by
    cases conv
    all_goals decide
  rw [scanfTurn_directive conv.letter rest letter hformat hk, readConsole]
  cases hblanks : skipBlanks t with
  | nil =>
    have none : conv.behind [] = [] := List.suffix_nil.mp (conv.behind_suffix [])
    rw [if_pos none]
    exact .waits
  | cons c u =>
    have suffix := (conv.behind_suffix (c :: u)).trans (hblanks ▸ blanks)
    dsimp only
    rw [scanfConv_number, conv.scan_eq rfl]
    by_cases hbehind : conv.behind (c :: u) = []
    · rw [if_pos hbehind, if_pos hbehind]
      exact .waits
    · rw [if_neg hbehind, if_neg hbehind]
      by_cases hbegins : conv.Begins (c :: u)
      · rw [if_pos hbegins, if_pos hbegins]
        exact .stores rfl hstopped (holds_suffix hzero suffix true) rfl
      · rw [if_neg hbegins, if_neg hbegins]
        exact .spoils rfl rfl

theorem scanfTurn_item (hitem : ¬ item.IsBlank)
    (hformat : s.format.dropWhile isspace = item.text ++ rest) (hstopped : s.stopped = false)
    (hview : s.input.Holds t) : Took Console.Holds rest s (readConsole item t) (scanfTurn s) := by
  obtain ⟨hk, hzero⟩ := hview
  have blanks : skipBlanks t <:+ t := List.dropWhile_suffix _
  cases item with
  | blank c space => exact absurd ⟨c, space, rfl⟩ hitem
  | literal c plain =>
    refine took_char hzero ?_ ?_ hstopped
    · rintro rfl
      unfold scanfTurn
      rw [hformat, getchar_nil hk]
      exact if_neg plain.2.1
    · rintro x u rfl
      refine ⟨Scan.stop { s with format := c :: rest }
        (Console.ungetc ⟨false, u.map some⟩ (some x)), rfl, rfl, ?_⟩
      unfold scanfTurn
      rw [hformat, getchar_cons hk]
      exact (if_neg plain.2.1).trans (apply_ite some (x = c) _ _).symm
  | percent =>
    have turn := scanfTurn_directive 37 rest (by decide) hformat hk
    refine took_char (t := skipBlanks t) (fun h => hzero (blanks.mem h)) ?_ ?_ hstopped
    · intro hnil
      rw [turn, hnil]
    · intro x u hcons
      refine ⟨Scan.stop { s with format := rest } (Console.ungetc ⟨false, u.map some⟩ (some x)),
        rfl, rfl, ?_⟩
      rw [turn, hcons]
      by_cases hx : x = 37
      · rw [if_pos hx, hx]
        rfl
      · rw [if_neg hx]
        exact if_neg fun h => hx (Option.some.inj h)
  | number conv => exact scanfTurn_number hformat hstopped ⟨hk, hzero⟩
  | char =>
    rw [scanfTurn_directive 99 rest (by decide) hformat hk, readConsole]
    cases hblanks : skipBlanks t with
    | nil => exact .waits
    | cons c u =>
      have suffix : u <:+ t := (List.suffix_cons c u).trans (hblanks ▸ blanks)
      exact .stores rfl hstopped (holds_suffix hzero suffix false) rfl
  | string =>
    rw [scanfTurn_directive 115 rest (by decide) hformat hk, readConsole]
    cases hblanks : skipBlanks t with
    | nil => exact .waits
    | cons c u =>
      have suffix : behindWord (c :: u) <:+ t := (List.dropWhile_suffix _).trans (hblanks ▸ blanks)
      dsimp only
      rw [scanfConv_string s rest (isspace_skipBlanks hblanks)]
      split
      · exact .waits
      · exact .stores rfl hstopped (holds_suffix hzero suffix true) rfl

/-- Behind the last item, whitespace needs a character to stop at. -/
theorem scanfTurn_last (hformat : s.format.dropWhile isspace = []) (hview : s.input.Holds t)
    (c : UInt8) (space : isspace c = true) :
    Took Console.Holds [] s ((readConsole (.blank c space) t).map fun _ => .stops)
      (scanfTurn s) := by
  obtain ⟨hk, hzero⟩ := hview
  unfold scanfTurn
  rw [hformat]
  cases t with
  | nil =>
    rw [getchar_nil hk]
    exact .waits
  | cons x u =>
    have terminator : ¬ some x = some 0 := fun h =>
      hzero (Option.some.inj h ▸ List.mem_cons_self)
    rw [getchar_cons hk]
    dsimp only [Option.bind_eq_bind, Option.bind_some]
    rw [if_neg terminator]
    exact .stops rfl rfl

theorem scanf_reads : Reads Console.Holds scanfDone scanfTurn readConsole where
  stopped s h := by rw [scanfDone, h, Bool.true_or]
  finished s h := by rw [scanfDone, h, List.isEmpty_nil, Bool.or_true]
  ended s t items hdone hstopped hformat _ := by
    rw [scanfDone, hstopped, Bool.false_or] at hdone
    exact absurd (List.isEmpty_iff.mp hdone) hformat
  blank c space t := by
    cases t with
    | nil =>
      refine .inr fun item => ?_
      cases item with
      | number conv =>
        have none : conv.behind (skipBlanks []) = [] := List.suffix_nil.mp (conv.behind_suffix [])
        exact if_pos none
      | literal => rfl
      | blank => rfl
      | percent => rfl
      | char => rfl
      | string => rfl
    | cons x u => exact .inl rfl
  item _ _ _ _ := scanfTurn_item
  last _ _ c space hformat hview := scanfTurn_last hformat hview c space

end Console

/-! ## `sscanf` reads its items -/

section String

variable {s : Scan (List UInt8)} {item : ScanItem} {rest : List UInt8}

theorem sscanfTurn_directive (letter : UInt8) (rest : List UInt8)
    (hletter : isFormatDigit letter = false)
    (hformat : s.format.dropWhile isspace = 37 :: letter :: rest) :
    sscanfTurn s = sscanfConv 0 { s with format := letter :: rest } := by
  have width : parseDigits 0 (letter :: rest) = (0, letter :: rest) :=
    if_neg (Bool.eq_false_iff.mp hletter)
  unfold sscanfTurn
  rw [hformat]
  dsimp only
  rw [if_pos rfl, width]

theorem sscanfConv_number (conv : NumberConv) (s : Scan (List UInt8)) (rest : List UInt8) :
    sscanfConv 0 { s with format := conv.letter :: rest } =
      Scan.numberIn { s with format := rest } (conv.scanString s.input) := by
  cases conv
  all_goals rfl

theorem sscanfConv_string (s : Scan (List UInt8)) (rest : List UInt8) :
    sscanfConv 0 { s with format := 115 :: rest } =
      if wordOf (skipBlanks s.input) = [] then
        Scan.stop { s with format := rest } (behindWord (skipBlanks s.input))
      else
        Scan.store { s with format := rest } (.string (wordOf (skipBlanks s.input)))
          (behindWord (skipBlanks s.input)) := by
  have conv : sscanfConv 0 { s with format := 115 :: rest } =
      (fun r : ℕ × List UInt8 × List UInt8 =>
        if r.1 = 0 then Scan.stop { s with format := rest } r.2.2
        else Scan.store { s with format := rest } (.string r.2.1) r.2.2)
      (sscanfWhile (fun c => !isspace c) (fun bytes c => bytes ++ [c]) 0 0 []
        (skipBlanks s.input)) := rfl
  rw [conv, sscanfWhile_eq, foldl_concat]
  by_cases hword : wordOf (skipBlanks s.input) = []
  · have chars : 0 + (wordOf (skipBlanks s.input)).length = 0 := by rw [hword, List.length_nil]
    exact (if_pos chars).trans (if_pos hword).symm
  · have chars : 0 + (wordOf (skipBlanks s.input)).length ≠ 0 := by
      rw [Nat.zero_add]
      exact mt List.length_eq_zero_iff.mp hword
    exact (if_neg chars).trans (if_neg hword).symm

theorem sscanfTurn_item (hitem : ¬ item.IsBlank)
    (hformat : s.format.dropWhile isspace = item.text ++ rest) (hstopped : s.stopped = false) :
    Took Eq rest s (readText item s.input) (some (sscanfTurn s)) := by
  cases item with
  | blank c space => exact absurd ⟨c, space, rfl⟩ hitem
  | literal c plain =>
    unfold sscanfTurn
    rw [hformat, readText]
    show Took Eq rest s _ (some (if c = 37 then _ else _))
    rw [if_neg plain.2.1]
    split
    · exact .passes rfl hstopped rfl rfl
    · exact .stops rfl rfl
  | percent =>
    rw [sscanfTurn_directive 37 rest rfl hformat, readText]
    show Took Eq rest s _ (some (if s.input.head? = some 37 then _ else _))
    split
    · exact .passes rfl hstopped rfl rfl
    · exact .stops rfl rfl
  | number conv =>
    have letter : isFormatDigit conv.letter = false := by
      cases conv
      all_goals rfl
    rw [sscanfTurn_directive conv.letter rest letter hformat, sscanfConv_number, conv.scanString_eq,
      readText]
    split
    · exact .stores rfl hstopped rfl rfl
    · exact .stops rfl rfl
  | char =>
    rw [sscanfTurn_directive 99 rest rfl hformat]
    obtain ⟨format, input, count, stored, stopped⟩ := s
    cases input with
    | nil => exact .stops rfl rfl
    | cons c t => exact .stores rfl hstopped rfl rfl
  | string =>
    rw [sscanfTurn_directive 115 rest rfl hformat, readText, sscanfConv_string]
    by_cases hblanks : skipBlanks s.input = []
    · rw [if_pos hblanks, hblanks]
      exact .stops rfl rfl
    · rw [if_neg hblanks, if_neg fun hword => hblanks (wordOf_eq_nil hword)]
      exact .stores rfl hstopped rfl rfl

theorem readText_nil (items : List ScanItem) : readItems readText items [] = some (0, []) := by
  induction items with
  | nil => rfl
  | cons item items ih =>
    cases item with
    | blank c space => exact ih
    | literal => rfl
    | percent => rfl
    | number conv =>
      cases conv
      all_goals rfl
    | char => rfl
    | string => rfl

theorem sscanf_reads : Reads Eq sscanfDone (fun s => some (sscanfTurn s)) readText where
  stopped s h := by rw [sscanfDone, h, Bool.true_or, Bool.true_or]
  finished s h := by rw [sscanfDone, h, List.isEmpty_nil, Bool.or_true, Bool.true_or]
  ended s t items hdone hstopped hformat hview := by
    have format : s.format.isEmpty = false := List.isEmpty_eq_false_iff.mpr hformat
    rw [sscanfDone, hstopped, format, Bool.false_or, Bool.false_or] at hdone
    rw [← hview, List.isEmpty_iff.mp hdone]
    exact readText_nil items
  blank c space t := .inl rfl
  item s t item rest hitem hformat hstopped hview := hview ▸ sscanfTurn_item hitem hformat hstopped
  last s t c space hformat _ := by
    unfold sscanfTurn
    rw [hformat]
    exact .stops rfl rfl

end String

end Unics
