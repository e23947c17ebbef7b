import Unics.Laws.Libc.FnmatchRuns

/-!
# The language of a pattern

`Denotes` reads a pattern item by item, and the items make up a language. `Takes` is how the loop of
`match` reads the same pattern without flags: it leaves out the byte behind each bracket expression,
and one beyond the terminator stops it. `matchLoop` decides the language of what it takes.
-/

namespace Unics

open Unics.Lib

/-! ## Bracket expressions -/

/-- A character, or any one behind a backslash, and what follows. -/
inductive Letter : List UInt8 → UInt8 → List UInt8 → Prop where
  | plain {c : UInt8} {rest : List UInt8} (hslash : c ≠ '\\'.toUInt8) (hclose : c ≠ ']'.toUInt8) :
      Letter (c :: rest) c rest
  | escaped {c : UInt8} {rest : List UInt8} : Letter ('\\'.toUInt8 :: c :: rest) c rest

/-- An element and what follows. A dash makes a range unless the bracket closes behind it. -/
inductive ReadsElement : List UInt8 → Element → List UInt8 → Prop where
  | single {pattern rest : List UInt8} {c : UInt8} (hletter : Letter pattern c rest)
      (hdash : ∀ d behind, rest = '-'.toUInt8 :: d :: behind → d = ']'.toUInt8) :
      ReadsElement pattern (.single c) rest
  | range {pattern behind rest : List UInt8} {low high : UInt8}
      (hlow : Letter pattern low ('-'.toUInt8 :: behind)) (hhigh : Letter behind high rest) :
      ReadsElement pattern (.range low high) rest

inductive ReadsElements : List UInt8 → List Element → BracketEnd → Prop where
  | closed {rest : List UInt8} : ReadsElements (']'.toUInt8 :: rest) [] (.closed rest)
  | unclosed : ReadsElements [] [] .unclosed
  | cut : ReadsElements ['\\'.toUInt8] [] .cut
  | cutRange {pattern : List UInt8} {low : UInt8}
      (hlow : Letter pattern low ['-'.toUInt8, '\\'.toUInt8]) : ReadsElements pattern [] .cut
  | element {pattern rest : List UInt8} {e : Element} {es : List Element} {last : BracketEnd}
      (he : ReadsElement pattern e rest) (hes : ReadsElements rest es last) :
      ReadsElements pattern (e :: es) last

/-- What stands behind a `[`. -/
inductive ReadsBracket : List UInt8 → Bool → List Element → BracketEnd → Prop where
  | negated {mark : UInt8} {pattern : List UInt8} {es : List Element} {last : BracketEnd}
      (hmark : mark = '!'.toUInt8 ∨ mark = '^'.toUInt8) (hes : ReadsElements pattern es last) :
      ReadsBracket (mark :: pattern) true es last
  | plain {pattern : List UInt8} {es : List Element} {last : BracketEnd}
      (hmark : ∀ mark, pattern.head? = some mark → mark ≠ '!'.toUInt8 ∧ mark ≠ '^'.toUInt8)
      (hes : ReadsElements pattern es last) : ReadsBracket pattern false es last

/-! ## Patterns -/

/-- The strings that items match one after the other. -/
def language (items : List GlobItem) : Language UInt8 := (items.map GlobItem.language).prod

/-- An item and what follows. A backslash at the end stands for itself. -/
inductive ReadsItem : List UInt8 → GlobItem → List UInt8 → Prop where
  | any {rest : List UInt8} : ReadsItem ('?'.toUInt8 :: rest) .any rest
  | many {rest : List UInt8} : ReadsItem ('*'.toUInt8 :: rest) .many rest
  | bracket {pattern rest : List UInt8} {negate : Bool} {es : List Element}
      (hes : ReadsBracket pattern negate es (.closed rest)) :
      ReadsItem ('['.toUInt8 :: pattern) (.bracket negate es) rest
  | escaped {c : UInt8} {rest : List UInt8} : ReadsItem ('\\'.toUInt8 :: c :: rest) (.char c) rest
  | slash : ReadsItem ['\\'.toUInt8] (.char '\\'.toUInt8) []
  | char {c : UInt8} {rest : List UInt8} (hany : c ≠ '?'.toUInt8) (hmany : c ≠ '*'.toUInt8)
      (hbracket : c ≠ '['.toUInt8) (hslash : c ≠ '\\'.toUInt8) :
      ReadsItem (c :: rest) (.char c) rest

/-- The items of a pattern. There are none where a bracket expression is not closed. -/
inductive Denotes : List UInt8 → List GlobItem → Prop where
  | nil : Denotes [] []
  | cons {pattern rest : List UInt8} {item : GlobItem} {items : List GlobItem}
      (hitem : ReadsItem pattern item rest) (hitems : Denotes rest items) :
      Denotes pattern (item :: items)

/-- What the loop of `match` takes a pattern for: items, and with `some item` a last one behind
which the loop is beyond the terminator. -/
inductive Takes : List UInt8 → List GlobItem → Option GlobItem → Prop where
  | nil : Takes [] [] none
  | item {pattern rest : List UInt8} {item : GlobItem} {items : List GlobItem}
      {last : Option GlobItem} (hitem : ReadsItem pattern item rest) (hplain : ¬ item.IsBracket)
      (hitems : Takes rest items last) : Takes pattern (item :: items) last
  -- the byte behind the bracket expression is not read
  | bracket {pattern rest : List UInt8} {skipped : UInt8} {negate : Bool} {es : List Element}
      {items : List GlobItem} {last : Option GlobItem}
      (hes : ReadsBracket pattern negate es (.closed (skipped :: rest)))
      (hitems : Takes rest items last) :
      Takes ('['.toUInt8 :: pattern) (.bracket negate es :: items) last
  | beyond {pattern : List UInt8} {negate : Bool} {es : List Element}
      (hes : ReadsBracket pattern negate es (.closed [])) :
      Takes ('['.toUInt8 :: pattern) [] (some (.bracket negate es))
  -- one that is not closed matches any character and is read again behind its bracket
  | unclosed {pattern : List UInt8} {negate : Bool} {es : List Element} {items : List GlobItem}
      {last : Option GlobItem} (hes : ReadsBracket pattern negate es .unclosed)
      (hitems : Takes pattern items last) : Takes ('['.toUInt8 :: pattern) (.any :: items) last
  | cut {pattern : List UInt8} {negate : Bool} {es : List Element}
      (hes : ReadsBracket pattern negate es .cut) :
      Takes ('['.toUInt8 :: pattern) [] (some .any)

/-- The language of the pattern with the byte behind each bracket expression left out. -/
def skippedLanguage (pattern : List UInt8) : Language UInt8 :=
  {string | ∃ items, Takes pattern items none ∧ string ∈ language items}

/-- The strings of which a front leads beyond the terminator of the pattern. -/
def overruns (pattern : List UInt8) : Language UInt8 :=
  {string | ∃ items item, Takes pattern items (some item) ∧
    string ∈ language (items ++ [item]) * anything}

/-! ## Reading with escapes -/

section Escapes

variable {flags : BitVec 32} (hescape : flags &&& fnmNoescape = 0)

include hescape

theorem letter_iff {pattern rest : List UInt8} {c : UInt8} :
    Fnm.Letter flags pattern c rest ↔ Letter pattern c rest := by
  constructor
  · intro h
    cases h with
    | plain hslash hclose => exact .plain (fun hc => hslash ⟨hc, hescape⟩) hclose
    | escaped => exact .escaped
  · intro h
    cases h with
    | plain hslash hclose => exact .plain (fun hc => hslash hc.1) hclose
    | escaped => exact .escaped hescape

theorem readsElement_iff {pattern rest : List UInt8} {e : Element} :
    Fnm.ReadsElement flags pattern e rest ↔ ReadsElement pattern e rest := by
  constructor
  · intro h
    cases h with
    | single hletter hdash => exact .single ((letter_iff hescape).mp hletter) hdash
    | range hlow hhigh =>
      exact .range ((letter_iff hescape).mp hlow) ((letter_iff hescape).mp hhigh)
  · intro h
    cases h with
    | single hletter hdash => exact .single ((letter_iff hescape).mpr hletter) hdash
    | range hlow hhigh =>
      exact .range ((letter_iff hescape).mpr hlow) ((letter_iff hescape).mpr hhigh)

theorem readsElements_iff {pattern : List UInt8} {es : List Element} {last : BracketEnd} :
    Fnm.ReadsElements flags pattern es last ↔ ReadsElements pattern es last := by
  constructor
  · intro h
    induction h with
    | closed => exact .closed
    | unclosed => exact .unclosed
    | cut => exact .cut
    | cutRange _ hlow => exact .cutRange ((letter_iff hescape).mp hlow)
    | element he _ ih => exact .element ((readsElement_iff hescape).mp he) ih
  · intro h
    induction h with
    | closed => exact .closed
    | unclosed => exact .unclosed
    | cut => exact .cut hescape
    | cutRange hlow => exact .cutRange hescape ((letter_iff hescape).mpr hlow)
    | element he _ ih => exact .element ((readsElement_iff hescape).mpr he) ih

theorem readsBracket_iff {pattern : List UInt8} {negate : Bool} {es : List Element}
    {last : BracketEnd} :
    Fnm.ReadsBracket flags pattern negate es last ↔ ReadsBracket pattern negate es last := by
  constructor
  · intro h
    cases h with
    | negated hmark hes => exact .negated hmark ((readsElements_iff hescape).mp hes)
    | plain hmark hes => exact .plain hmark ((readsElements_iff hescape).mp hes)
  · intro h
    cases h with
    | negated hmark hes => exact .negated hmark ((readsElements_iff hescape).mpr hes)
    | plain hmark hes => exact .plain hmark ((readsElements_iff hescape).mpr hes)

theorem readsItem_iff {pattern rest : List UInt8} {item : GlobItem} :
    Fnm.ReadsItem flags pattern item rest ↔ ReadsItem pattern item rest ∧ ¬ item.IsBracket := by
  constructor
  · intro h
    cases h with
    | any => exact ⟨.any, not_false⟩
    | many => exact ⟨.many, not_false⟩
    | escaped => exact ⟨.escaped, not_false⟩
    | @char c _ hany hmany hbracket hslash =>
      refine ⟨?_, not_false⟩
      by_cases hc : c = '\\'.toUInt8
      · obtain rfl := hslash.resolve_left fun h => h ⟨hc, hescape⟩
        rw [hc]
        exact .slash
      · exact .char hany hmany hbracket hc
  · rintro ⟨h, hplain⟩
    cases h with
    | any => exact .any
    | many => exact .many
    | bracket => exact absurd trivial hplain
    | escaped => exact .escaped hescape
    | slash => exact .char (by decide) (by decide) (by decide) (.inr rfl)
    | char hany hmany hbracket hslash =>
      exact .char hany hmany hbracket (.inl fun h => hslash h.1)

theorem takes_iff {pattern : List UInt8} {items : List GlobItem} {last : Option GlobItem} :
    Fnm.Takes flags pattern items last ↔ Takes pattern items last := by
  constructor
  · intro h
    induction h with
    | nil => exact .nil
    | item hitem _ ih =>
      obtain ⟨hread, hplain⟩ := (readsItem_iff hescape).mp hitem
      exact .item hread hplain ih
    | bracket hes _ ih => exact .bracket ((readsBracket_iff hescape).mp hes) ih
    | beyond hes => exact .beyond ((readsBracket_iff hescape).mp hes)
    | unclosed hes _ ih => exact .unclosed ((readsBracket_iff hescape).mp hes) ih
    | cut hes => exact .cut ((readsBracket_iff hescape).mp hes)
  · intro h
    induction h with
    | nil => exact .nil
    | item hitem hplain _ ih => exact .item ((readsItem_iff hescape).mpr ⟨hitem, hplain⟩) ih
    | bracket hes _ ih => exact .bracket ((readsBracket_iff hescape).mpr hes) ih
    | beyond hes => exact .beyond ((readsBracket_iff hescape).mpr hes)
    | unclosed hes _ ih => exact .unclosed ((readsBracket_iff hescape).mpr hes) ih
    | cut hes => exact .cut ((readsBracket_iff hescape).mpr hes)

end Escapes

theorem zero_and_flags (flags : BitVec 32) : 0 &&& flags = 0#32 := BitVec.zero_and

theorem exists_takes (pattern : List UInt8) : ∃ items last, Takes pattern items last := by
  obtain ⟨items, last, h⟩ := Fnm.exists_takes 0 pattern
  exact ⟨items, last, (takes_iff (zero_and_flags _)).mp h⟩

/-! ## What the items accept without flags -/

theorem language_eq_mul (item : GlobItem) (items : List GlobItem) :
    language (item :: items) = item.language * language items := by
  rw [language, List.map_cons, List.prod_cons]
  rfl

theorem language_cons (item : GlobItem) (items : List GlobItem) (l : Language UInt8) :
    language (item :: items) * l = item.language * (language items * l) := by
  rw [language_eq_mul, mul_assoc]

theorem language_nil (l : Language UInt8) : language [] * l = l := one_mul l

theorem language_append (front back : List GlobItem) (l : Language UInt8) :
    language (front ++ back) * l = language front * (language back * l) := by
  rw [language, List.map_append, List.prod_append, mul_assoc]
  rfl

/-- What has to be left of a string that is found behind the items. -/
def foundEnd : Option GlobItem → Language UInt8
  | none => 1
  | some _ => 0

/-- What is left of a string where the pattern is left behind the items. -/
def lostEnd : Option GlobItem → Language UInt8
  | none => 0
  | some item => item.language * anything

theorem reserved_zero (before : Option UInt8) (x : UInt8) : reserved 0 before x = false := by
  refine decide_eq_false ?_
  rintro (h | h)
  · exact h.1 (zero_and_flags _)
  · exact h.1 (zero_and_flags _)

/-- Without flags an item but a star admits the letters of its language. -/
theorem language_eq_letters {item : GlobItem} (hitem : item ≠ .many) (before : Option UInt8) :
    item.language = letters {x | Fnm.Admits 0 before item x} := by
  cases item with
  | any =>
    refine congrArg letters (Set.ext fun x => ?_)
    exact iff_of_true trivial (reserved_zero before x)
  | many => exact absurd rfl hitem
  | bracket negate es =>
    refine congrArg letters (Set.ext fun x => ?_)
    exact (and_iff_right (reserved_zero before x)).symm
  | char c => rfl

/-- Without `FNM_PATHNAME` a star tries every part of the string but its empty end. -/
theorem exists_tried_iff {flags : BitVec 32} (hpath : flags &&& fnmPathname = 0)
    {l : Language UInt8} (hnil : [] ∉ l) {string : List UInt8} :
    (∃ rest, Fnm.Tried flags rest string ∧ rest ∈ l) ↔ string ∈ anything * l := by
  rw [mem_anything_mul]
  constructor
  · rintro ⟨rest, htried, hrest⟩
    exact ⟨rest, htried.suffix, hrest⟩
  · rintro ⟨rest, hsuffix, hrest⟩
    refine ⟨rest, ⟨hsuffix, ?_, .inl hpath⟩, hrest⟩
    rintro rfl
    exact hnil hrest

/-- Only stars match the empty string. -/
theorem nil_mem_language_mul {items : List GlobItem} {l : Language UInt8} :
    [] ∈ language items * l ↔ (∀ item ∈ items, item = .many) ∧ [] ∈ l := by
  induction items with
  | nil =>
    rw [language_nil]
    exact (and_iff_right (List.forall_mem_nil _)).symm
  | cons item items ih =>
    rw [language_cons, List.forall_mem_cons, and_assoc, ← ih]
    by_cases hitem : item = .many
    · subst hitem
      exact nil_mem_anything_mul.trans (and_iff_right rfl).symm
    · rw [language_eq_letters hitem none]
      exact iff_of_false (nil_notMem_letters_mul _ _) fun h => hitem h.1

theorem exists_ne_many {items : List GlobItem} (h : ¬ ∀ item ∈ items, item = .many) :
    ∃ item ∈ items, item ≠ .many := by
  simpa only [not_forall, exists_prop] using h

theorem accepts_zero_iff {items : List GlobItem} {before : Option UInt8} {string : List UInt8} :
    Fnm.Accepts 0 items before string ↔ string ∈ language items * 1 := by
  induction items generalizing before string with
  | nil =>
    rw [Fnm.accepts_nil, language_nil]
    exact (Language.mem_one string).symm
  | cons item items ih =>
    rw [language_cons]
    by_cases hitem : item = .many
    · subst hitem
      by_cases hall : ∀ item ∈ items, item = .many
      · rw [Fnm.accepts_last hall]
        have hnil : [] ∈ language items * 1 := nil_mem_language_mul.mpr ⟨hall, Language.nil_mem_one⟩
        exact iff_of_true (fun h => h.1 (zero_and_flags _))
          (mem_anything_mul.mpr ⟨[], List.nil_suffix, hnil⟩)
      · have hmore := exists_ne_many hall
        rw [Fnm.accepts_many hmore]
        simp only [ih]
        exact exists_tried_iff (zero_and_flags _) fun h => hall (nil_mem_language_mul.mp h).1
    · rw [language_eq_letters hitem before]
      cases string with
      | nil =>
        exact iff_of_false (Fnm.not_accepts_letter_nil hitem) (nil_notMem_letters_mul _ _)
      | cons x string =>
        rw [Fnm.accepts_letter hitem, cons_mem_letters_mul, ih]
        rfl

theorem meets_zero_iff {items : List GlobItem} {item : GlobItem} (hitem : item ≠ .many)
    {before : Option UInt8} {string : List UInt8} :
    Fnm.Meets 0 (items ++ [item]) before string ↔
      string ∈ language items * (item.language * anything) := by
  induction items generalizing before string with
  | nil =>
    rw [language_nil, language_eq_letters hitem before, List.nil_append]
    cases string with
    | nil => exact iff_of_false (Fnm.not_meets_letter_nil hitem) (nil_notMem_letters_mul _ _)
    | cons x string =>
      rw [Fnm.meets_letter hitem, cons_mem_letters_mul]
      exact and_congr_right fun _ => iff_of_true .nil trivial
  | cons first items ih =>
    rw [language_cons, List.cons_append]
    by_cases hfirst : first = .many
    · subst hfirst
      have hnil : [] ∉ language items * (item.language * anything) := by
        intro h
        have here := (nil_mem_language_mul.mp h).2
        rw [language_eq_letters hitem none] at here
        exact nil_notMem_letters_mul _ _ here
      rw [Fnm.meets_many]
      simp only [ih]
      exact exists_tried_iff (zero_and_flags _) hnil
    · rw [language_eq_letters hfirst before]
      cases string with
      | nil => exact iff_of_false (Fnm.not_meets_letter_nil hfirst) (nil_notMem_letters_mul _ _)
      | cons x string =>
        rw [Fnm.meets_letter hfirst, cons_mem_letters_mul, ih]
        rfl

theorem Takes.last_ne_many {pattern : List UInt8} {items : List GlobItem} {item : GlobItem}
    (h : Takes pattern items (some item)) : item ≠ .many := by
  generalize hlast : some item = last at h
  induction h with
  | nil => exact absurd hlast (Option.some_ne_none item)
  | item _ _ _ ih => exact ih hlast
  | bracket _ _ ih => exact ih hlast
  | beyond =>
    cases hlast
    exact GlobItem.noConfusion
  | unclosed _ _ ih => exact ih hlast
  | cut =>
    cases hlast
    exact GlobItem.noConfusion

/-- `match` decides what it takes the pattern for. -/
theorem Takes.outcome {pattern : List UInt8} {items : List GlobItem} {last : Option GlobItem}
    (h : Takes pattern items last) (string : List UInt8) (before : Option UInt8) :
    Outcome (matchLoop 0 pattern string before) (string ∈ language items * foundEnd last)
      (string ∈ language items * lostEnd last) := by
  have general := ((takes_iff (zero_and_flags _)).mpr h).outcome string before
  cases last with
  | none =>
    refine general.congr accepts_zero_iff (iff_of_false not_false ?_)
    rw [lostEnd, mul_zero]
    exact Language.notMem_zero string
  | some item =>
    refine general.congr (iff_of_false not_false ?_) (meets_zero_iff h.last_ne_many)
    rw [foundEnd, mul_zero]
    exact Language.notMem_zero string

/-- `match` finds the strings of the pattern without the bytes it skips. -/
theorem matchLoop_eq_zero_iff (pattern string : List UInt8) (before : Option UInt8) :
    matchLoop 0 pattern string before = some 0 ↔ string ∈ skippedLanguage pattern := by
  constructor
  · intro hr
    obtain ⟨items, last, h⟩ := exists_takes pattern
    have hfound := (h.outcome string before).found.mp hr
    cases last with
    | none => exact ⟨items, h, by simpa only [foundEnd, mul_one] using hfound⟩
    | some item =>
      rw [foundEnd, mul_zero] at hfound
      exact absurd hfound (Language.notMem_zero string)
  · rintro ⟨items, h, hstring⟩
    apply (h.outcome string before).found.mpr
    simpa only [foundEnd, mul_one] using hstring

/-- It reads beyond the terminator on the strings that lead there. -/
theorem matchLoop_eq_none_iff (pattern string : List UInt8) (before : Option UInt8) :
    matchLoop 0 pattern string before = none ↔ string ∈ overruns pattern := by
  have behind : ∀ (items : List GlobItem) (item : GlobItem),
      language (items ++ [item]) * anything = language items * lostEnd (some item) := by
    intro items item
    rw [language_append, language_cons, language_nil]
    rfl
  constructor
  · intro hr
    obtain ⟨items, last, h⟩ := exists_takes pattern
    have hlost := (h.outcome string before).lost.mp hr
    cases last with
    | none =>
      rw [lostEnd, mul_zero] at hlost
      exact absurd hlost (Language.notMem_zero string)
    | some item => exact ⟨items, item, h, by simpa only [behind] using hlost⟩
  · rintro ⟨items, item, h, hstring⟩
    apply (h.outcome string before).lost.mpr
    simpa only [behind] using hstring

/-! ## The language of the pattern -/

/-- `fnmatch` answers, and with zero exactly for a string that the items match. -/
def Decides (pattern string : CString) (items : List GlobItem) : Prop :=
  ∃ r, fnmatch (some pattern) (some string) 0 = some r ∧
    (r = 0 ↔ string.bytes ∈ language items)

/-- A front of the string is matched by the items up to a bracket expression and with it. -/
def MeetsBracket (items : List GlobItem) (string : List UInt8) : Prop :=
  ∃ front negate es back, items = front ++ .bracket negate es :: back ∧
    string ∈ language (front ++ [.bracket negate es]) * anything

theorem decides_iff (pattern string : CString) (items : List GlobItem) :
    Decides pattern string items ↔ string.bytes ∉ overruns pattern.bytes ∧
      (string.bytes ∈ language items ↔ string.bytes ∈ skippedLanguage pattern.bytes) := by
  rw [← matchLoop_eq_none_iff pattern.bytes string.bytes none,
    ← matchLoop_eq_zero_iff pattern.bytes string.bytes none]
  constructor
  · rintro ⟨r, hr, hzero⟩
    have hloop : matchLoop 0 pattern.bytes string.bytes none = some r := hr
    rw [hloop, Option.some_inj]
    exact ⟨Option.some_ne_none r, hzero.symm⟩
  · rintro ⟨hin, hzero⟩
    obtain ⟨r, hr⟩ := Option.ne_none_iff_exists'.mp hin
    rw [hr, Option.some_inj] at hzero
    exact ⟨r, hr, hzero.symm⟩

/-- Up to its first bracket expression, a pattern is taken for what it denotes. -/
theorem Denotes.takes {pattern : List UInt8} {items : List GlobItem} (h : Denotes pattern items) :
    Takes pattern items none ∨ ∃ front negate es back,
      items = front ++ .bracket negate es :: back ∧
        ((∃ more last, Takes pattern (front ++ .bracket negate es :: more) last) ∨
          Takes pattern front (some (.bracket negate es))) := by
  induction h with
  | nil => exact .inl .nil
  | @cons _ rest item items hitem hitems ih =>
    by_cases hbracket : item.IsBracket
    · cases hitem with
      | @bracket pattern _ negate es hes =>
        refine .inr ⟨[], negate, es, items, rfl, ?_⟩
        cases rest with
        | nil => exact .inr (.beyond hes)
        | cons skipped rest =>
          obtain ⟨more, last, htakes⟩ := exists_takes rest
          exact .inl ⟨more, last, .bracket hes htakes⟩
      | _ => exact hbracket.elim
    · rcases ih with htakes | ⟨front, negate, es, back, rfl, htakes⟩
      · exact .inl (.item hitem hbracket htakes)
      · refine .inr ⟨item :: front, negate, es, back, rfl, ?_⟩
        rcases htakes with ⟨more, last, htakes⟩ | htakes
        · exact .inl ⟨more, last, .item hitem hbracket htakes⟩
        · exact .inr (.item hitem hbracket htakes)

/-- Without a bracket expression that matches, the byte behind it does not matter. -/
theorem decides_of_not_meetsBracket {pattern string : CString} {items : List GlobItem}
    (h : Denotes pattern.bytes items) (hfree : ¬ MeetsBracket items string.bytes) :
    Decides pattern string items := by
  rcases h.takes with htakes | ⟨front, negate, es, back, rfl, htakes⟩
  · have here := htakes.outcome string.bytes none
    rw [foundEnd, lostEnd, mul_one, mul_zero] at here
    obtain ⟨r, hr⟩ := Option.ne_none_iff_exists'.mp
      fun hnone => Language.notMem_zero _ (here.lost.mp hnone)
    refine ⟨r, hr, ?_⟩
    rw [← here.found, hr, Option.some_inj]
  · have missed : string.bytes ∉ language (front ++ [.bracket negate es]) * anything :=
      fun hfront => hfree ⟨front, negate, es, back, rfl, hfront⟩
    have split : ∀ (more : List GlobItem) (l : Language UInt8),
        language (front ++ .bracket negate es :: more) * l =
          language (front ++ [.bracket negate es]) * (language more * l) := by
      intro more l
      rw [← language_append, List.append_assoc]
      rfl
    have no_match : ∀ (more : List GlobItem) (l : Language UInt8),
        string.bytes ∉ language (front ++ .bracket negate es :: more) * l := by
      intro more l hmore
      rw [split] at hmore
      exact missed (mem_mul_anything hmore)
    have answer : matchLoop 0 pattern.bytes string.bytes none = some fnmNomatch := by
      rcases htakes with ⟨more, last, htakes⟩ | htakes
      · have here := htakes.outcome string.bytes none
        rcases here.answered with hr | hr | hr
        · exact absurd (here.lost.mp hr) (no_match more _)
        · exact absurd (here.found.mp hr) (no_match more _)
        · exact hr
      · have here := htakes.outcome string.bytes none
        rcases here.answered with hr | hr | hr
        · refine absurd (here.lost.mp hr) fun hlost => missed ?_
          rw [language_append, language_cons, language_nil]
          exact hlost
        · refine absurd (here.found.mp hr) ?_
          rw [foundEnd, mul_zero]
          exact Language.notMem_zero _
        · exact hr
    refine ⟨fnmNomatch, answer, iff_of_false (by decide) fun hmem => ?_⟩
    apply no_match back 1
    simpa only [mul_one] using hmem

/-- `fnmatch` decides the language of a pattern for a string exactly where the bytes that it skips
make no difference for the string and do not lead beyond the terminator. In particular it does so
where no bracket expression matches. -/
theorem fnmatch_decides_iff (pattern string : CString) (items : List GlobItem)
    (h : Denotes pattern.bytes items) :
    (Decides pattern string items ↔ string.bytes ∉ overruns pattern.bytes ∧
      (string.bytes ∈ language items ↔ string.bytes ∈ skippedLanguage pattern.bytes)) ∧
      (¬ MeetsBracket items string.bytes → Decides pattern string items) :=
  ⟨decides_iff pattern string items, decides_of_not_meetsBracket h⟩

/-- The pattern "[a]b". -/
def bracketPattern : CString := ⟨[91, 97, 93, 98], by decide⟩

theorem readsBracket_bracketPattern :
    ReadsBracket [97, 93, 98] false [.single 97] (.closed [98]) := by
  have letter : Letter [97, 93, 98] 97 [93, 98] := .plain (by decide) (by decide)
  refine .plain ?_ (.element (.single letter ?_) .closed)
  · intro mark h
    obtain rfl := Option.some.inj h
    exact ⟨by decide, by decide⟩
  · intro d behind h
    exact absurd (List.cons.inj h).1 (by decide)

theorem denotes_bracketPattern :
    Denotes bracketPattern.bytes [.bracket false [.single 97], .char 98] :=
  .cons (.bracket readsBracket_bracketPattern)
    (.cons (.char (by decide) (by decide) (by decide) (by decide)) .nil)

/-- The pattern "[a]b" and the string "b". -/
theorem fnmatch_decides_iff_char :
    (Decides bracketPattern (.char 98) [.bracket false [.single 97], .char 98] ↔
      (CString.char 98).bytes ∉ overruns bracketPattern.bytes ∧
        ((CString.char 98).bytes ∈ language [.bracket false [.single 97], .char 98] ↔
          (CString.char 98).bytes ∈ skippedLanguage bracketPattern.bytes)) ∧
      (¬ MeetsBracket [.bracket false [.single 97], .char 98] (CString.char 98).bytes →
        Decides bracketPattern (.char 98) [.bracket false [.single 97], .char 98]) :=
  fnmatch_decides_iff bracketPattern (.char 98) _ denotes_bracketPattern

/-- "[a]b" denotes the string "ab", and `fnmatch` does not match it. -/
theorem fnmatch_bracketPattern :
    Denotes bracketPattern.bytes [.bracket false [.single 97], .char 98] ∧
      [97, 98] ∈ language [.bracket false [.single 97], .char 98] ∧
      fnmatch (some bracketPattern) (some ⟨[97, 98], by decide⟩) 0 = some fnmNomatch := by
  refine ⟨denotes_bracketPattern, ?_, ?_⟩
  · refine cons_mem_letters_mul.mpr ⟨by decide, ?_⟩
    exact cons_mem_letters_mul.mpr ⟨rfl, Language.nil_mem_one⟩
  · have read := (readsBracket_iff (zero_and_flags _)).mpr readsBracket_bracketPattern
    have turn : matchLoop 0 bracketPattern.bytes [97, 98] none = matchLoop 0 [] [98] (some 97) :=
      Fnm.matchLoop_bracket_in (reserved_zero none 97)
        (Fnm.rangematch_eq read 97) (by decide : (1 : Int) ≠ 0)
    refine turn.trans ?_
    rw [matchLoop, if_neg (List.cons_ne_nil _ _)]

/-! ## Patterns without brackets -/

/-- A pattern without bracket expressions, and its items. -/
structure Plain (pattern : List UInt8) (items : List GlobItem) : Prop where
  denotes : Denotes pattern items
  noBracket : ∀ item ∈ items, ¬ item.IsBracket

theorem Denotes.of_nil {items : List GlobItem} (h : Denotes [] items) : items = [] := by
  cases h with
  | nil => rfl
  | cons hitem => cases hitem

theorem Plain.nil : Plain [] [] := ⟨.nil, List.forall_mem_nil _⟩

theorem Plain.cons {pattern rest : List UInt8} {item : GlobItem} {items : List GlobItem}
    (hitem : ReadsItem pattern item rest) (hplain : ¬ item.IsBracket) (h : Plain rest items) :
    Plain pattern (item :: items) :=
  ⟨.cons hitem h.denotes, List.forall_mem_cons.mpr ⟨hplain, h.noBracket⟩⟩

/-- A pattern in which there is no bracket at all is one. -/
theorem exists_plain {pattern : List UInt8} (hfree : '['.toUInt8 ∉ pattern) :
    ∃ items, Plain pattern items := by
  obtain ⟨items, last, h⟩ := exists_takes pattern
  refine ⟨items, ?_⟩
  have bracket : ∀ rest : List UInt8, '['.toUInt8 ∈ '['.toUInt8 :: rest :=
    fun _ => List.mem_cons_self
  induction h with
  | nil => exact .nil
  | item hitem hplain _ ih =>
    refine .cons hitem hplain (ih fun h => hfree ?_)
    cases hitem with
    | bracket => exact bracket _
    | escaped => exact List.mem_cons_of_mem _ (List.mem_cons_of_mem _ h)
    | slash => exact absurd h List.not_mem_nil
    | _ => exact List.mem_cons_of_mem _ h
  | _ => exact absurd (bracket _) hfree

theorem Plain.takes {pattern : List UInt8} {items : List GlobItem} (h : Plain pattern items) :
    Takes pattern items none := by
  obtain ⟨hdenotes, hplain⟩ := h
  induction hdenotes with
  | nil => exact .nil
  | cons hitem _ ih =>
    obtain ⟨hfirst, hrest⟩ := List.forall_mem_cons.mp hplain
    exact .item hitem hfirst (ih hrest)

section PlainMatch

variable {pattern string : CString} {items : List GlobItem} (h : Plain pattern.bytes items)

include h

theorem fnmatch_eq_zero_iff {flags : BitVec 32} (hescape : flags &&& fnmNoescape = 0) :
    fnmatch (some pattern) (some string) flags = some 0 ↔
      Fnm.Accepts flags items none string.bytes :=
  (((takes_iff hescape).mpr h.takes).outcome string.bytes none).found

theorem fnmatch_zero_eq_zero_iff :
    fnmatch (some pattern) (some string) 0 = some 0 ↔ string.bytes ∈ language items := by
  rw [fnmatch_eq_zero_iff h (zero_and_flags _), accepts_zero_iff, mul_one]

end PlainMatch

end Unics
