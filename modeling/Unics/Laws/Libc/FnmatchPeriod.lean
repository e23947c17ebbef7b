import Mathlib.Order.CompletePartialOrder
import Unics.Laws.Libc.Fnmatch

/-!
# Leading periods

With `FNM_PERIOD` a `?` or a bracket expression takes no period at the start of the string. `match`
judges the start by the string it was called with, and a star calls it anew: a `?` directly behind a
star takes no period anywhere, and a star itself takes any.
-/

namespace Unics

open Unics.Lib

/-- What an item matches, at the start of a call of `match` or behind it. -/
def GlobItem.guarded (start : Bool) : GlobItem → Language UInt8
  | .any => letters {c | ¬ (c = '.'.toUInt8 ∧ start = true)}
  | .many => anything
  | .bracket negate elements =>
    letters {c | ¬ (c = '.'.toUInt8 ∧ start = true) ∧ elements.any (·.has c) ≠ negate}
  | .char c => letters {c}

/-- The strings that the items match where what stands directly behind a star, and first where
`start` says so, takes a period only as a character. -/
def periodLanguage (start : Bool) : List GlobItem → Language UInt8
  | [] => 1
  | item :: items => item.guarded start * periodLanguage (item = .many) items

/-- A period in front is matched by a period in front. -/
def LeadingPeriod (items : List GlobItem) (string : List UInt8) : Prop :=
  string.head? = some '.'.toUInt8 → items.head? = some (.char '.'.toUInt8)

/-! ## The language of a run -/

section Period

variable {items : List GlobItem} {string : List UInt8} {start : Bool}

theorem reserved_period {before : Option UInt8} {x : UInt8} :
    reserved fnmPeriod before x = false ↔ ¬ (x = '.'.toUInt8 ∧ before.isNone = true) := by
  rw [reserved, decide_eq_false_iff_not, Option.isNone_iff_eq_none]
  refine not_congr ⟨?_, fun h => .inr ⟨by decide, h.1, .inl h.2⟩⟩
  rintro (⟨hpath, -⟩ | ⟨-, hx, hbefore | ⟨hpath, -⟩⟩)
  · exact absurd (by decide) hpath
  · exact ⟨hx, hbefore⟩
  · exact absurd (by decide) hpath

theorem guarded_eq_letters {item : GlobItem} (hitem : item ≠ .many) (before : Option UInt8) :
    item.guarded before.isNone = letters {x | Fnm.Admits fnmPeriod before item x} := by
  cases item with
  | any => exact congrArg letters (Set.ext fun x => reserved_period.symm)
  | many => exact absurd rfl hitem
  | bracket negate es =>
    exact congrArg letters (Set.ext fun x => and_congr_left' reserved_period.symm)
  | char c => rfl

theorem periodLanguage_letter {item : GlobItem} (hitem : item ≠ .many) (before : Option UInt8) :
    periodLanguage before.isNone (item :: items) =
      letters {x | Fnm.Admits fnmPeriod before item x} * periodLanguage false items := by
  rw [periodLanguage, guarded_eq_letters hitem, decide_eq_false hitem]

theorem periodLanguage_many :
    periodLanguage start (.many :: items) = anything * periodLanguage true items := rfl

theorem nil_mem_periodLanguage :
    [] ∈ periodLanguage start items ↔ ∀ item ∈ items, item = .many := by
  induction items generalizing start with
  | nil => exact iff_of_true Language.nil_mem_one (List.forall_mem_nil _)
  | cons item items ih =>
    rw [List.forall_mem_cons]
    by_cases hitem : item = .many
    · subst hitem
      rw [periodLanguage_many, nil_mem_anything_mul, ih]
      exact (and_iff_right rfl).symm
    · refine iff_of_false ?_ fun h => hitem h.1
      rw [periodLanguage]
      cases item with
      | many => exact absurd rfl hitem
      | _ => exact nil_notMem_letters_mul _ _

/-- What the items accept, from the start of a call or behind it. -/
theorem accepts_period_iff {before : Option UInt8} :
    Fnm.Accepts fnmPeriod items before string ↔ string ∈ periodLanguage before.isNone items := by
  induction items generalizing before string with
  | nil => exact Fnm.accepts_nil.trans (Language.mem_one string).symm
  | cons item items ih =>
    by_cases hitem : item = .many
    · subst hitem
      rw [periodLanguage_many]
      by_cases hall : ∀ item ∈ items, item = .many
      · rw [Fnm.accepts_last hall]
        refine iff_of_true (fun h => absurd (by decide) h.1) ?_
        exact mem_anything_mul.mpr ⟨[], List.nil_suffix, nil_mem_periodLanguage.mpr hall⟩
      · rw [Fnm.accepts_many (exists_ne_many hall)]
        simp only [ih]
        exact exists_tried_iff (by decide) fun h => hall (nil_mem_periodLanguage.mp h)
    · rw [periodLanguage_letter hitem]
      cases string with
      | nil => exact iff_of_false (Fnm.not_accepts_letter_nil hitem) (nil_notMem_letters_mul _ _)
      | cons x string =>
        rw [Fnm.accepts_letter hitem, cons_mem_letters_mul, ih]
        rfl

/-! ## The start -/

theorem guarded_le (item : GlobItem) : item.guarded start ≤ item.guarded false := by
  have letters_mono : ∀ {set other : Set UInt8}, set ⊆ other → letters set ≤ letters other := by
    rintro set other hle word ⟨c, hc, rfl⟩
    exact ⟨c, hle hc, rfl⟩
  cases item with
  | any => exact letters_mono fun c _ h => Bool.false_ne_true h.2
  | many => exact le_refl _
  | bracket negate es => exact letters_mono fun c hc => ⟨fun h => Bool.false_ne_true h.2, hc.2⟩
  | char c => exact le_refl _

theorem guarded_false (item : GlobItem) : item.guarded false = item.language := by
  have free : ∀ c : UInt8, ¬ (c = '.'.toUInt8 ∧ false = true) := fun c h => Bool.false_ne_true h.2
  cases item with
  | any => exact congrArg letters (Set.ext fun c => iff_of_true (free c) trivial)
  | many => rfl
  | bracket negate es => exact congrArg letters (Set.ext fun c => and_iff_right (free c))
  | char c => rfl

theorem periodLanguage_le_false : periodLanguage start items ≤ periodLanguage false items := by
  cases items with
  | nil => exact le_refl _
  | cons item items => exact mul_le_mul' (guarded_le item) (le_refl _)

theorem periodLanguage_le_language : periodLanguage start items ≤ language items := by
  induction items generalizing start with
  | nil => exact le_refl _
  | cons item items ih =>
    rw [periodLanguage, language_eq_mul, ← guarded_false]
    exact mul_le_mul' (guarded_le item) ih

/-- At the start of the string, a period is taken by a star or by a period. -/
theorem head_of_mem_periodLanguage (h : string ∈ periodLanguage true items)
    (hperiod : string.head? = some '.'.toUInt8) :
    items.head? = some .many ∨ items.head? = some (.char '.'.toUInt8) := by
  cases string with
  | nil => exact absurd hperiod (Option.some_ne_none _).symm
  | cons x string =>
    obtain rfl := Option.some.inj hperiod
    cases items with
    | nil => exact absurd ((Language.mem_one _).mp h) (List.cons_ne_nil _ _)
    | cons item items =>
      cases item with
      | any => exact absurd ⟨rfl, rfl⟩ (cons_mem_letters_mul.mp h).1
      | many => exact .inl rfl
      | bracket negate es => exact absurd ⟨rfl, rfl⟩ (cons_mem_letters_mul.mp h).1.1
      | char c =>
        obtain rfl := (cons_mem_letters_mul.mp h).1
        exact .inr rfl

/-- Where a star or a period takes it, the start is like any other place. -/
theorem mem_periodLanguage_start (h : string ∈ periodLanguage false items)
    (hhead : string.head? = some '.'.toUInt8 →
      items.head? = some .many ∨ items.head? = some (.char '.'.toUInt8)) :
    string ∈ periodLanguage true items := by
  cases items with
  | nil => exact h
  | cons item items =>
    have no_period : ∀ x rest, string = x :: rest → item ≠ .many → item ≠ .char '.'.toUInt8 →
        ¬ (x = '.'.toUInt8 ∧ true = true) := by
      rintro x rest rfl hmany hchar ⟨rfl, -⟩
      rcases hhead rfl with hfirst | hfirst
      · exact hmany (Option.some.inj hfirst)
      · exact hchar (Option.some.inj hfirst)
    cases item with
    | many => exact h
    | char c => exact h
    | any =>
      cases string with
      | nil => exact absurd h (nil_notMem_letters_mul _ _)
      | cons x string =>
        have free := no_period x string rfl GlobItem.noConfusion GlobItem.noConfusion
        exact cons_mem_letters_mul.mpr ⟨free, (cons_mem_letters_mul.mp h).2⟩
    | bracket negate es =>
      cases string with
      | nil => exact absurd h (nil_notMem_letters_mul _ _)
      | cons x string =>
        have free := no_period x string rfl GlobItem.noConfusion GlobItem.noConfusion
        obtain ⟨hx, hrest⟩ := cons_mem_letters_mul.mp h
        exact cons_mem_letters_mul.mpr ⟨⟨free, hx.2⟩, hrest⟩

end Period

/-! ## The flag -/

/-- `FNM_PERIOD` only makes a leading period be matched by a period exactly where no star in front
lets a leading period in, and no `?` behind a star would have had to take a period. -/
theorem fnmatch_period_iff (pattern string : CString) (items : List GlobItem)
    (h : Plain pattern.bytes items) :
    (fnmatch (some pattern) (some string) fnmPeriod = some 0 ↔
        fnmatch (some pattern) (some string) 0 = some 0 ∧ LeadingPeriod items string.bytes) ↔
      (items.head? = some .many → string.bytes.head? = some '.'.toUInt8 →
        string.bytes ∉ periodLanguage false items) ∧
      (string.bytes ∈ language items → LeadingPeriod items string.bytes →
        string.bytes ∈ periodLanguage false items) := by
  rw [fnmatch_eq_zero_iff h (by decide), fnmatch_zero_eq_zero_iff h, accepts_period_iff]
  constructor
  · intro hsame
    refine ⟨fun hmany hperiod hmem => ?_, fun hlanguage hleading => ?_⟩
    · have accepted := mem_periodLanguage_start hmem fun _ => .inl hmany
      have first := (hsame.mp accepted).2 hperiod
      exact GlobItem.noConfusion (Option.some.inj (hmany.symm.trans first))
    · exact periodLanguage_le_false (hsame.mpr ⟨hlanguage, hleading⟩)
  · rintro ⟨hstar, hbehind⟩
    constructor
    · intro haccepts
      refine ⟨periodLanguage_le_language haccepts, fun hperiod => ?_⟩
      rcases head_of_mem_periodLanguage haccepts hperiod with hmany | hchar
      · exact absurd (periodLanguage_le_false haccepts) (hstar hmany hperiod)
      · exact hchar
    · rintro ⟨hlanguage, hleading⟩
      exact mem_periodLanguage_start (hbehind hlanguage hleading) fun hperiod =>
        .inr (hleading hperiod)

/-- The pattern "*". -/
def star : CString := ⟨[42], by decide⟩

theorem plain_star : Plain star.bytes [.many] := .cons .many not_false .nil

/-- The pattern "*?b". -/
def starAnyPattern : CString := ⟨[42, 63, 98], by decide⟩

theorem plain_starAnyPattern : Plain starAnyPattern.bytes [.many, .any, .char 98] :=
  .cons .many not_false
    (.cons .any not_false
      (.cons (.char (by decide) (by decide) (by decide) (by decide)) not_false .nil))

/-- The pattern "*?b" and the string ".ab". -/
theorem fnmatch_period_iff_star :
    (fnmatch (some starAnyPattern) (some ⟨[46, 97, 98], by decide⟩) fnmPeriod = some 0 ↔
        fnmatch (some starAnyPattern) (some ⟨[46, 97, 98], by decide⟩) 0 = some 0 ∧
          LeadingPeriod [.many, .any, .char 98] [46, 97, 98]) ↔
      ([GlobItem.many, .any, .char 98].head? = some .many →
        ([46, 97, 98] : List UInt8).head? = some '.'.toUInt8 →
        [46, 97, 98] ∉ periodLanguage false [.many, .any, .char 98]) ∧
      ([46, 97, 98] ∈ language [.many, .any, .char 98] →
        LeadingPeriod [.many, .any, .char 98] [46, 97, 98] →
        [46, 97, 98] ∈ periodLanguage false [.many, .any, .char 98]) :=
  fnmatch_period_iff starAnyPattern ⟨[46, 97, 98], by decide⟩ _ plain_starAnyPattern

/-- "*" matches the leading period of ".", and "*?b" does not match "a.b", which has none. -/
theorem fnmatch_period_fails :
    (fnmatch (some star) (some .dot) fnmPeriod = some 0 ∧
      ¬ LeadingPeriod [.many] CString.dot.bytes) ∧
    (fnmatch (some starAnyPattern) (some ⟨[97, 46, 98], by decide⟩) fnmPeriod ≠ some 0 ∧
      fnmatch (some starAnyPattern) (some ⟨[97, 46, 98], by decide⟩) 0 = some 0 ∧
      LeadingPeriod [.many, .any, .char 98] [97, 46, 98]) := by
  refine ⟨⟨?_, ?_⟩, ?_, ?_, ?_⟩
  · rw [fnmatch_eq_zero_iff plain_star (by decide), accepts_period_iff]
    exact mem_anything_mul.mpr ⟨[], List.nil_suffix, Language.nil_mem_one⟩
  · intro h
    exact GlobItem.noConfusion (Option.some.inj (h rfl))
  · rw [Ne, fnmatch_eq_zero_iff plain_starAnyPattern (by decide), accepts_period_iff]
    intro h
    -- the star gives each part of the string to the `?`
    rcases cons_mem_anything_mul.mp h with h | h
    · exact absurd (cons_mem_letters_mul.mp (cons_mem_letters_mul.mp h).2).1 (by decide)
    rcases cons_mem_anything_mul.mp h with h | h
    · exact (cons_mem_letters_mul.mp h).1 ⟨rfl, rfl⟩
    rcases cons_mem_anything_mul.mp h with h | h
    · exact nil_notMem_letters_mul _ _ (cons_mem_letters_mul.mp h).2
    · exact nil_notMem_letters_mul _ _ (nil_mem_anything_mul.mp h)
  · rw [fnmatch_zero_eq_zero_iff plain_starAnyPattern, language_eq_mul]
    refine mem_anything_mul.mpr ⟨[46, 98], ⟨[97], rfl⟩, ?_⟩
    rw [language_eq_mul]
    refine cons_mem_letters_mul.mpr ⟨trivial, ?_⟩
    rw [language_eq_mul]
    exact cons_mem_letters_mul.mpr ⟨rfl, Language.nil_mem_one⟩
  · intro h
    exact absurd (Option.some.inj h) (by decide)

end Unics
