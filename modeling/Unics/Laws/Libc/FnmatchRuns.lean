import Unics.Laws.Libc.Patterns

/-!
# Runs of `match` under any flags

What a star tries, what the items of a pattern accept, and where a run gets beyond the terminator of
the pattern. `match` stays inside its pattern exactly where no front of the string is taken by the
items up to a bracket expression that leads out.
-/

namespace Unics

/-- What a search answers: whether it has found the string, has left the pattern, or neither. -/
structure Outcome (r : Option Int) (found lost : Prop) : Prop where
  found : r = some 0 ↔ found
  lost : r = none ↔ lost
  answered : r = none ∨ r = some 0 ∨ r = some fnmNomatch

theorem Outcome.nomatch {found lost : Prop} (hfound : ¬ found) (hlost : ¬ lost) :
    Outcome (some fnmNomatch) found lost :=
  ⟨iff_of_false (by decide) hfound, iff_of_false (Option.some_ne_none _) hlost, .inr (.inr rfl)⟩

theorem Outcome.zero {found lost : Prop} (hfound : found) (hlost : ¬ lost) :
    Outcome (some 0) found lost :=
  ⟨iff_of_true rfl hfound, iff_of_false (Option.some_ne_none _) hlost, .inr (.inl rfl)⟩

theorem Outcome.none {found lost : Prop} (hfound : ¬ found) (hlost : lost) :
    Outcome none found lost :=
  ⟨iff_of_false (Option.some_ne_none _).symm hfound, iff_of_true rfl hlost, .inl rfl⟩

theorem Outcome.congr {r : Option Int} {found found' lost lost' : Prop} (h : Outcome r found lost)
    (hfound : found ↔ found') (hlost : lost ↔ lost') : Outcome r found' lost' :=
  ⟨h.found.trans hfound, h.lost.trans hlost, h.answered⟩


namespace Fnm

/-- An item other than a star matches the byte. What the flags reserve is left to characters. -/
def Admits (flags : BitVec 32) (before : Option UInt8) : GlobItem → UInt8 → Prop
  | .any, x => reserved flags before x = false
  | .many, _ => False
  | .bracket negate es, x => reserved flags before x = false ∧ es.any (·.has x) ≠ negate
  | .char c, x => x = c

/-- What the loop of a star tries of a string: never the empty end of it, and with `FNM_PATHNAME`
no part that begins with a slash. -/
structure Tried (flags : BitVec 32) (rest string : List UInt8) : Prop where
  suffix : rest <:+ string
  nonempty : rest ≠ []
  inside : flags &&& fnmPathname = 0 ∨ rest.head? ≠ some '/'.toUInt8

/-- A front of the string is taken by the items, behind a byte of the string that the call has seen
or at its start. -/
inductive Meets (flags : BitVec 32) : List GlobItem → Option UInt8 → List UInt8 → Prop where
  | nil {before : Option UInt8} {string : List UInt8} : Meets flags [] before string
  | letter {item : GlobItem} {items : List GlobItem} {before : Option UInt8} {x : UInt8}
      {string : List UInt8} (hx : Admits flags before item x)
      (hrest : Meets flags items (some x) string) : Meets flags (item :: items) before (x :: string)
  | many {items : List GlobItem} {before : Option UInt8} {rest string : List UInt8}
      (htried : Tried flags rest string) (hrest : Meets flags items none rest) :
      Meets flags (.many :: items) before string

/-- The string is taken by the items. The stars at the end take all that is left but, with
`FNM_PATHNAME`, no slash. -/
inductive Accepts (flags : BitVec 32) : List GlobItem → Option UInt8 → List UInt8 → Prop where
  | nil {before : Option UInt8} : Accepts flags [] before []
  | letter {item : GlobItem} {items : List GlobItem} {before : Option UInt8} {x : UInt8}
      {string : List UInt8} (hx : Admits flags before item x)
      (hrest : Accepts flags items (some x) string) :
      Accepts flags (item :: items) before (x :: string)
  | many {items : List GlobItem} {before : Option UInt8} {rest string : List UInt8}
      (hmore : ∃ item ∈ items, item ≠ .many) (htried : Tried flags rest string)
      (hrest : Accepts flags items none rest) : Accepts flags (.many :: items) before string
  | last {items : List GlobItem} {before : Option UInt8} {string : List UInt8}
      (hall : ∀ item ∈ items, item = .many)
      (hslash : ¬ (flags &&& fnmPathname ≠ 0 ∧ '/'.toUInt8 ∈ string)) :
      Accepts flags (.many :: items) before string

/-- The string is found by a pattern that is taken for the items with `last`. -/
def Found (flags : BitVec 32) (items : List GlobItem) (before : Option UInt8)
    (string : List UInt8) : Option GlobItem → Prop
  | none => Accepts flags items before string
  | some _ => False

/-- The pattern is left behind `last`. -/
def Lost (flags : BitVec 32) (items : List GlobItem) (before : Option UInt8)
    (string : List UInt8) : Option GlobItem → Prop
  | none => False
  | some item => Meets flags (items ++ [item]) before string

section Items

variable {flags : BitVec 32} {items : List GlobItem} {before : Option UInt8}

theorem accepts_nil {string : List UInt8} : Accepts flags [] before string ↔ string = [] := by
  constructor
  · intro h
    cases h
    rfl
  · rintro rfl
    exact .nil

theorem accepts_letter {item : GlobItem} (hitem : item ≠ .many) {x : UInt8}
    {string : List UInt8} : Accepts flags (item :: items) before (x :: string) ↔
      Admits flags before item x ∧ Accepts flags items (some x) string := by
  constructor
  · intro h
    cases h with
    | letter hx hrest => exact ⟨hx, hrest⟩
    | many => exact absurd rfl hitem
    | last => exact absurd rfl hitem
  · rintro ⟨hx, hrest⟩
    exact .letter hx hrest

theorem not_accepts_letter_nil {item : GlobItem} (hitem : item ≠ .many) :
    ¬ Accepts flags (item :: items) before [] := by
  intro h
  cases h with
  | many => exact hitem rfl
  | last => exact hitem rfl

theorem accepts_many (hmore : ∃ item ∈ items, item ≠ .many) {string : List UInt8} :
    Accepts flags (.many :: items) before string ↔
      ∃ rest, Tried flags rest string ∧ Accepts flags items none rest := by
  constructor
  · intro h
    cases h with
    | letter hx => exact hx.elim
    | many _ htried hrest => exact ⟨_, htried, hrest⟩
    | last hall =>
      obtain ⟨item, hitem, hne⟩ := hmore
      exact absurd (hall item hitem) hne
  · rintro ⟨rest, htried, hrest⟩
    exact .many hmore htried hrest

theorem accepts_last (hall : ∀ item ∈ items, item = .many) {string : List UInt8} :
    Accepts flags (.many :: items) before string ↔
      ¬ (flags &&& fnmPathname ≠ 0 ∧ '/'.toUInt8 ∈ string) := by
  constructor
  · intro h
    cases h with
    | letter hx => exact hx.elim
    | many hmore =>
      obtain ⟨item, hitem, hne⟩ := hmore
      exact absurd (hall item hitem) hne
    | last _ hslash => exact hslash
  · exact .last hall

theorem meets_letter {item : GlobItem} (hitem : item ≠ .many) {x : UInt8} {string : List UInt8} :
    Meets flags (item :: items) before (x :: string) ↔
      Admits flags before item x ∧ Meets flags items (some x) string := by
  constructor
  · intro h
    cases h with
    | letter hx hrest => exact ⟨hx, hrest⟩
    | many => exact absurd rfl hitem
  · rintro ⟨hx, hrest⟩
    exact .letter hx hrest

theorem not_meets_letter_nil {item : GlobItem} (hitem : item ≠ .many) :
    ¬ Meets flags (item :: items) before [] := by
  intro h
  cases h
  exact hitem rfl

theorem meets_many {string : List UInt8} : Meets flags (.many :: items) before string ↔
    ∃ rest, Tried flags rest string ∧ Meets flags items none rest := by
  constructor
  · intro h
    cases h with
    | letter hx => exact hx.elim
    | many htried hrest => exact ⟨_, htried, hrest⟩
  · rintro ⟨rest, htried, hrest⟩
    exact .many htried hrest

variable {last : Option GlobItem}

theorem found_letter {item : GlobItem} (hitem : item ≠ .many) {x : UInt8} {string : List UInt8} :
    Found flags (item :: items) before (x :: string) last ↔
      Admits flags before item x ∧ Found flags items (some x) string last := by
  cases last with
  | none => exact accepts_letter hitem
  | some _ => exact iff_of_false not_false fun h => h.2

theorem lost_letter {item : GlobItem} (hitem : item ≠ .many) {x : UInt8} {string : List UInt8} :
    Lost flags (item :: items) before (x :: string) last ↔
      Admits flags before item x ∧ Lost flags items (some x) string last := by
  cases last with
  | none => exact iff_of_false not_false fun h => h.2
  | some _ => exact meets_letter hitem

theorem found_many (hmore : last = none → ∃ item ∈ items, item ≠ .many) {string : List UInt8} :
    Found flags (.many :: items) before string last ↔
      ∃ rest, Tried flags rest string ∧ Found flags items none rest last := by
  cases last with
  | none => exact accepts_many (hmore rfl)
  | some _ => exact iff_of_false not_false fun ⟨_, _, h⟩ => h

theorem lost_many {string : List UInt8} : Lost flags (.many :: items) before string last ↔
    ∃ rest, Tried flags rest string ∧ Lost flags items none rest last := by
  cases last with
  | none => exact iff_of_false not_false fun ⟨_, _, h⟩ => h
  | some _ => exact meets_many

end Items

/-! ## Stars -/

section Stars

variable {flags : BitVec 32}

theorem Tried.trans {rest middle string : List UInt8} (h : Tried flags rest middle)
    (hmiddle : Tried flags middle string) : Tried flags rest string :=
  ⟨h.suffix.trans hmiddle.suffix, h.nonempty, h.inside⟩

/-- Trying twice is trying once. -/
theorem tried_tried {p : List UInt8 → Prop} {string : List UInt8} :
    (∃ middle, Tried flags middle string ∧ ∃ rest, Tried flags rest middle ∧ p rest) ↔
      ∃ rest, Tried flags rest string ∧ p rest := by
  constructor
  · rintro ⟨middle, hmiddle, rest, hrest, hp⟩
    exact ⟨rest, hrest.trans hmiddle, hp⟩
  · rintro ⟨rest, hrest, hp⟩
    exact ⟨rest, hrest, rest, ⟨List.suffix_refl rest, hrest.nonempty, hrest.inside⟩, hp⟩

theorem not_tried_nil {p : List UInt8 → Prop} : ¬ ∃ rest, Tried flags rest [] ∧ p rest := by
  rintro ⟨rest, hrest, -⟩
  exact hrest.nonempty (List.suffix_nil.mp hrest.suffix)

theorem tried_cons {p : List UInt8 → Prop} {c : UInt8} {string : List UInt8} :
    (∃ rest, Tried flags rest (c :: string) ∧ p rest) ↔
      ((flags &&& fnmPathname = 0 ∨ c ≠ '/'.toUInt8) ∧ p (c :: string)) ∨
        ∃ rest, Tried flags rest string ∧ p rest := by
  constructor
  · rintro ⟨rest, hrest, hp⟩
    rcases List.suffix_cons_iff.mp hrest.suffix with rfl | hmore
    · refine .inl ⟨hrest.inside.imp_right ?_, hp⟩
      rintro hhead rfl
      exact hhead rfl
    · exact .inr ⟨rest, ⟨hmore, hrest.nonempty, hrest.inside⟩, hp⟩
  · rintro (⟨hinside, hp⟩ | ⟨rest, hrest, hp⟩)
    · refine ⟨c :: string, ⟨List.suffix_refl _, List.cons_ne_nil _ _, ?_⟩, hp⟩
      exact hinside.imp_right fun hc hhead => hc (Option.some.inj hhead)
    · have longer := hrest.suffix.trans (List.suffix_cons c string)
      exact ⟨rest, ⟨longer, hrest.nonempty, hrest.inside⟩, hp⟩

variable {search : List UInt8 → Option Int} {found lost : List UInt8 → Prop}

/-- The loop of a star finds what one of its tries finds. -/
theorem starLoop_outcome (hsearch : ∀ string, Outcome (search string) (found string) (lost string))
    (hone : ∀ string other, found string → ¬ lost other) (string : List UInt8) :
    Outcome (starLoop flags search string) (∃ rest, Tried flags rest string ∧ found rest)
      (∃ rest, Tried flags rest string ∧ lost rest) := by
  induction string with
  | nil => exact .nomatch not_tried_nil not_tried_nil
  | cons c string ih =>
    rw [starLoop]
    split
    · next hinside =>
      have here := hsearch (c :: string)
      rcases here.answered with hr | hr | hr
      · have hlost : lost (c :: string) := here.lost.mp hr
        rw [hr]
        refine .none ?_ (tried_cons.mpr (.inl ⟨hinside, hlost⟩))
        rintro ⟨rest, -, hfound⟩
        exact hone rest _ hfound hlost
      · have hfound : found (c :: string) := here.found.mp hr
        rw [hr]
        refine .zero (tried_cons.mpr (.inl ⟨hinside, hfound⟩)) ?_
        rintro ⟨rest, -, hlost⟩
        exact hone _ rest hfound hlost
      · have not_found : ¬ found (c :: string) := fun h =>
          absurd (hr.symm.trans (here.found.mpr h)) (by decide)
        have not_lost : ¬ lost (c :: string) := fun h =>
          absurd (hr.symm.trans (here.lost.mpr h)) (Option.some_ne_none _)
        rw [hr]
        refine ih.congr ?_ ?_
        · exact (tried_cons.trans (or_iff_right fun h => not_found h.2)).symm
        · exact (tried_cons.trans (or_iff_right fun h => not_lost h.2)).symm
    · next hinside =>
      refine ih.congr ?_ ?_
      · exact (tried_cons.trans (or_iff_right fun h => hinside h.1)).symm
      · exact (tried_cons.trans (or_iff_right fun h => hinside h.1)).symm

end Stars

/-! ## One turn of `match` -/

theorem dropStars_star (pattern : List UInt8) :
    ('*'.toUInt8 :: pattern).dropWhile (· = '*'.toUInt8) = pattern.dropWhile (· = '*'.toUInt8) :=
  List.dropWhile_cons_of_pos (decide_eq_true rfl)

theorem dropStars_of_ne {c : UInt8} (hc : c ≠ '*'.toUInt8) (pattern : List UInt8) :
    (c :: pattern).dropWhile (· = '*'.toUInt8) = c :: pattern :=
  List.dropWhile_cons_of_neg fun h => hc (of_decide_eq_true h)

section Turn

variable {flags : BitVec 32} {pattern string : List UInt8} {before : Option UInt8}

theorem matchLoop_empty {c : UInt8} (hc : c ≠ '*'.toUInt8) :
    matchLoop flags (c :: pattern) [] before = some fnmNomatch := by
  rw [matchLoop, if_neg hc]
  split
  · rfl
  · split
    · rfl
    · rfl

theorem matchLoop_any (x : UInt8) :
    matchLoop flags ('?'.toUInt8 :: pattern) (x :: string) before =
      if reserved flags before x then some fnmNomatch
      else matchLoop flags pattern string (some x) := by
  rw [matchLoop, if_pos rfl]

theorem matchLoop_many : matchLoop flags ('*'.toUInt8 :: pattern) string before =
    if pattern.dropWhile (· = '*'.toUInt8) = [] then
      some (if flags &&& fnmPathname ≠ 0 ∧ '/'.toUInt8 ∈ string then fnmNomatch else 0)
    else
      starLoop flags
        (fun string => matchLoop flags (pattern.dropWhile (· = '*'.toUInt8)) string none)
        string := by
  cases string with
  | nil => rw [matchLoop, if_neg (by decide), if_pos rfl]
  | cons x string => rw [matchLoop, if_neg (by decide), if_pos rfl]

theorem matchLoop_star_end (hstars : pattern.dropWhile (· = '*'.toUInt8) = []) :
    matchLoop flags ('*'.toUInt8 :: pattern) string before =
      some (if flags &&& fnmPathname ≠ 0 ∧ '/'.toUInt8 ∈ string then fnmNomatch else 0) :=
  matchLoop_many.trans (if_pos hstars)

theorem matchLoop_star_star :
    matchLoop flags ('*'.toUInt8 :: '*'.toUInt8 :: pattern) string before =
      matchLoop flags ('*'.toUInt8 :: pattern) string before := by
  rw [matchLoop_many, matchLoop_many, dropStars_star]

theorem matchLoop_star {c : UInt8} (hc : c ≠ '*'.toUInt8) :
    matchLoop flags ('*'.toUInt8 :: c :: pattern) string before =
      starLoop flags (fun string => matchLoop flags (c :: pattern) string none) string := by
  rw [matchLoop_many, dropStars_of_ne hc]
  exact if_neg (List.cons_ne_nil c pattern)

theorem matchLoop_literal {c : UInt8} (hany : c ≠ '?'.toUInt8) (hmany : c ≠ '*'.toUInt8)
    (hbracket : c ≠ '['.toUInt8) (x : UInt8) :
    matchLoop flags (c :: pattern) (x :: string) before =
      if x ≠ (literal flags c pattern).1 then some fnmNomatch
      else matchLoop flags (literal flags c pattern).2 string (some x) := by
  rw [matchLoop, if_neg hany, if_neg hmany, if_neg hbracket]

/-- One byte is skipped behind what `rangematch` has read, and the rest is read on. -/
theorem matchLoop_bracket (x : UInt8) :
    matchLoop flags ('['.toUInt8 :: pattern) (x :: string) before =
      if reserved flags before x then some fnmNomatch
      else (rangematch pattern x flags).bind fun answer =>
        if answer.1 = 0 then some fnmNomatch
        else (answer.2.getD ('['.toUInt8 :: pattern)).tail?.bind
          fun rest => matchLoop flags rest string (some x) := by
  rw [matchLoop, if_neg (by decide), if_neg (by decide), if_pos rfl]
  congr 1
  split
  · next h => rw [h, Option.bind_none]
  · next h =>
    rw [h, Option.bind_some]
    split
    · rfl
    · split
      · next hp => rw [hp, List.tail?_nil, Option.bind_none]
      · next hp => rw [hp, List.tail?_cons, Option.bind_some]

theorem matchLoop_reserved {x : UInt8} (hreserved : reserved flags before x = true) :
    matchLoop flags ('['.toUInt8 :: pattern) (x :: string) before = some fnmNomatch := by
  rw [matchLoop_bracket]
  exact if_pos hreserved

/-- What follows where `rangematch` has matched the byte. -/
theorem matchLoop_bracket_in {x : UInt8} (hreserved : reserved flags before x = false)
    {result : Int} {newp : Option (List UInt8)}
    (h : rangematch pattern x flags = some (result, newp)) (hresult : result ≠ 0) :
    matchLoop flags ('['.toUInt8 :: pattern) (x :: string) before =
      (newp.getD ('['.toUInt8 :: pattern)).tail?.bind
        fun rest => matchLoop flags rest string (some x) := by
  have free : ¬ reserved flags before x = true := Bool.eq_false_iff.mp hreserved
  rw [matchLoop_bracket, if_neg free, h, Option.bind_some, if_neg hresult]

theorem matchLoop_bracket_out {x : UInt8} {newp : Option (List UInt8)}
    (h : rangematch pattern x flags = some (0, newp)) :
    matchLoop flags ('['.toUInt8 :: pattern) (x :: string) before = some fnmNomatch := by
  rw [matchLoop_bracket, h, Option.bind_some, if_pos rfl, ite_self]

theorem matchLoop_bracket_cut {x : UInt8} (hreserved : reserved flags before x = false)
    (h : rangematch pattern x flags = none) :
    matchLoop flags ('['.toUInt8 :: pattern) (x :: string) before = none := by
  have free : ¬ reserved flags before x = true := Bool.eq_false_iff.mp hreserved
  rw [matchLoop_bracket, if_neg free, h, Option.bind_none]

end Turn

/-! ## Whole patterns -/

section Takes

variable {flags : BitVec 32} {pattern rest : List UInt8} {items : List GlobItem}
  {last : Option GlobItem}

theorem Takes.of_nil (h : Takes flags pattern items last) (hp : pattern = []) :
    items = [] ∧ last = none := by
  cases h with
  | nil => exact ⟨rfl, rfl⟩
  | item hitem hitems =>
    cases hitem
    all_goals exact absurd hp (List.cons_ne_nil _ _)
  | _ => exact absurd hp (List.cons_ne_nil _ _)

/-- Only a star is taken for one. -/
theorem ReadsItem.of_many (h : ReadsItem flags pattern .many rest) :
    pattern = '*'.toUInt8 :: rest := by
  cases h
  rfl

theorem ReadsItem.of_star {item : GlobItem}
    (h : ReadsItem flags ('*'.toUInt8 :: pattern) item rest) : item = .many ∧ rest = pattern := by
  generalize hp : '*'.toUInt8 :: pattern = whole at h
  cases h with
  | many => exact ⟨rfl, (List.cons.inj hp).2.symm⟩
  | char _ hmany => exact absurd (List.cons.inj hp).1.symm hmany
  | _ => exact absurd (List.cons.inj hp).1 (by decide)

theorem Takes.of_star (h : Takes flags pattern items last) (hp : pattern = '*'.toUInt8 :: rest) :
    ∃ more, items = .many :: more ∧ Takes flags rest more last := by
  cases h with
  | nil => exact absurd hp.symm (List.cons_ne_nil _ _)
  | item hitem hitems =>
    subst hp
    obtain ⟨rfl, rfl⟩ := hitem.of_star
    exact ⟨_, rfl, hitems⟩
  | _ => exact absurd (List.cons.inj hp).1 (by decide)

/-- A pattern of nothing but stars. -/
theorem Takes.of_stars (h : Takes flags pattern items last)
    (hstars : pattern.dropWhile (· = '*'.toUInt8) = []) :
    last = none ∧ ∀ item ∈ items, item = .many := by
  induction pattern generalizing items with
  | nil =>
    obtain ⟨rfl, rfl⟩ := h.of_nil rfl
    exact ⟨rfl, List.forall_mem_nil _⟩
  | cons c pattern ih =>
    by_cases hc : c = '*'.toUInt8
    · subst hc
      obtain ⟨more, rfl, hmore⟩ := h.of_star rfl
      rw [dropStars_star] at hstars
      obtain ⟨hlast, hall⟩ := ih hmore hstars
      exact ⟨hlast, List.forall_mem_cons.mpr ⟨rfl, hall⟩⟩
    · rw [dropStars_of_ne hc] at hstars
      exact absurd hstars (List.cons_ne_nil c pattern)

theorem Takes.exists_ne_many (h : Takes flags pattern items none)
    (hstars : pattern.dropWhile (· = '*'.toUInt8) ≠ []) : ∃ item ∈ items, item ≠ .many := by
  generalize hlast : (none : Option GlobItem) = last at h
  induction h with
  | nil => exact absurd List.dropWhile_nil hstars
  | @item pattern rest item items last hitem hitems ih =>
    by_cases hmany : item = .many
    · subst hmany
      rw [hitem.of_many, dropStars_star] at hstars
      obtain ⟨other, hother, hne⟩ := ih hstars hlast
      exact ⟨other, List.mem_cons_of_mem _ hother, hne⟩
    · exact ⟨item, List.mem_cons_self, hmany⟩
  | bracket => exact ⟨_, List.mem_cons_self, GlobItem.noConfusion⟩
  | beyond => exact absurd hlast (Option.some_ne_none _).symm
  | unclosed => exact ⟨_, List.mem_cons_self, GlobItem.noConfusion⟩
  | cut => exact absurd hlast (Option.some_ne_none _).symm

end Takes

section Outcomes

variable {flags : BitVec 32} {pattern rest : List UInt8} {items : List GlobItem}
  {last : Option GlobItem}

/-- A turn that compares a byte of the string. -/
theorem letter_outcome {item : GlobItem} (hitem : item ≠ .many) {c : UInt8} (hc : c ≠ '*'.toUInt8)
    (hin : ∀ x string before, Admits flags before item x →
      Outcome (matchLoop flags (c :: pattern) (x :: string) before)
        (Found flags items (some x) string last) (Lost flags items (some x) string last))
    (hout : ∀ x string before, ¬ Admits flags before item x →
      matchLoop flags (c :: pattern) (x :: string) before = some fnmNomatch)
    (string : List UInt8) (before : Option UInt8) :
    Outcome (matchLoop flags (c :: pattern) string before)
      (Found flags (item :: items) before string last)
      (Lost flags (item :: items) before string last) := by
  cases string with
  | nil =>
    rw [matchLoop_empty hc]
    cases last with
    | none => exact .nomatch (not_accepts_letter_nil hitem) not_false
    | some _ => exact .nomatch not_false (not_meets_letter_nil hitem)
  | cons x string =>
    by_cases hx : Admits flags before item x
    · refine (hin x string before hx).congr ?_ ?_
      · exact ((found_letter hitem).trans (and_iff_right hx)).symm
      · exact ((lost_letter hitem).trans (and_iff_right hx)).symm
    · rw [hout x string before hx]
      exact .nomatch (fun h => hx ((found_letter hitem).mp h).1)
        fun h => hx ((lost_letter hitem).mp h).1

/-- A bracket expression that matches. -/
theorem bracket_in {negate : Bool} {es : List Element} {behind : List UInt8}
    (hes : ReadsBracket flags pattern negate es (.closed behind)) {before : Option UInt8}
    {x : UInt8} (hx : Admits flags before (.bracket negate es) x) (string : List UInt8) :
    matchLoop flags ('['.toUInt8 :: pattern) (x :: string) before =
      behind.tail?.bind fun rest => matchLoop flags rest string (some x) := by
  obtain ⟨hreserved, hinside⟩ := hx
  have answer := rangematch_eq hes x
  rw [bne_iff_ne.mpr hinside] at answer
  exact matchLoop_bracket_in hreserved answer (by decide : (1 : Int) ≠ 0)

/-- A bracket expression that does not match. -/
theorem bracket_out {negate : Bool} {es : List Element} {behind : List UInt8}
    (hes : ReadsBracket flags pattern negate es (.closed behind)) {before : Option UInt8}
    {x : UInt8} (hx : ¬ Admits flags before (.bracket negate es) x) (string : List UInt8) :
    matchLoop flags ('['.toUInt8 :: pattern) (x :: string) before = some fnmNomatch := by
  by_cases hreserved : reserved flags before x = true
  · exact matchLoop_reserved hreserved
  · have outside : es.any (·.has x) = negate := by
      by_contra hne
      exact hx ⟨Bool.eq_false_iff.mpr hreserved, hne⟩
    have answer := rangematch_eq hes x
    rw [outside, bne_self_eq_false] at answer
    exact matchLoop_bracket_out answer

/-- A run that leaves the pattern behind its next letter. -/
theorem leave_outcome {item : GlobItem} (hitem : item ≠ .many) {c : UInt8} (hc : c ≠ '*'.toUInt8)
    (hin : ∀ x string before, Admits flags before item x →
      matchLoop flags (c :: pattern) (x :: string) before = none)
    (hout : ∀ x string before, ¬ Admits flags before item x →
      matchLoop flags (c :: pattern) (x :: string) before = some fnmNomatch)
    (string : List UInt8) (before : Option UInt8) :
    Outcome (matchLoop flags (c :: pattern) string before)
      (Found flags [] before string (some item)) (Lost flags [] before string (some item)) := by
  cases string with
  | nil =>
    rw [matchLoop_empty hc]
    exact .nomatch not_false (not_meets_letter_nil hitem)
  | cons x string =>
    by_cases hx : Admits flags before item x
    · rw [hin x string before hx]
      exact .none not_false (.letter hx .nil)
    · rw [hout x string before hx]
      exact .nomatch not_false fun h => hx ((meets_letter hitem).mp h).1

/-- A byte that is compared with the string. -/
theorem literal_outcome {c d : UInt8} (hany : c ≠ '?'.toUInt8) (hmany : c ≠ '*'.toUInt8)
    (hbracket : c ≠ '['.toUInt8) (hliteral : literal flags c pattern = (d, rest))
    (hrest : ∀ string before, Outcome (matchLoop flags rest string before)
      (Found flags items before string last) (Lost flags items before string last))
    (string : List UInt8) (before : Option UInt8) :
    Outcome (matchLoop flags (c :: pattern) string before)
      (Found flags (.char d :: items) before string last)
      (Lost flags (.char d :: items) before string last) := by
  refine letter_outcome GlobItem.noConfusion hmany ?_ ?_ string before
  · intro x string before hx
    have same : ¬ x ≠ (d, rest).1 := not_not.mpr hx
    rw [matchLoop_literal hany hmany hbracket, hliteral, if_neg same]
    exact hrest string (some x)
  · intro x string before hx
    rw [matchLoop_literal hany hmany hbracket, hliteral]
    exact if_pos hx

/-- A star before a pattern. Stars in a row are one. -/
theorem many_outcome (h : Takes flags rest items last)
    (hrest : ∀ string before, Outcome (matchLoop flags rest string before)
      (Found flags items before string last) (Lost flags items before string last))
    (string : List UInt8) (before : Option UInt8) :
    Outcome (matchLoop flags ('*'.toUInt8 :: rest) string before)
      (Found flags (.many :: items) before string last)
      (Lost flags (.many :: items) before string last) := by
  by_cases hstars : rest.dropWhile (· = '*'.toUInt8) = []
  · obtain ⟨rfl, hall⟩ := h.of_stars hstars
    rw [matchLoop_star_end hstars]
    by_cases hslash : flags &&& fnmPathname ≠ 0 ∧ '/'.toUInt8 ∈ string
    · rw [if_pos hslash]
      exact .nomatch (fun h => (accepts_last hall).mp h hslash) not_false
    · rw [if_neg hslash]
      exact .zero (.last hall hslash) not_false
  have hmore : last = none → ∃ item ∈ items, item ≠ .many := by
    rintro rfl
    exact h.exists_ne_many hstars
  cases rest with
  | nil => exact absurd List.dropWhile_nil hstars
  | cons c pattern =>
    by_cases hc : c = '*'.toUInt8
    · subst hc
      obtain ⟨more, rfl, htakes⟩ := h.of_star rfl
      have hmore' : last = none → ∃ item ∈ more, item ≠ .many := by
        rintro rfl
        rw [dropStars_star] at hstars
        exact htakes.exists_ne_many hstars
      rw [matchLoop_star_star]
      refine (hrest string before).congr ?_ ?_
      · rw [found_many hmore, found_many hmore']
        simp only [found_many hmore']
        exact tried_tried.symm
      · rw [lost_many, lost_many]
        simp only [lost_many]
        exact tried_tried.symm
    · rw [matchLoop_star hc]
      refine (starLoop_outcome (fun string => hrest string none) ?_ string).congr
        (found_many hmore).symm lost_many.symm
      intro string other hfound hlost
      cases last with
      | none => exact hlost
      | some _ => exact hfound

/-- `match` decides what it takes the pattern for. -/
theorem Takes.outcome (h : Takes flags pattern items last) (string : List UInt8)
    (before : Option UInt8) : Outcome (matchLoop flags pattern string before)
      (Found flags items before string last) (Lost flags items before string last) := by
  have bracket_ne : '['.toUInt8 ≠ '*'.toUInt8 := by decide
  induction h generalizing string before with
  | nil =>
    rw [matchLoop]
    by_cases hstring : string = []
    · rw [if_pos hstring]
      exact .zero (accepts_nil.mpr hstring) not_false
    · rw [if_neg hstring]
      exact .nomatch (fun h => hstring (accepts_nil.mp h)) not_false
  | @item _ rest _ _ _ hitem hitems ih =>
    cases hitem with
    | any =>
      refine letter_outcome GlobItem.noConfusion (by decide) ?_ ?_ string before
      · intro x string before hx
        rw [matchLoop_any, if_neg (Bool.eq_false_iff.mp hx)]
        exact ih string (some x)
      · intro x string before hx
        rw [matchLoop_any, if_pos (Bool.not_eq_false _ ▸ hx)]
    | many => exact many_outcome hitems ih string before
    | @escaped c _ hescape =>
      have next : literal flags '\\'.toUInt8 (c :: rest) = (c, rest) := if_pos ⟨rfl, hescape⟩
      exact literal_outcome (by decide) (by decide) (by decide) next ih string before
    | @char c _ hany hmany hbracket hslash =>
      have same : literal flags c rest = (c, rest) := by
        cases rest with
        | nil => rfl
        | cons d rest => exact if_neg (hslash.resolve_right (List.cons_ne_nil d rest))
      exact literal_outcome hany hmany hbracket same ih string before
  | bracket hes hitems ih =>
    refine letter_outcome GlobItem.noConfusion bracket_ne ?_ ?_ string before
    · intro x string before hx
      rw [bracket_in hes hx]
      exact ih string (some x)
    · intro x string before hx
      exact bracket_out hes hx string
  | beyond hes =>
    refine leave_outcome GlobItem.noConfusion bracket_ne ?_ ?_ string before
    · intro x string before hx
      exact bracket_in hes hx string
    · intro x string before hx
      exact bracket_out hes hx string
  | unclosed hes hitems ih =>
    refine letter_outcome GlobItem.noConfusion bracket_ne ?_ ?_ string before
    · intro x string before hx
      rw [matchLoop_bracket_in hx (rangematch_eq hes x) (by decide : (-1 : Int) ≠ 0)]
      exact ih string (some x)
    · intro x string before hx
      exact matchLoop_reserved (Bool.not_eq_false _ ▸ hx)
  | cut hes =>
    refine leave_outcome GlobItem.noConfusion bracket_ne ?_ ?_ string before
    · intro x string before hx
      exact matchLoop_bracket_cut hx (rangematch_eq hes x)
    · intro x string before hx
      exact matchLoop_reserved (Bool.not_eq_false _ ▸ hx)

end Outcomes

/-! ## Inside the pattern -/

/-- A front of the string leads beyond the terminator of the pattern: it is taken by what stands
before a bracket expression that ends the pattern, or ends in a backslash, and by that one. -/
def Overruns (flags : BitVec 32) (pattern string : CString) : Prop :=
  ∃ items item, Takes flags pattern.bytes items (some item) ∧
    Meets flags (items ++ [item]) none string.bytes

theorem matchPattern_eq_none_iff (flags : BitVec 32) (pattern string : CString) :
    matchPattern pattern string flags = none ↔ Overruns flags pattern string := by
  constructor
  · intro hr
    obtain ⟨items, last, h⟩ := exists_takes flags pattern.bytes
    have hlost := (h.outcome string.bytes none).lost.mp hr
    cases last with
    | none => exact hlost.elim
    | some item => exact ⟨items, item, h, hlost⟩
  · rintro ⟨items, item, h, hmeets⟩
    exact (h.outcome string.bytes none).lost.mpr hmeets

/-- `fnmatch` answers, without a read outside its strings, exactly where the string does not lead
beyond the terminator of the pattern. -/
theorem fnmatch_inside_iff (pattern string : Option CString) (flags : BitVec 32) :
    (∃ r, fnmatch pattern string flags = some r) ↔
      ∀ p ∈ pattern, ∀ s ∈ string, ¬ Overruns flags p s := by
  cases pattern with
  | none =>
    refine iff_of_true ⟨fnmNomatch, rfl⟩ fun p hp => ?_
    exact absurd hp (Option.not_mem_none p)
  | some p =>
    cases string with
    | none =>
      refine iff_of_true ⟨fnmNomatch, rfl⟩ fun _ _ s hs => ?_
      exact absurd hs (Option.not_mem_none s)
    | some s =>
      have answers : (∃ r, matchPattern p s flags = some r) ↔ ¬ Overruns flags p s := by
        rw [← matchPattern_eq_none_iff, ← Option.ne_none_iff_exists']
      refine answers.trans ⟨?_, fun h => h p rfl s rfl⟩
      rintro h _ ⟨⟩ _ ⟨⟩
      exact h

/-- The pattern "[a]". -/
def lastBracket : CString := ⟨[91, 97, 93], by decide⟩

theorem takes_lastBracket : Takes 0 lastBracket.bytes [] (some (.bracket false [.single 97])) := by
  have letter : Letter 0 [97, 93] 97 [93] := .plain (by decide) (by decide)
  refine .beyond (.plain ?_ (.element (.single letter ?_) .closed))
  · intro mark h
    obtain rfl := Option.some.inj h
    exact ⟨by decide, by decide⟩
  · intro d behind h
    exact absurd (List.cons.inj h).1 (by decide)

/-- With the pattern "[a]" and the string "a" it reads the byte behind the terminator. -/
theorem fnmatch_inside_fails :
    ¬ ∀ (pattern string : CString) (flags : BitVec 32),
      ∃ r, fnmatch (some pattern) (some string) flags = some r := by
  intro h
  obtain ⟨r, hr⟩ := h lastBracket (.char 97 CString.a_ne_zero) 0
  have outside : Overruns 0 lastBracket (.char 97 CString.a_ne_zero) :=
    ⟨[], _, takes_lastBracket, .letter ⟨by decide, by decide⟩ .nil⟩
  exact Option.some_ne_none r (hr.symm.trans ((matchPattern_eq_none_iff _ _ _).mpr outside))

end Fnm

end Unics
