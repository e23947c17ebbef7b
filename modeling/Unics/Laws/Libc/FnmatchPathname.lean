import Mathlib.Data.List.Forall2
import Unics.Laws.Libc.Fnmatch

/-!
# Matching path names

With `FNM_PATHNAME` a pattern and a string are to match component by component. `match` gives the
rest of the string to the pattern behind a star wherever it does not begin with a slash: it never
tries a star before a slash, and it lets a star take in slashes on the way.
-/

namespace Unics

open Unics.Lib

/-! ## Components -/

/-- A pattern split at its slashes, escaped or not. -/
def patternComponents : List UInt8 → List (List UInt8)
  | [] => [[]]
  | [c] => if c = '/'.toUInt8 then [[], []] else [[c]]
  | c :: d :: pattern =>
    if c = '\\'.toUInt8 then
      if d = '/'.toUInt8 then [] :: patternComponents pattern
      else (patternComponents pattern).modifyHead ([c, d] ++ ·)
    else if c = '/'.toUInt8 then [] :: patternComponents (d :: pattern)
    else (patternComponents (d :: pattern)).modifyHead ([c] ++ ·)

/-- There are as many components of the one as of the other, and each matches without flags. -/
def MatchesByComponents (pattern string : CString) : Prop :=
  ∃ parts fields : List CString, parts.map CString.bytes = patternComponents pattern.bytes ∧
    fields.map CString.bytes = string.bytes.splitOn '/'.toUInt8 ∧
    List.Forall₂ (fun part field => fnmatch (some part) (some field) 0 = some 0) parts fields

/-- What an item matches in a component. -/
def GlobItem.inside : GlobItem → Language UInt8
  | .any => letters {c | c ≠ '/'.toUInt8}
  | .many => without '/'.toUInt8
  | .bracket negate elements =>
    letters {c | c ≠ '/'.toUInt8 ∧ elements.any (·.has c) ≠ negate}
  | .char c => letters {c}

/-- The strings that the items match component by component. -/
def componentLanguage (items : List GlobItem) : Language UInt8 :=
  (items.map GlobItem.inside).prod

/-- The same but for slashes, which every star takes in except those at the end. -/
def crossLanguage : List GlobItem → Language UInt8
  | [] => 1
  | item :: items =>
    if item = .many then
      if ∀ item ∈ items, item = .many then without '/'.toUInt8
      else anything * crossLanguage items
    else item.inside * crossLanguage items

/-- A star stands before a slash. -/
def StarBeforeSlash (items : List GlobItem) : Prop := [.many, .char '/'.toUInt8] <:+: items

/-! ## Letters -/

theorem reserved_pathname {before : Option UInt8} {x : UInt8} :
    reserved fnmPathname before x = false ↔ x ≠ '/'.toUInt8 := by
  rw [reserved, decide_eq_false_iff_not, not_or]
  constructor
  · rintro ⟨hslash, -⟩ rfl
    exact hslash ⟨by decide, rfl⟩
  · intro hx
    exact ⟨fun h => hx h.2, fun h => h.1 (by decide)⟩

/-- The letters that an item matches in a component. -/
theorem inside_eq_letters {item : GlobItem} (hitem : item ≠ .many) (before : Option UInt8) :
    item.inside = letters {x | Fnm.Admits fnmPathname before item x} := by
  cases item with
  | any => exact congrArg letters (Set.ext fun x => reserved_pathname.symm)
  | many => exact absurd rfl hitem
  | bracket negate es =>
    exact congrArg letters (Set.ext fun x => and_congr_left' reserved_pathname.symm)
  | char c => rfl

theorem admits_pathname {item : GlobItem} (hitem : item ≠ .char '/'.toUInt8)
    {before : Option UInt8} {x : UInt8} :
    Fnm.Admits fnmPathname before item x ↔ Fnm.Admits 0 before item x ∧ x ≠ '/'.toUInt8 := by
  cases item with
  | any =>
    refine reserved_pathname.trans (and_iff_right ?_).symm
    exact reserved_zero before x
  | many => exact iff_of_false not_false fun h => h.1
  | bracket negate es =>
    constructor
    · rintro ⟨hreserved, hx⟩
      exact ⟨⟨reserved_zero before x, hx⟩, reserved_pathname.mp hreserved⟩
    · rintro ⟨⟨-, hx⟩, hslash⟩
      exact ⟨reserved_pathname.mpr hslash, hx⟩
  | char c =>
    refine (and_iff_left_of_imp ?_).symm
    rintro rfl rfl
    exact hitem rfl

theorem componentLanguage_cons (item : GlobItem) (items : List GlobItem) :
    componentLanguage (item :: items) = item.inside * componentLanguage items := by
  rw [componentLanguage, List.map_cons, List.prod_cons]
  rfl

/-! ## Splitting -/

section Splitting

variable {α : Type} [DecidableEq α]

theorem splitOn_cons_self (a : α) (xs : List α) : (a :: xs).splitOn a = [] :: xs.splitOn a := by
  rw [List.splitOn_cons_eq_if_modifyHead, if_pos (beq_self_eq_true a)]

theorem splitOn_cons_of_ne {a x : α} (hx : x ≠ a) {xs head : List α} {tail : List (List α)}
    (h : xs.splitOn a = head :: tail) : (x :: xs).splitOn a = (x :: head) :: tail := by
  have other : ¬ (x == a) = true := fun h => hx (eq_of_beq h)
  rw [List.splitOn_cons_eq_if_modifyHead, if_neg other, h]
  rfl

theorem exists_splitOn (a : α) (xs : List α) : ∃ head tail, xs.splitOn a = head :: tail :=
  List.exists_cons_of_ne_nil (List.splitOn_ne_nil a xs)

end Splitting

/-- Each field is matched by its part of the items. -/
def Matched (parts : List (List GlobItem)) (fields : List (List UInt8)) : Prop :=
  List.Forall₂ (fun part field => field ∈ language part) parts fields

theorem matched_cons {part : List GlobItem} {parts : List (List GlobItem)} {field : List UInt8}
    {fields : List (List UInt8)} :
    Matched (part :: parts) (field :: fields) ↔ field ∈ language part ∧ Matched parts fields :=
  List.forall₂_cons

theorem matched_singleton {part head : List GlobItem} {parts : List (List GlobItem)}
    {field : List UInt8} (h : field ∈ language part ↔ field ∈ language head) :
    Matched (part :: parts) [field] ↔ Matched (head :: parts) [field] := by
  rw [matched_cons, matched_cons, h]

/-- A letter in front of the items. -/
theorem matched_letter {item : GlobItem} (hmany : item ≠ .many)
    (hslash : item ≠ .char '/'.toUInt8) {items : List GlobItem}
    (ih : ∀ word, Matched (items.splitOn (.char '/'.toUInt8)) (word.splitOn '/'.toUInt8) ↔
      word ∈ componentLanguage items) (word : List UInt8) :
    Matched ((item :: items).splitOn (.char '/'.toUInt8)) (word.splitOn '/'.toUInt8) ↔
      word ∈ item.inside * componentLanguage items := by
  obtain ⟨head, tail, hitems⟩ := exists_splitOn (.char '/'.toUInt8) items
  have letter : ∀ field, field ∈ language (item :: head) ↔
      field ∈ letters {x | Fnm.Admits 0 none item x} * language head := by
    intro field
    rw [language_eq_mul, language_eq_letters hmany none]
  rw [splitOn_cons_of_ne hslash hitems, inside_eq_letters hmany none]
  cases word with
  | nil =>
    rw [List.splitOn_nil, matched_cons, letter]
    exact iff_of_false (fun h => nil_notMem_letters_mul _ _ h.1) (nil_notMem_letters_mul _ _)
  | cons x word =>
    rw [cons_mem_letters_mul, Set.mem_ofPred_eq, admits_pathname hslash, ← ih, hitems]
    by_cases hx : x = '/'.toUInt8
    · subst hx
      rw [splitOn_cons_self, matched_cons, letter]
      exact iff_of_false (fun h => nil_notMem_letters_mul _ _ h.1) fun h => h.1.2 rfl
    · obtain ⟨field, fields, hword⟩ := exists_splitOn '/'.toUInt8 word
      rw [splitOn_cons_of_ne hx hword, matched_cons, letter, cons_mem_letters_mul, hword,
        matched_cons, and_assoc, and_iff_left hx]
      rfl

/-- A star in front of the items takes in what it can of a component. -/
theorem matched_many {items : List GlobItem}
    (ih : ∀ word, Matched (items.splitOn (.char '/'.toUInt8)) (word.splitOn '/'.toUInt8) ↔
      word ∈ componentLanguage items) (word : List UInt8) :
    Matched ((.many :: items).splitOn (.char '/'.toUInt8)) (word.splitOn '/'.toUInt8) ↔
      word ∈ without '/'.toUInt8 * componentLanguage items := by
  obtain ⟨head, tail, hitems⟩ := exists_splitOn (.char '/'.toUInt8) items
  have star : ∀ field, field ∈ language (.many :: head) ↔ field ∈ anything * language head := by
    intro field
    rw [language_eq_mul]
    rfl
  rw [splitOn_cons_of_ne GlobItem.noConfusion hitems]
  rw [hitems] at ih
  induction word with
  | nil =>
    rw [nil_mem_without_mul, ← ih, List.splitOn_nil]
    exact matched_singleton ((star []).trans nil_mem_anything_mul)
  | cons x word hword =>
    have behind : Matched ((.many :: head) :: tail) (word.splitOn '/'.toUInt8) ↔
        word ∈ without '/'.toUInt8 * componentLanguage items := hword
    rw [cons_mem_without_mul, ← behind, ← ih]
    by_cases hx : x = '/'.toUInt8
    · subst hx
      rw [splitOn_cons_self, matched_cons, matched_cons, star, nil_mem_anything_mul]
      exact (or_iff_left fun h => h.1 rfl).symm
    · obtain ⟨field, fields, hsplit⟩ := exists_splitOn '/'.toUInt8 word
      rw [splitOn_cons_of_ne hx hsplit, hsplit, matched_cons, matched_cons, matched_cons, star,
        star, cons_mem_anything_mul, or_and_right, and_iff_right hx]

/-- Matching component by component is the language of the items with stars that stop at a
slash. -/
theorem matched_splitOn_iff (items : List GlobItem) (word : List UInt8) :
    Matched (items.splitOn (.char '/'.toUInt8)) (word.splitOn '/'.toUInt8) ↔
      word ∈ componentLanguage items := by
  induction items generalizing word with
  | nil =>
    rw [List.splitOn_nil]
    cases word with
    | nil => exact iff_of_true (.cons Language.nil_mem_one .nil) Language.nil_mem_one
    | cons x word =>
      refine iff_of_false ?_ fun h => List.cons_ne_nil x word ((Language.mem_one _).mp h)
      obtain ⟨field, fields, hsplit⟩ := exists_splitOn '/'.toUInt8 word
      by_cases hx : x = '/'.toUInt8
      · subst hx
        rw [splitOn_cons_self, hsplit]
        intro h
        cases (matched_cons.mp h).2
      · rw [splitOn_cons_of_ne hx hsplit]
        intro h
        exact List.cons_ne_nil x field ((Language.mem_one _).mp (matched_cons.mp h).1)
  | cons item items ih =>
    rw [componentLanguage_cons]
    by_cases hmany : item = .many
    · subst hmany
      exact matched_many ih word
    by_cases hslash : item = .char '/'.toUInt8
    · subst hslash
      rw [splitOn_cons_self]
      cases word with
      | nil =>
        rw [List.splitOn_nil, matched_cons]
        obtain ⟨head, tail, hitems⟩ := exists_splitOn (.char '/'.toUInt8) items
        refine iff_of_false ?_ (nil_notMem_letters_mul _ _)
        rintro ⟨-, h⟩
        rw [hitems] at h
        cases h
      | cons x word =>
        rw [GlobItem.inside, cons_mem_letters_mul, ← ih]
        by_cases hx : x = '/'.toUInt8
        · subst hx
          rw [splitOn_cons_self, matched_cons]
          exact and_congr_left' (iff_of_true Language.nil_mem_one rfl)
        · obtain ⟨field, fields, hsplit⟩ := exists_splitOn '/'.toUInt8 word
          rw [splitOn_cons_of_ne hx hsplit, matched_cons]
          refine iff_of_false ?_ fun h => hx h.1
          rintro ⟨h, -⟩
          exact List.cons_ne_nil x field ((Language.mem_one _).mp h)
    · exact matched_letter hmany hslash ih word

/-! ## The components of a pattern -/

theorem patternComponents_cons {c : UInt8} (hslash : c ≠ '\\'.toUInt8) (pattern : List UInt8) :
    patternComponents (c :: pattern) =
      if c = '/'.toUInt8 then [] :: patternComponents pattern
      else (patternComponents pattern).modifyHead ([c] ++ ·) := by
  cases pattern with
  | nil =>
    rw [patternComponents]
    rfl
  | cons d pattern => rw [patternComponents, if_neg hslash]

theorem patternComponents_escape (d : UInt8) (pattern : List UInt8) :
    patternComponents ('\\'.toUInt8 :: d :: pattern) =
      if d = '/'.toUInt8 then [] :: patternComponents pattern
      else (patternComponents pattern).modifyHead (['\\'.toUInt8, d] ++ ·) := by
  rw [patternComponents, if_pos rfl]

/-- An item in front of the first component. -/
theorem forall₂_modifyHead {front : List UInt8} {item : GlobItem}
    (hslash : item ≠ .char '/'.toUInt8)
    (hread : ∀ part its, Plain part its → Plain (front ++ part) (item :: its))
    {parts : List (List UInt8)} {items : List GlobItem}
    (h : List.Forall₂ Plain parts (items.splitOn (.char '/'.toUInt8))) :
    List.Forall₂ Plain (parts.modifyHead (front ++ ·))
      ((item :: items).splitOn (.char '/'.toUInt8)) := by
  obtain ⟨head, tail, hitems⟩ := exists_splitOn (.char '/'.toUInt8) items
  rw [splitOn_cons_of_ne hslash hitems]
  rw [hitems] at h
  cases h with
  | cons hhead htail => exact .cons (hread _ _ hhead) htail

theorem Plain.components {pattern : List UInt8} {items : List GlobItem} (h : Plain pattern items) :
    List.Forall₂ Plain (patternComponents pattern) (items.splitOn (.char '/'.toUInt8)) := by
  obtain ⟨hdenotes, hplain⟩ := h
  induction hdenotes with
  | nil =>
    rw [List.splitOn_nil]
    exact .cons .nil .nil
  | cons hitem hitems ih =>
    obtain ⟨hfirst, hrest⟩ := List.forall_mem_cons.mp hplain
    have parts := ih hrest
    cases hitem with
    | any =>
      rw [patternComponents_cons (by decide), if_neg (by decide)]
      refine forall₂_modifyHead GlobItem.noConfusion ?_ parts
      exact fun _ _ h => h.cons .any not_false
    | many =>
      rw [patternComponents_cons (by decide), if_neg (by decide)]
      refine forall₂_modifyHead GlobItem.noConfusion ?_ parts
      exact fun _ _ h => h.cons .many not_false
    | bracket => exact absurd trivial hfirst
    | @escaped c =>
      rw [patternComponents_escape]
      by_cases hc : c = '/'.toUInt8
      · subst hc
        rw [if_pos rfl, splitOn_cons_self]
        exact .cons .nil parts
      · rw [if_neg hc]
        refine forall₂_modifyHead (fun h => hc (GlobItem.char.inj h)) ?_ parts
        exact fun _ _ h => h.cons .escaped not_false
    | slash =>
      obtain rfl := hitems.of_nil
      exact .cons (.cons .slash not_false .nil) .nil
    | @char c _ hany hmany hbracket hslash =>
      rw [patternComponents_cons hslash]
      by_cases hc : c = '/'.toUInt8
      · subst hc
        rw [if_pos rfl, splitOn_cons_self]
        exact .cons .nil parts
      · rw [if_neg hc]
        refine forall₂_modifyHead (fun h => hc (GlobItem.char.inj h)) ?_ parts
        exact fun _ _ h => h.cons (.char hany hmany hbracket hslash) not_false

/-! ## Without the terminator -/

theorem forall_mem_modifyHead {α : Type} {p : α → Prop} {f : α → α} (hf : ∀ x, p x → p (f x))
    {xs : List α} (h : ∀ x ∈ xs, p x) : ∀ x ∈ xs.modifyHead f, p x := by
  cases xs with
  | nil => exact h
  | cons head tail =>
    obtain ⟨hhead, htail⟩ := List.forall_mem_cons.mp h
    exact List.forall_mem_cons.mpr ⟨hf head hhead, htail⟩

/-- What does not occur in a list does not occur in its fields. -/
theorem forall_mem_splitOn {α : Type} [DecidableEq α] {a c : α} {xs : List α} (h : c ∉ xs) :
    ∀ field ∈ xs.splitOn a, c ∉ field := by
  induction xs with
  | nil =>
    rw [List.splitOn_nil]
    exact List.forall_mem_singleton.mpr List.not_mem_nil
  | cons x xs ih =>
    obtain ⟨hne, hrest⟩ := List.ne_and_not_mem_of_not_mem_cons h
    rw [List.splitOn_cons_eq_if_modifyHead]
    split
    · exact List.forall_mem_cons.mpr ⟨List.not_mem_nil, ih hrest⟩
    · refine forall_mem_modifyHead (p := (c ∉ ·)) ?_ (ih hrest)
      exact fun _ => List.not_mem_cons_of_ne_of_not_mem hne

theorem forall_mem_patternComponents {c : UInt8} {pattern : List UInt8} (h : c ∉ pattern) :
    ∀ part ∈ patternComponents pattern, c ∉ part := by
  fun_induction patternComponents pattern with
  | case1 => exact List.forall_mem_singleton.mpr h
  | case2 =>
    have last : ∀ part ∈ [([] : List UInt8)], c ∉ part :=
      List.forall_mem_singleton.mpr List.not_mem_nil
    exact List.forall_mem_cons.mpr ⟨List.not_mem_nil, last⟩
  | case3 => exact List.forall_mem_singleton.mpr h
  | case4 pattern ih =>
    obtain ⟨-, hd⟩ := List.ne_and_not_mem_of_not_mem_cons h
    obtain ⟨-, hrest⟩ := List.ne_and_not_mem_of_not_mem_cons hd
    exact List.forall_mem_cons.mpr ⟨List.not_mem_nil, ih hrest⟩
  | case5 d pattern _ ih =>
    obtain ⟨hslash, hd⟩ := List.ne_and_not_mem_of_not_mem_cons h
    obtain ⟨hne, hrest⟩ := List.ne_and_not_mem_of_not_mem_cons hd
    refine forall_mem_modifyHead (p := (c ∉ ·)) (fun part hpart => ?_) (ih hrest)
    exact List.not_mem_cons_of_ne_of_not_mem hslash (List.not_mem_cons_of_ne_of_not_mem hne hpart)
  | case6 d pattern _ ih =>
    obtain ⟨-, hrest⟩ := List.ne_and_not_mem_of_not_mem_cons h
    exact List.forall_mem_cons.mpr ⟨List.not_mem_nil, ih hrest⟩
  | case7 c' d pattern _ _ ih =>
    obtain ⟨hne, hrest⟩ := List.ne_and_not_mem_of_not_mem_cons h
    refine forall_mem_modifyHead (p := (c ∉ ·)) ?_ (ih hrest)
    exact fun _ => List.not_mem_cons_of_ne_of_not_mem hne

theorem exists_cstrings {l : List (List UInt8)} (h : ∀ bytes ∈ l, (0 : UInt8) ∉ bytes) :
    ∃ strings : List CString, strings.map CString.bytes = l := by
  refine ⟨l.pmap CString.mk h, ?_⟩
  rw [List.map_pmap]
  exact List.pmap_eq_self.mpr fun _ _ => rfl

/-- The parts of the items match what `fnmatch` matches. -/
theorem forall₂_fnmatch_iff {parts fields : List CString} {its : List (List GlobItem)}
    (h : List.Forall₂ (fun part => Plain part.bytes) parts its) :
    List.Forall₂ (fun part field => fnmatch (some part) (some field) 0 = some 0) parts fields ↔
      Matched its (fields.map CString.bytes) := by
  induction h generalizing fields with
  | nil =>
    cases fields with
    | nil => exact iff_of_true .nil .nil
    | cons field fields =>
      refine iff_of_false ?_ ?_
      · intro h
        cases h
      · intro h
        cases h
  | cons hpart _ ih =>
    cases fields with
    | nil =>
      refine iff_of_false ?_ ?_
      · intro h
        cases h
      · intro h
        cases h
    | cons field fields =>
      rw [List.forall₂_cons, List.map_cons, matched_cons, ih, fnmatch_zero_eq_zero_iff hpart]

theorem matchesByComponents_iff {pattern string : CString} {items : List GlobItem}
    (h : Plain pattern.bytes items) :
    MatchesByComponents pattern string ↔ string.bytes ∈ componentLanguage items := by
  have components := h.components
  rw [← matched_splitOn_iff]
  constructor
  · rintro ⟨parts, fields, hparts, hfields, hmatch⟩
    rw [← hparts, List.forall₂_map_left_iff] at components
    rw [← hfields]
    exact (forall₂_fnmatch_iff components).mp hmatch
  · intro hmatch
    obtain ⟨parts, hparts⟩ := exists_cstrings (forall_mem_patternComponents pattern.noNul)
    obtain ⟨fields, hfields⟩ := exists_cstrings (forall_mem_splitOn string.noNul)
    rw [← hparts, List.forall₂_map_left_iff] at components
    rw [← hfields] at hmatch
    exact ⟨parts, fields, hparts, hfields, (forall₂_fnmatch_iff components).mpr hmatch⟩

/-! ## What a star takes in -/

section Cross

variable {items : List GlobItem} {before : Option UInt8} {string : List UInt8}

theorem crossLanguage_letter {item : GlobItem} (hitem : item ≠ .many) :
    crossLanguage (item :: items) = item.inside * crossLanguage items := by
  rw [crossLanguage, if_neg hitem]

theorem crossLanguage_last (hall : ∀ item ∈ items, item = .many) :
    crossLanguage (.many :: items) = without '/'.toUInt8 := by
  rw [crossLanguage, if_pos rfl, if_pos hall]

theorem crossLanguage_many (hmore : ∃ item ∈ items, item ≠ .many) :
    crossLanguage (.many :: items) = anything * crossLanguage items := by
  have some_other : ¬ ∀ item ∈ items, item = .many := by
    obtain ⟨item, hitem, hne⟩ := hmore
    exact fun hall => hne (hall item hitem)
  rw [crossLanguage, if_pos rfl, if_neg some_other]

/-- What is left behind a star does not begin with a slash, so a star before one is stuck. -/
theorem not_accepts_of_starBeforeSlash (h : StarBeforeSlash items) :
    ¬ Fnm.Accepts fnmPathname items before string := by
  obtain ⟨front, back, rfl⟩ := h
  induction front generalizing before string with
  | nil =>
    have slash_ne : GlobItem.char '/'.toUInt8 ≠ .many := GlobItem.noConfusion
    intro h
    obtain ⟨rest, htried, hrest⟩ := (Fnm.accepts_many ⟨_, List.mem_cons_self, slash_ne⟩).mp h
    cases hrest with
    | letter hx => exact htried.inside.elim (by decide) fun hhead => hhead (congrArg some hx)
  | cons item front ih =>
    intro h
    cases h with
    | letter _ hrest => exact ih hrest
    | many _ _ hrest => exact ih hrest
    | last hall =>
      have slash : GlobItem.char '/'.toUInt8 ∈ front ++ [.many, .char '/'.toUInt8] ++ back :=
        List.mem_append_left _ (List.mem_append_right _ (List.mem_cons_of_mem _ List.mem_cons_self))
      exact GlobItem.noConfusion (hall _ slash)

/-- Behind a star that stands before no slash, the rest can be taken up at a byte that is none. -/
theorem exists_start (hmore : ∃ item ∈ items, item ≠ .many)
    (hstar : ¬ StarBeforeSlash (.many :: items)) (h : string ∈ crossLanguage items) :
    ∃ rest, Fnm.Tried fnmPathname rest string ∧ rest ∈ crossLanguage items := by
  induction items generalizing string with
  | nil =>
    obtain ⟨item, hitem, -⟩ := hmore
    exact absurd hitem List.not_mem_nil
  | cons item items ih =>
    by_cases hitem : item = .many
    · subst hitem
      have hmore' : ∃ item ∈ items, item ≠ .many := by
        obtain ⟨other, hother, hne⟩ := hmore
        exact ⟨other, (List.mem_cons.mp hother).resolve_left hne, hne⟩
      rw [crossLanguage_many hmore'] at h ⊢
      obtain ⟨middle, hmiddle, hcross⟩ := mem_anything_mul.mp h
      obtain ⟨rest, htried, hrest⟩ := ih hmore' (fun h => hstar (List.infix_cons h)) hcross
      refine ⟨rest, ⟨htried.suffix.trans hmiddle, htried.nonempty, htried.inside⟩, ?_⟩
      exact mem_anything_mul.mpr ⟨rest, List.suffix_refl rest, hrest⟩
    · have hslash : item ≠ .char '/'.toUInt8 := by
        rintro rfl
        exact hstar ⟨[], items, rfl⟩
      refine ⟨string, ⟨List.suffix_refl string, ?_, .inr ?_⟩, h⟩
      all_goals rw [crossLanguage_letter hitem, inside_eq_letters hitem none] at h
      · rintro rfl
        exact nil_notMem_letters_mul _ _ h
      · intro hhead
        cases string with
        | nil => exact nil_notMem_letters_mul _ _ h
        | cons x string =>
          have admitted := (cons_mem_letters_mul.mp h).1
          exact ((admits_pathname hslash).mp admitted).2 (Option.some.inj hhead)

theorem accepts_pathname_iff (hstar : ¬ StarBeforeSlash items) :
    Fnm.Accepts fnmPathname items before string ↔ string ∈ crossLanguage items := by
  induction items generalizing before string with
  | nil => exact Fnm.accepts_nil.trans (Language.mem_one string).symm
  | cons item items ih =>
    have hrest : ¬ StarBeforeSlash items := fun h => hstar (List.infix_cons h)
    by_cases hitem : item = .many
    · subst hitem
      by_cases hall : ∀ item ∈ items, item = .many
      · rw [Fnm.accepts_last hall, crossLanguage_last hall]
        exact not_congr (and_iff_right (by decide))
      · have hmore := exists_ne_many hall
        rw [Fnm.accepts_many hmore, crossLanguage_many hmore, mem_anything_mul]
        simp only [ih hrest]
        constructor
        · rintro ⟨rest, htried, h⟩
          exact ⟨rest, htried.suffix, h⟩
        · rintro ⟨middle, hmiddle, h⟩
          obtain ⟨rest, htried, hcross⟩ := exists_start hmore hstar h
          exact ⟨rest, ⟨htried.suffix.trans hmiddle, htried.nonempty, htried.inside⟩, hcross⟩
    · rw [crossLanguage_letter hitem, inside_eq_letters hitem before]
      cases string with
      | nil => exact iff_of_false (Fnm.not_accepts_letter_nil hitem) (nil_notMem_letters_mul _ _)
      | cons x string =>
        rw [Fnm.accepts_letter hitem, cons_mem_letters_mul, ih hrest]
        rfl

end Cross

/-! ## Counting slashes -/

section Counting

variable {items : List GlobItem} {string : List UInt8}

/-- Only a slash matches a slash. -/
theorem admits_slash_iff {item : GlobItem} {before : Option UInt8} {x : UInt8}
    (hx : Fnm.Admits fnmPathname before item x) :
    x = '/'.toUInt8 ↔ item = .char '/'.toUInt8 := by
  constructor
  · intro hslash
    by_contra hitem
    exact ((admits_pathname hitem).mp hx).2 hslash
  · rintro rfl
    exact hx

theorem count_letter (items : List GlobItem) (string : List UInt8) {item : GlobItem}
    {before : Option UInt8} {x : UInt8} (hx : Fnm.Admits fnmPathname before item x) :
    ((x :: string).count '/'.toUInt8 : Int) - (item :: items).count (.char '/'.toUInt8) =
      string.count '/'.toUInt8 - items.count (.char '/'.toUInt8) := by
  have same := admits_slash_iff hx
  rw [List.count_cons, List.count_cons]
  by_cases hslash : x = '/'.toUInt8
  · rw [if_pos (beq_iff_eq.mpr hslash), if_pos (beq_iff_eq.mpr (same.mp hslash))]
    omega
  · rw [if_neg fun h => hslash (beq_iff_eq.mp h),
      if_neg fun h => hslash (same.mpr (beq_iff_eq.mp h))]
    omega

theorem count_many (items : List GlobItem) :
    (.many :: items).count (.char '/'.toUInt8) = items.count (.char '/'.toUInt8) :=
  List.count_cons_of_ne GlobItem.noConfusion

theorem count_stars (hall : ∀ item ∈ items, item = .many) :
    items.count (.char '/'.toUInt8) = 0 :=
  List.count_eq_zero.mpr fun h => GlobItem.noConfusion (hall _ h)

theorem nil_mem_componentLanguage (hall : ∀ item ∈ items, item = .many) :
    [] ∈ componentLanguage items := by
  induction items with
  | nil => exact Language.nil_mem_one
  | cons item items ih =>
    obtain ⟨rfl, hrest⟩ := List.forall_mem_cons.mp hall
    rw [componentLanguage_cons]
    exact nil_mem_without_mul.mpr (ih hrest)

/-- What the items match component by component has their slashes. -/
theorem mem_crossLanguage (h : string ∈ componentLanguage items) :
    string ∈ crossLanguage items ∧
      string.count '/'.toUInt8 = items.count (.char '/'.toUInt8) := by
  induction items generalizing string with
  | nil =>
    obtain rfl := (Language.mem_one string).mp h
    exact ⟨h, rfl⟩
  | cons item items ih =>
    rw [componentLanguage_cons] at h
    by_cases hitem : item = .many
    · subst hitem
      obtain ⟨front, hfront, back, hback, rfl⟩ := Language.mem_mul.mp h
      obtain ⟨hcross, hcount⟩ := ih hback
      have count : (front ++ back).count '/'.toUInt8 = items.count (.char '/'.toUInt8) := by
        rw [List.count_append, List.count_eq_zero.mpr hfront, Nat.zero_add, hcount]
      rw [count_many]
      refine ⟨?_, count⟩
      by_cases hall : ∀ item ∈ items, item = .many
      · rw [crossLanguage_last hall]
        exact List.count_eq_zero.mp (count.trans (count_stars hall))
      · have hmore := exists_ne_many hall
        rw [crossLanguage_many hmore]
        exact Language.append_mem_mul trivial hcross
    · rw [inside_eq_letters hitem none] at h
      rw [crossLanguage_letter hitem, inside_eq_letters hitem none]
      cases string with
      | nil => exact absurd h (nil_notMem_letters_mul _ _)
      | cons x string =>
        obtain ⟨hx, hrest⟩ := cons_mem_letters_mul.mp h
        obtain ⟨hcross, hcount⟩ := ih hrest
        have count := count_letter items string hx
        exact ⟨cons_mem_letters_mul.mpr ⟨hx, hcross⟩, by omega⟩

/-- A star that is not at the end takes in the slashes that the items do not have. -/
theorem count_le_of_mem_crossLanguage (h : string ∈ crossLanguage items) :
    items.count (.char '/'.toUInt8) ≤ string.count '/'.toUInt8 ∧
      (string.count '/'.toUInt8 = items.count (.char '/'.toUInt8) →
        string ∈ componentLanguage items) := by
  induction items generalizing string with
  | nil =>
    obtain rfl := (Language.mem_one string).mp h
    exact ⟨Nat.le_refl _, fun _ => Language.nil_mem_one⟩
  | cons item items ih =>
    rw [componentLanguage_cons]
    by_cases hitem : item = .many
    · subst hitem
      rw [count_many]
      by_cases hall : ∀ item ∈ items, item = .many
      · rw [crossLanguage_last hall] at h
        rw [count_stars hall]
        refine ⟨Nat.zero_le _, fun _ => ?_⟩
        rw [← List.append_nil string]
        exact Language.append_mem_mul h (nil_mem_componentLanguage hall)
      · have hmore := exists_ne_many hall
        rw [crossLanguage_many hmore] at h
        obtain ⟨front, -, back, hback, rfl⟩ := Language.mem_mul.mp h
        obtain ⟨hle, hcomponent⟩ := ih hback
        rw [List.count_append]
        refine ⟨by omega, fun hcount => ?_⟩
        have hfront : front.count '/'.toUInt8 = 0 := by omega
        exact Language.append_mem_mul (List.count_eq_zero.mp hfront) (hcomponent (by omega))
    · rw [crossLanguage_letter hitem, inside_eq_letters hitem none] at h
      rw [inside_eq_letters hitem none]
      cases string with
      | nil => exact absurd h (nil_notMem_letters_mul _ _)
      | cons x string =>
        obtain ⟨hx, hrest⟩ := cons_mem_letters_mul.mp h
        obtain ⟨hle, hcomponent⟩ := ih hrest
        have count := count_letter items string hx
        refine ⟨by omega, fun hcount => ?_⟩
        exact cons_mem_letters_mul.mpr ⟨hx, hcomponent (by omega)⟩

end Counting

/-! ## Path names -/

/-- With `FNM_PATHNAME`, `fnmatch` matches component by component exactly where no star before a
slash would have had to match, and no other star takes in a slash. -/
theorem fnmatch_pathname_iff (pattern string : CString) (items : List GlobItem)
    (h : Plain pattern.bytes items) :
    (fnmatch (some pattern) (some string) fnmPathname = some 0 ↔
        MatchesByComponents pattern string) ↔
      (StarBeforeSlash items → ¬ MatchesByComponents pattern string) ∧
        (¬ StarBeforeSlash items → string.bytes ∈ crossLanguage items →
          string.bytes.count '/'.toUInt8 = items.count (.char '/'.toUInt8)) := by
  rw [fnmatch_eq_zero_iff h (by decide), matchesByComponents_iff h]
  by_cases hstar : StarBeforeSlash items
  · rw [iff_false_left (not_accepts_of_starBeforeSlash hstar)]
    exact ⟨fun hout => ⟨fun _ => hout, absurd hstar⟩, fun h => h.1 hstar⟩
  · rw [accepts_pathname_iff hstar]
    constructor
    · intro hsame
      exact ⟨fun h => absurd h hstar, fun _ hcross => (mem_crossLanguage (hsame.mp hcross)).2⟩
    · rintro ⟨-, hcount⟩
      constructor
      · intro hcross
        exact (count_le_of_mem_crossLanguage hcross).2 (hcount hstar hcross)
      · intro hcomponent
        exact (mem_crossLanguage hcomponent).1

/-- The pattern "*b/*". -/
def starsPattern : CString := ⟨[42, 98, 47, 42], by decide⟩

theorem plain_starsPattern :
    Plain starsPattern.bytes [.many, .char 98, .char '/'.toUInt8, .many] :=
  .cons .many not_false
    (.cons (.char (by decide) (by decide) (by decide) (by decide)) not_false
      (.cons (.char (by decide) (by decide) (by decide) (by decide)) not_false
        (.cons .many not_false .nil)))

/-- The string "ab/c". -/
def starsString : CString := ⟨[97, 98, 47, 99], by decide⟩

/-- Two stars, one before a letter and one at the end, and a string of two components. -/
theorem fnmatch_pathname_iff_stars :
    (fnmatch (some starsPattern) (some starsString) fnmPathname = some 0 ↔
        MatchesByComponents starsPattern starsString) ↔
      (StarBeforeSlash [.many, .char 98, .char '/'.toUInt8, .many] →
        ¬ MatchesByComponents starsPattern starsString) ∧
        (¬ StarBeforeSlash [.many, .char 98, .char '/'.toUInt8, .many] →
          starsString.bytes ∈ crossLanguage [.many, .char 98, .char '/'.toUInt8, .many] →
          starsString.bytes.count '/'.toUInt8 =
            [GlobItem.many, .char 98, .char '/'.toUInt8, .many].count (.char '/'.toUInt8)) :=
  fnmatch_pathname_iff starsPattern starsString _ plain_starsPattern

/-- The pattern "*b". -/
def starPattern : CString := ⟨[42, 98], by decide⟩

theorem plain_starPattern : Plain starPattern.bytes [.many, .char 98] :=
  .cons .many not_false
    (.cons (.char (by decide) (by decide) (by decide) (by decide)) not_false .nil)

/-- The pattern "a*/b". -/
def starSlashPattern : CString := ⟨[97, 42, 47, 98], by decide⟩

theorem plain_starSlashPattern :
    Plain starSlashPattern.bytes [.char 97, .many, .char '/'.toUInt8, .char 98] :=
  .cons (.char (by decide) (by decide) (by decide) (by decide)) not_false
    (.cons .many not_false
      (.cons (.char (by decide) (by decide) (by decide) (by decide)) not_false
        (.cons (.char (by decide) (by decide) (by decide) (by decide)) not_false .nil)))

/-- The string "a/b". -/
def twoComponents : CString := ⟨[97, 47, 98], by decide⟩

/-- "*b" is found in "a/b" across the slash, and "a*/b" is not, although the star may match the
empty rest of its component. -/
theorem fnmatch_pathname_fails :
    (fnmatch (some starPattern) (some twoComponents) fnmPathname = some 0 ∧
      ¬ MatchesByComponents starPattern twoComponents) ∧
    (fnmatch (some starSlashPattern) (some twoComponents) fnmPathname ≠ some 0 ∧
      MatchesByComponents starSlashPattern twoComponents) := by
  refine ⟨⟨?_, ?_⟩, ?_, ?_⟩
  · have apart : ¬ [GlobItem.many, .char '/'.toUInt8] <:+: [.many, .char 98] := by decide
    have other : ∃ item ∈ [GlobItem.char 98], item ≠ .many := by decide
    rw [fnmatch_eq_zero_iff plain_starPattern (by decide), accepts_pathname_iff apart,
      crossLanguage_many other]
    refine mem_anything_mul.mpr ⟨[98], ⟨[97, 47], rfl⟩, ?_⟩
    exact cons_mem_letters_mul.mpr ⟨rfl, Language.nil_mem_one⟩
  · rw [matchesByComponents_iff plain_starPattern]
    intro h
    exact absurd (mem_crossLanguage h).2 (by decide)
  · rw [Ne, fnmatch_eq_zero_iff plain_starSlashPattern (by decide)]
    exact not_accepts_of_starBeforeSlash ⟨[.char 97], [.char 98], rfl⟩
  · rw [matchesByComponents_iff plain_starSlashPattern]
    refine cons_mem_letters_mul.mpr ⟨rfl, cons_mem_without_mul.mpr (.inl ?_)⟩
    refine cons_mem_letters_mul.mpr ⟨rfl, cons_mem_letters_mul.mpr ⟨rfl, Language.nil_mem_one⟩⟩

end Unics
