import Mathlib.Tactic.ByContra
import Unics.Lib.Search
import Unics.Libc.Fnmatch

/-!
# What the loop of `match` takes a pattern for

The items of a pattern and of its bracket expressions. `Fnm.Takes` is how the loop of `match` reads
a pattern under any flags: it leaves out the byte behind each bracket expression, and one beyond the
terminator stops it. Under `FNM_NOESCAPE` a backslash is a byte like any other.
-/

namespace Unics

open Unics.Lib

/-- A character of a bracket expression or a range of them. -/
inductive Element where
  | single (c : UInt8)
  | range (low high : UInt8)
  deriving DecidableEq

def Element.has (test : UInt8) : Element → Bool
  | .single c => c == test
  | .range low high => low.toInt8 ≤ test.toInt8 && test.toInt8 ≤ high.toInt8

/-- How a bracket expression ends: with its bracket, with the pattern, or in a backslash with
nothing behind it. -/
inductive BracketEnd where
  | closed (rest : List UInt8)
  | unclosed
  | cut

inductive GlobItem where
  | any
  | many
  | bracket (negate : Bool) (elements : List Element)
  | char (c : UInt8)
  deriving DecidableEq

def GlobItem.language : GlobItem → Language UInt8
  | .any => letters Set.univ
  | .many => anything
  | .bracket negate elements => letters {c | elements.any (·.has c) ≠ negate}
  | .char c => letters {c}

def GlobItem.IsBracket : GlobItem → Prop
  | .bracket _ _ => True
  | _ => False

namespace Fnm

/-! ## Bracket expressions -/

/-- A character, or any one behind a backslash that escapes it, and what follows. -/
inductive Letter (flags : BitVec 32) : List UInt8 → UInt8 → List UInt8 → Prop where
  | plain {c : UInt8} {rest : List UInt8}
      (hslash : ¬ (c = '\\'.toUInt8 ∧ flags &&& fnmNoescape = 0)) (hclose : c ≠ ']'.toUInt8) :
      Letter flags (c :: rest) c rest
  | escaped {c : UInt8} {rest : List UInt8} (hescape : flags &&& fnmNoescape = 0) :
      Letter flags ('\\'.toUInt8 :: c :: rest) c rest

/-- An element and what follows. A dash makes a range unless the bracket closes behind it. -/
inductive ReadsElement (flags : BitVec 32) : List UInt8 → Element → List UInt8 → Prop where
  | single {pattern rest : List UInt8} {c : UInt8} (hletter : Letter flags pattern c rest)
      (hdash : ∀ d behind, rest = '-'.toUInt8 :: d :: behind → d = ']'.toUInt8) :
      ReadsElement flags pattern (.single c) rest
  | range {pattern behind rest : List UInt8} {low high : UInt8}
      (hlow : Letter flags pattern low ('-'.toUInt8 :: behind))
      (hhigh : Letter flags behind high rest) :
      ReadsElement flags pattern (.range low high) rest

inductive ReadsElements (flags : BitVec 32) : List UInt8 → List Element → BracketEnd → Prop where
  | closed {rest : List UInt8} : ReadsElements flags (']'.toUInt8 :: rest) [] (.closed rest)
  | unclosed : ReadsElements flags [] [] .unclosed
  | cut (hescape : flags &&& fnmNoescape = 0) : ReadsElements flags ['\\'.toUInt8] [] .cut
  | cutRange {pattern : List UInt8} {low : UInt8} (hescape : flags &&& fnmNoescape = 0)
      (hlow : Letter flags pattern low ['-'.toUInt8, '\\'.toUInt8]) :
      ReadsElements flags pattern [] .cut
  | element {pattern rest : List UInt8} {e : Element} {es : List Element} {last : BracketEnd}
      (he : ReadsElement flags pattern e rest) (hes : ReadsElements flags rest es last) :
      ReadsElements flags pattern (e :: es) last

/-- What stands behind a `[`. -/
inductive ReadsBracket (flags : BitVec 32) :
    List UInt8 → Bool → List Element → BracketEnd → Prop where
  | negated {mark : UInt8} {pattern : List UInt8} {es : List Element} {last : BracketEnd}
      (hmark : mark = '!'.toUInt8 ∨ mark = '^'.toUInt8)
      (hes : ReadsElements flags pattern es last) :
      ReadsBracket flags (mark :: pattern) true es last
  | plain {pattern : List UInt8} {es : List Element} {last : BracketEnd}
      (hmark : ∀ mark, pattern.head? = some mark → mark ≠ '!'.toUInt8 ∧ mark ≠ '^'.toUInt8)
      (hes : ReadsElements flags pattern es last) : ReadsBracket flags pattern false es last

/-! ## Patterns -/

/-- An item other than a bracket expression, and what follows. A backslash at the end stands for
itself. -/
inductive ReadsItem (flags : BitVec 32) : List UInt8 → GlobItem → List UInt8 → Prop where
  | any {rest : List UInt8} : ReadsItem flags ('?'.toUInt8 :: rest) .any rest
  | many {rest : List UInt8} : ReadsItem flags ('*'.toUInt8 :: rest) .many rest
  | escaped {c : UInt8} {rest : List UInt8} (hescape : flags &&& fnmNoescape = 0) :
      ReadsItem flags ('\\'.toUInt8 :: c :: rest) (.char c) rest
  | char {c : UInt8} {rest : List UInt8} (hany : c ≠ '?'.toUInt8) (hmany : c ≠ '*'.toUInt8)
      (hbracket : c ≠ '['.toUInt8)
      (hslash : ¬ (c = '\\'.toUInt8 ∧ flags &&& fnmNoescape = 0) ∨ rest = []) :
      ReadsItem flags (c :: rest) (.char c) rest

/-- What the loop of `match` takes a pattern for: items, and with `some item` a last one behind
which the loop is beyond the terminator. -/
inductive Takes (flags : BitVec 32) : List UInt8 → List GlobItem → Option GlobItem → Prop where
  | nil : Takes flags [] [] none
  | item {pattern rest : List UInt8} {item : GlobItem} {items : List GlobItem}
      {last : Option GlobItem} (hitem : ReadsItem flags pattern item rest)
      (hitems : Takes flags rest items last) : Takes flags pattern (item :: items) last
  -- the byte behind the bracket expression is not read
  | bracket {pattern rest : List UInt8} {skipped : UInt8} {negate : Bool} {es : List Element}
      {items : List GlobItem} {last : Option GlobItem}
      (hes : ReadsBracket flags pattern negate es (.closed (skipped :: rest)))
      (hitems : Takes flags rest items last) :
      Takes flags ('['.toUInt8 :: pattern) (.bracket negate es :: items) last
  | beyond {pattern : List UInt8} {negate : Bool} {es : List Element}
      (hes : ReadsBracket flags pattern negate es (.closed [])) :
      Takes flags ('['.toUInt8 :: pattern) [] (some (.bracket negate es))
  -- one that is not closed matches any character and is read again behind its bracket
  | unclosed {pattern : List UInt8} {negate : Bool} {es : List Element} {items : List GlobItem}
      {last : Option GlobItem} (hes : ReadsBracket flags pattern negate es .unclosed)
      (hitems : Takes flags pattern items last) :
      Takes flags ('['.toUInt8 :: pattern) (.any :: items) last
  | cut {pattern : List UInt8} {negate : Bool} {es : List Element}
      (hes : ReadsBracket flags pattern negate es .cut) :
      Takes flags ('['.toUInt8 :: pattern) [] (some .any)

/-! ## `rangematch` -/

section Rangematch

variable {flags : BitVec 32}

theorem escaped_letter {pattern rest : List UInt8} {c : UInt8} (h : Letter flags pattern c rest) :
    ∃ first behind, pattern = first :: behind ∧ first ≠ ']'.toUInt8 ∧
      escaped flags first behind = some (c, rest) := by
  cases h with
  | plain hslash hclose => exact ⟨c, rest, rfl, hclose, if_neg hslash⟩
  | escaped hescape =>
    exact ⟨'\\'.toUInt8, c :: rest, rfl, (by decide : '\\'.toUInt8 ≠ ']'.toUInt8),
      if_pos ⟨rfl, hescape⟩⟩

theorem letter_of_escaped {first c : UInt8} {behind rest : List UInt8}
    (hclose : first ≠ ']'.toUInt8) (h : escaped flags first behind = some (c, rest)) :
    Letter flags (first :: behind) c rest := by
  unfold escaped at h
  split at h
  · next hslash =>
    obtain ⟨rfl, hescape⟩ := hslash
    cases behind with
    | nil => simp only [reduceCtorEq] at h
    | cons d behind =>
      cases h
      exact .escaped hescape
  · next hslash =>
    cases h
    exact .plain hslash hclose

theorem escaped_eq_none {first : UInt8} {behind : List UInt8}
    (h : escaped flags first behind = none) :
    first = '\\'.toUInt8 ∧ flags &&& fnmNoescape = 0 ∧ behind = [] := by
  unfold escaped at h
  split at h
  · next hslash =>
    cases behind with
    | nil => exact ⟨hslash.1, hslash.2, rfl⟩
    | cons d behind => exact absurd h (Option.some_ne_none _)
  · exact absurd h (Option.some_ne_none _)

theorem escaped_cut (hescape : flags &&& fnmNoescape = 0) :
    escaped flags '\\'.toUInt8 [] = none :=
  if_pos ⟨rfl, hescape⟩

theorem rangeEnd_dash {first : UInt8} (hclose : first ≠ ']'.toUInt8) (behind : List UInt8) :
    rangeEnd ('-'.toUInt8 :: first :: behind) = some (first, behind) :=
  if_pos ⟨rfl, hclose⟩

theorem rangeEnd_eq_none {rest : List UInt8}
    (hdash : ∀ d behind, rest = '-'.toUInt8 :: d :: behind → d = ']'.toUInt8) :
    rangeEnd rest = none := by
  unfold rangeEnd
  split
  · next dash d behind =>
    refine if_neg ?_
    rintro ⟨rfl, hd⟩
    exact hd (hdash d behind rfl)
  · rfl

theorem rangeEnd_eq_some {rest behind : List UInt8} {c2 : UInt8}
    (h : rangeEnd rest = some (c2, behind)) :
    rest = '-'.toUInt8 :: c2 :: behind ∧ c2 ≠ ']'.toUInt8 := by
  unfold rangeEnd at h
  split at h
  · split at h
    · next hdash =>
      obtain ⟨rfl, hclose⟩ := hdash
      cases h
      exact ⟨rfl, hclose⟩
    · simp only [reduceCtorEq] at h
  · simp only [reduceCtorEq] at h

end Rangematch

end Fnm

/-- What `rangeLoop` answers at the end of a bracket expression. -/
def BracketEnd.answer (ok : Bool) : BracketEnd → Option (Option (Bool × List UInt8))
  | .closed rest => some (some (ok, rest))
  | .unclosed => some none
  | .cut => none

/-- What `rangematch` answers, where `ok` is whether the character belongs to the bracket
expression. -/
def BracketEnd.result (ok : Bool) : BracketEnd → Option (Int × Option (List UInt8))
  | .closed rest => some (if ok then 1 else 0, some rest)
  | .unclosed => some (-1, none)
  | .cut => none

namespace Fnm

section Brackets

variable {flags : BitVec 32}

theorem rangeLoop_eq {pattern : List UInt8} {es : List Element} {last : BracketEnd}
    (h : ReadsElements flags pattern es last) (test : UInt8) (ok : Bool) :
    rangeLoop test flags pattern ok = last.answer (ok || es.any (·.has test)) := by
  have slash_ne : '\\'.toUInt8 ≠ ']'.toUInt8 := by decide
  induction h generalizing ok with
  | closed =>
    rw [rangeLoop_close, List.any_nil, Bool.or_false]
    rfl
  | unclosed =>
    rw [rangeLoop]
    rfl
  | cut hescape => exact rangeLoop_cut slash_ne (escaped_cut hescape) ok
  | cutRange hescape hlow =>
    obtain ⟨first, behind, rfl, hclose, hc⟩ := escaped_letter hlow
    exact rangeLoop_cutRange hclose hc (rangeEnd_dash slash_ne []) (escaped_cut hescape) ok
  | element he hes ih =>
    rw [List.any_cons, ← Bool.or_assoc]
    cases he with
    | single hletter hdash =>
      obtain ⟨first, behind, rfl, hclose, hc⟩ := escaped_letter hletter
      rw [rangeLoop_single hclose hc (rangeEnd_eq_none hdash)]
      exact ih _
    | range hlow hhigh =>
      obtain ⟨first, behind, rfl, hclose, hc⟩ := escaped_letter hlow
      obtain ⟨second, more, rfl, hclose2, h2⟩ := escaped_letter hhigh
      rw [rangeLoop_range hclose hc (rangeEnd_dash hclose2 more) h2]
      exact ih _

theorem rangematch_eq {pattern : List UInt8} {negate : Bool} {es : List Element}
    {last : BracketEnd} (h : ReadsBracket flags pattern negate es last) (test : UInt8) :
    rangematch pattern test flags = last.result (es.any (·.has test) != negate) := by
  cases h with
  | @negated mark pattern es last hmark hes =>
    have head : (mark :: pattern).head? = some '!'.toUInt8 ∨
        (mark :: pattern).head? = some '^'.toUInt8 := hmark.imp (congrArg some) (congrArg some)
    unfold rangematch
    simp only [head, if_true, List.tail_cons, rangeLoop_eq hes, Bool.false_or, Bool.bne_true]
    cases last with
    | closed rest =>
      cases es.any (·.has test)
      all_goals rfl
    | _ => rfl
  | plain hmark hes =>
    have head : ¬ (pattern.head? = some '!'.toUInt8 ∨ pattern.head? = some '^'.toUInt8) :=
      not_or.mpr ⟨fun h => (hmark _ h).1 rfl, fun h => (hmark _ h).2 rfl⟩
    unfold rangematch
    simp only [head, if_false, rangeLoop_eq hes, Bool.false_or, Bool.bne_false]
    cases last with
    | _ => rfl

end Brackets

/-! ## Every pattern is taken for something -/

section Exists

variable (flags : BitVec 32)

theorem exists_readsElements (pattern : List UInt8) :
    ∃ es last, ReadsElements flags pattern es last := by
  suffices h : ∀ _ok : Bool, ∃ es last, ReadsElements flags pattern es last from h false
  intro ok
  fun_induction rangeLoop 0 flags pattern ok with
  | case1 ok => exact ⟨[], .unclosed, .unclosed⟩
  | case2 ok pattern => exact ⟨[], .closed pattern, .closed⟩
  | case3 ok c pattern hclose hc =>
    obtain ⟨rfl, hescape, rfl⟩ := escaped_eq_none hc
    exact ⟨[], .cut, .cut hescape⟩
  | case4 ok c pattern hclose c1 rest hc c2 behind hr h2 =>
    obtain ⟨rfl, hescape, rfl⟩ := escaped_eq_none h2
    obtain rfl := (rangeEnd_eq_some hr).1
    exact ⟨[], .cut, .cutRange hescape (letter_of_escaped hclose hc)⟩
  | case5 ok c pattern hclose c1 rest hc c2 behind hr c3 last h2 ih =>
    obtain ⟨es, last, hes⟩ := ih
    obtain ⟨rfl, hclose2⟩ := rangeEnd_eq_some hr
    have low := letter_of_escaped hclose hc
    exact ⟨_, last, .element (.range low (letter_of_escaped hclose2 h2)) hes⟩
  | case6 ok c pattern hclose c1 rest hc hr ih =>
    obtain ⟨es, last, hes⟩ := ih
    refine ⟨_, last, .element (.single (letter_of_escaped hclose hc) ?_) hes⟩
    rintro d behind rfl
    by_contra hd
    exact absurd (hr.symm.trans (rangeEnd_dash hd behind)) (Option.some_ne_none _).symm

theorem exists_readsBracket (pattern : List UInt8) :
    ∃ negate es last, ReadsBracket flags pattern negate es last := by
  by_cases hmark : pattern.head? = some '!'.toUInt8 ∨ pattern.head? = some '^'.toUInt8
  · cases pattern with
    | nil => exact absurd hmark (by decide)
    | cons mark pattern =>
      obtain ⟨es, last, hes⟩ := exists_readsElements flags pattern
      exact ⟨true, es, last, .negated (hmark.imp Option.some.inj Option.some.inj) hes⟩
  · obtain ⟨es, last, hes⟩ := exists_readsElements flags pattern
    refine ⟨false, es, last, .plain ?_ hes⟩
    intro mark hhead
    exact ⟨fun h => hmark (.inl (h ▸ hhead)), fun h => hmark (.inr (h ▸ hhead))⟩

theorem ReadsBracket.length_le {flags : BitVec 32} {pattern rest : List UInt8} {negate : Bool}
    {es : List Element} (h : ReadsBracket flags pattern negate es (.closed rest)) :
    rest.length ≤ pattern.length :=
  rangematch_length (rangematch_eq h 0)

theorem exists_readsItem {c : UInt8} (hc : c ≠ '['.toUInt8) (pattern : List UInt8) :
    ∃ item rest, ReadsItem flags (c :: pattern) item rest ∧ rest.length ≤ pattern.length := by
  by_cases hany : c = '?'.toUInt8
  · subst hany
    exact ⟨.any, pattern, .any, Nat.le_refl _⟩
  by_cases hmany : c = '*'.toUInt8
  · subst hmany
    exact ⟨.many, pattern, .many, Nat.le_refl _⟩
  by_cases hslash : c = '\\'.toUInt8 ∧ flags &&& fnmNoescape = 0
  · obtain ⟨rfl, hescape⟩ := hslash
    cases pattern with
    | nil => exact ⟨_, [], .char hany hmany hc (.inr rfl), Nat.le_refl _⟩
    | cons d pattern => exact ⟨.char d, pattern, .escaped hescape, Nat.le_succ _⟩
  · exact ⟨.char c, pattern, .char hany hmany hc (.inl hslash), Nat.le_refl _⟩

theorem exists_takes (pattern : List UInt8) : ∃ items last, Takes flags pattern items last := by
  cases pattern with
  | nil => exact ⟨[], none, .nil⟩
  | cons c pattern =>
    by_cases hc : c = '['.toUInt8
    · subst hc
      obtain ⟨negate, es, last, hes⟩ := exists_readsBracket flags pattern
      cases last with
      | closed rest =>
        cases rest with
        | nil => exact ⟨[], _, .beyond hes⟩
        | cons skipped rest =>
          have shorter := hes.length_le
          obtain ⟨items, last, h⟩ := exists_takes rest
          exact ⟨_, last, .bracket hes h⟩
      | unclosed =>
        obtain ⟨items, last, h⟩ := exists_takes pattern
        exact ⟨_, last, .unclosed hes h⟩
      | cut => exact ⟨[], _, .cut hes⟩
    · obtain ⟨item, rest, hitem, shorter⟩ := exists_readsItem flags hc pattern
      obtain ⟨items, last, h⟩ := exists_takes rest
      exact ⟨_, last, .item hitem h⟩
termination_by pattern.length
decreasing_by
  · simp only [List.length_cons] at shorter ⊢
    omega
  · exact Nat.lt_succ_self _
  · exact Nat.lt_succ_of_le shorter

end Exists

end Fnm

end Unics
