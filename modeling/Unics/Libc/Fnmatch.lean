import Unics.Libc.CString

/-!
# Matching a pattern

`lib/libc/fnmatch.c`. A pointer into the pattern is what stands from there to the terminator, and
one beyond the terminator answers `none`. A `char` is signed.
-/

namespace Unics

/-- `FNM_NOMATCH`. -/
def fnmNomatch : Int := 1

/-- `FNM_NOESCAPE`. -/
def fnmNoescape : BitVec 32 := 0x01

/-- `FNM_PATHNAME`. -/
def fnmPathname : BitVec 32 := 0x02

/-- `FNM_PERIOD`. -/
def fnmPeriod : BitVec 32 := 0x04

/-! ## Bracket expressions -/

/-- `if (c == '\\' && !(flags & FNM_NOESCAPE)) c = *pattern++`, for `c2` as for `c`. Where that
takes the terminator, the next read is beyond it. -/
def escaped (flags : BitVec 32) (c : UInt8) (pattern : List UInt8) :
    Option (UInt8 × List UInt8) :=
  if c = '\\'.toUInt8 ∧ flags &&& fnmNoescape = 0 then
    match pattern with
    | [] => none
    | c :: pattern => some (c, pattern)
  else some (c, pattern)

theorem escaped_length {flags : BitVec 32} {c d : UInt8} {pattern rest : List UInt8}
    (h : escaped flags c pattern = some (d, rest)) : rest.length ≤ pattern.length := by
  unfold escaped at h
  split at h
  · cases pattern with
    | nil => simp only [reduceCtorEq] at h
    | cons c pattern =>
      cases h
      exact Nat.le_succ _
  · cases h
    exact Nat.le_refl _

/-- `*pattern == '-' && pattern[1] != ']' && pattern[1] != EOS`: the first byte behind the dash and
what follows. -/
def rangeEnd : List UInt8 → Option (UInt8 × List UInt8)
  | dash :: c2 :: pattern =>
    if dash = '-'.toUInt8 ∧ c2 ≠ ']'.toUInt8 then some (c2, pattern) else none
  | _ => none

theorem rangeEnd_length {c2 : UInt8} {pattern rest : List UInt8}
    (h : rangeEnd pattern = some (c2, rest)) : rest.length ≤ pattern.length := by
  unfold rangeEnd at h
  split at h
  · split at h
    · cases h
      exact Nat.le_succ_of_le (Nat.le_succ _)
    · simp only [reduceCtorEq] at h
  · simp only [reduceCtorEq] at h

/-- The loop of `rangematch`: `ok` and the pattern behind the bracket, or -1 where the pattern ends
first. -/
def rangeLoop (test : UInt8) (flags : BitVec 32) (pattern : List UInt8) (ok : Bool) :
    Option (Option (Bool × List UInt8)) :=
  match pattern with
  | [] => some none
  | c :: pattern =>
    if c = ']'.toUInt8 then some (some (ok, pattern))
    else
      match _hc : escaped flags c pattern with
      | none => none
      | some (c, rest) =>
        match _hr : rangeEnd rest with
        | some (c2, behind) =>
          match _h2 : escaped flags c2 behind with
          | none => none
          | some (c2, behind) =>
            rangeLoop test flags behind
              (ok || (c.toInt8 ≤ test.toInt8 && test.toInt8 ≤ c2.toInt8))
        | none => rangeLoop test flags rest (ok || c == test)
termination_by pattern.length
decreasing_by
  · have first := escaped_length _hc
    have second := rangeEnd_length _hr
    have third := escaped_length _h2
    simp only [List.length_cons]
    omega
  · have first := escaped_length _hc
    simp only [List.length_cons]
    omega

/-- `rangematch`: what it returns, and `*newp` where it is set. -/
def rangematch (pattern : List UInt8) (test : UInt8) (flags : BitVec 32) :
    Option (Int × Option (List UInt8)) :=
  let negate := pattern.head? = some '!'.toUInt8 ∨ pattern.head? = some '^'.toUInt8
  let pattern := if negate then pattern.tail else pattern
  match rangeLoop test flags pattern false with
  | none => none
  | some none => some (-1, none)
  | some (some (ok, pattern)) =>
    some (if negate then (if ok then 0 else 1) else if ok then 1 else 0, some pattern)

section RangeLoop

variable {test : UInt8} {flags : BitVec 32}

theorem rangeLoop_close (pattern : List UInt8) (ok : Bool) :
    rangeLoop test flags (']'.toUInt8 :: pattern) ok = some (some (ok, pattern)) := by
  rw [rangeLoop, if_pos rfl]

theorem rangeLoop_cut {c : UInt8} {pattern : List UInt8} (hclose : c ≠ ']'.toUInt8)
    (hc : escaped flags c pattern = none) (ok : Bool) :
    rangeLoop test flags (c :: pattern) ok = none := by
  rw [rangeLoop, if_neg hclose]
  split
  · rfl
  · next heq => exact absurd (hc.symm.trans heq) (Option.some_ne_none _).symm

theorem rangeLoop_single {c c1 : UInt8} {pattern rest : List UInt8} (hclose : c ≠ ']'.toUInt8)
    (hc : escaped flags c pattern = some (c1, rest)) (hr : rangeEnd rest = none) (ok : Bool) :
    rangeLoop test flags (c :: pattern) ok = rangeLoop test flags rest (ok || c1 == test) := by
  rw [rangeLoop, if_neg hclose]
  split
  · next heq => exact absurd (hc.symm.trans heq) (Option.some_ne_none _)
  · next heq =>
    cases hc.symm.trans heq
    split
    · next hend => exact absurd (hr.symm.trans hend) (Option.some_ne_none _).symm
    · rfl

theorem rangeLoop_cutRange {c c1 c2 : UInt8} {pattern rest behind : List UInt8}
    (hclose : c ≠ ']'.toUInt8) (hc : escaped flags c pattern = some (c1, rest))
    (hr : rangeEnd rest = some (c2, behind)) (h2 : escaped flags c2 behind = none) (ok : Bool) :
    rangeLoop test flags (c :: pattern) ok = none := by
  rw [rangeLoop, if_neg hclose]
  split
  · rfl
  · next heq =>
    cases hc.symm.trans heq
    split
    · next hend =>
      cases hr.symm.trans hend
      split
      · rfl
      · next hlast => exact absurd (h2.symm.trans hlast) (Option.some_ne_none _).symm
    · next hend => exact absurd (hr.symm.trans hend) (Option.some_ne_none _)

theorem rangeLoop_range {c c1 c2 c3 : UInt8} {pattern rest behind last : List UInt8}
    (hclose : c ≠ ']'.toUInt8) (hc : escaped flags c pattern = some (c1, rest))
    (hr : rangeEnd rest = some (c2, behind)) (h2 : escaped flags c2 behind = some (c3, last))
    (ok : Bool) :
    rangeLoop test flags (c :: pattern) ok = rangeLoop test flags last
      (ok || (c1.toInt8 ≤ test.toInt8 && test.toInt8 ≤ c3.toInt8)) := by
  rw [rangeLoop, if_neg hclose]
  split
  · next heq => exact absurd (hc.symm.trans heq) (Option.some_ne_none _)
  · next heq =>
    cases hc.symm.trans heq
    split
    · next hend =>
      cases hr.symm.trans hend
      split
      · next hlast => exact absurd (h2.symm.trans hlast) (Option.some_ne_none _)
      · next hlast =>
        cases h2.symm.trans hlast
        rfl
    · next hend => exact absurd (hr.symm.trans hend) (Option.some_ne_none _)

end RangeLoop

theorem rangeLoop_length {test : UInt8} {flags : BitVec 32} {pattern rest : List UInt8}
    {ok result : Bool} (h : rangeLoop test flags pattern ok = some (some (result, rest))) :
    rest.length ≤ pattern.length := by
  fun_induction rangeLoop test flags pattern ok with
  | case1 ok => exact absurd (Option.some.inj h) (Option.some_ne_none _).symm
  | case2 ok pattern =>
    cases h
    exact Nat.le_succ _
  | case3 ok c pattern hclose hc => simp only [reduceCtorEq] at h
  | case4 ok c pattern hclose c1 rest1 hc c2 behind hr h2 =>
    simp only [reduceCtorEq] at h
  | case5 ok c pattern hclose c1 rest1 hc c2 behind hr c3 behind3 h2 ih =>
    have first := escaped_length hc
    have second := rangeEnd_length hr
    have third := escaped_length h2
    have left := ih h
    simp only [List.length_cons]
    omega
  | case6 ok c pattern hclose c1 rest1 hc hr ih =>
    have first := escaped_length hc
    have left := ih h
    simp only [List.length_cons]
    omega

theorem rangematch_length {pattern newp : List UInt8} {test : UInt8} {flags : BitVec 32}
    {result : Int} (h : rangematch pattern test flags = some (result, some newp)) :
    newp.length ≤ pattern.length := by
  unfold rangematch at h
  dsimp only at h
  split at h
  · simp only [reduceCtorEq] at h
  · exact absurd (congrArg Prod.snd (Option.some.inj h)) (Option.some_ne_none _).symm
  · next ok rest hloop =>
    have same : rest = newp := Option.some.inj (congrArg Prod.snd (Option.some.inj h))
    rw [← same]
    refine Nat.le_trans (rangeLoop_length hloop) ?_
    split
    · rw [List.length_tail]
      exact Nat.sub_le _ _
    · exact Nat.le_refl _

/-! ## Patterns -/

/-- The two checks of a `?` and of a bracket expression that the flags ask for. `before` is the byte
before the one at `string`, and `none` where that is `s`. -/
def reserved (flags : BitVec 32) (before : Option UInt8) (c : UInt8) : Bool :=
  (flags &&& fnmPathname ≠ 0 ∧ c = '/'.toUInt8) ∨
    (flags &&& fnmPeriod ≠ 0 ∧ c = '.'.toUInt8 ∧
      (before = none ∨ (flags &&& fnmPathname ≠ 0 ∧ before = some '/'.toUInt8)))

/-- `case '\\'`, which falls through: the byte to compare with and what follows it. -/
def literal (flags : BitVec 32) (c : UInt8) : List UInt8 → UInt8 × List UInt8
  | [] => (c, [])
  | next :: pattern =>
    if c = '\\'.toUInt8 ∧ flags &&& fnmNoescape = 0 then (next, pattern) else (c, next :: pattern)

theorem literal_length (flags : BitVec 32) (c : UInt8) (pattern : List UInt8) :
    (literal flags c pattern).2.length ≤ pattern.length := by
  unfold literal
  split
  · exact Nat.le_refl _
  · split
    · exact Nat.le_succ _
    · exact Nat.le_refl _

/-- `while (*string != EOS)`, where `found` is the call of `match`. -/
def starLoop (flags : BitVec 32) (found : List UInt8 → Option Int) : List UInt8 → Option Int
  | [] => some fnmNomatch
  | c :: string =>
    if flags &&& fnmPathname = 0 ∨ c ≠ '/'.toUInt8 then
      match found (c :: string) with
      | none => none
      | some result => if result = 0 then some 0 else starLoop flags found string
    else starLoop flags found string

/-- The loop of `match`. -/
def matchLoop (flags : BitVec 32) (pattern string : List UInt8) (before : Option UInt8) :
    Option Int :=
  match pattern with
  | [] => some (if string = [] then 0 else fnmNomatch)
  | c :: pattern =>
    if c = '?'.toUInt8 then
      match string with
      | [] => some fnmNomatch
      | x :: string =>
        if reserved flags before x then some fnmNomatch
        else matchLoop flags pattern string (some x)
    else if c = '*'.toUInt8 then
      if pattern.dropWhile (· = '*'.toUInt8) = [] then
        some (if flags &&& fnmPathname ≠ 0 ∧ '/'.toUInt8 ∈ string then fnmNomatch else 0)
      else
        starLoop flags
          (fun string => matchLoop flags (pattern.dropWhile (· = '*'.toUInt8)) string none) string
    else if c = '['.toUInt8 then
      match string with
      | [] => some fnmNomatch
      | x :: string =>
        if reserved flags before x then some fnmNomatch
        else
          match _h : rangematch pattern x flags with
          | none => none
          | some (result, newp) =>
            if result = 0 then some fnmNomatch
            else
              -- `pattern` is what `rangematch` set or still the bracket; the loop does `pattern++`
              match _hp : newp.getD (c :: pattern) with
              | [] => none
              | _ :: pattern => matchLoop flags pattern string (some x)
    else
      match string with
      | [] => some fnmNomatch
      | x :: string =>
        if x ≠ (literal flags c pattern).1 then some fnmNomatch
        else matchLoop flags (literal flags c pattern).2 string (some x)
termination_by pattern.length
decreasing_by
  · exact Nat.lt_succ_self _
  · exact Nat.lt_succ_of_le (List.dropWhile_suffix _).length_le
  · cases newp with
    | none =>
      obtain ⟨-, rfl⟩ := List.cons.inj _hp
      exact Nat.lt_succ_self _
    | some newp =>
      have shorter := rangematch_length _h
      rw [Option.getD_some] at _hp
      rw [_hp, List.length_cons] at shorter
      simp only [List.length_cons]
      omega
  · exact Nat.lt_succ_of_le (literal_length flags c pattern)

/-- `match`. -/
def matchPattern (pattern string : CString) (flags : BitVec 32) : Option Int :=
  matchLoop flags pattern.bytes string.bytes none

/-- `fnmatch`, which may be given null pointers. -/
def fnmatch (pattern string : Option CString) (flags : BitVec 32) : Option Int :=
  match pattern, string with
  | some pattern, some string => matchPattern pattern string flags
  | _, _ => some fnmNomatch

end Unics
