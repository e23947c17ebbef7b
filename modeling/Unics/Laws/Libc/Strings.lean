import Mathlib.Order.Bounds.Defs
import Unics.Libc.Strings

/-!
# Lines and substrings
-/

namespace Unics

open Unics.Lib

/-!
## A string in an array

Where a string lies in an array with its terminator, reading it character by character goes on up to
the terminator and no further. The string at a later place is what is left of it.
-/

/-- From place `p` on, the array holds the rest of a line and its terminator. -/
structure LineAt (size : Nat) (buf : Buffer) (p : Nat) (rest : List UInt8) : Prop where
  bytes : bytesAt buf p rest.length = rest
  inside : p + rest.length < size
  stop : buf (p + rest.length) = 0
  noNul : (0 : UInt8) ∉ rest

theorem lineAt_start {size : Nat} {buf : Buffer} {line : CString}
    (h : CString.ofBuffer size buf = some line) : LineAt size buf 0 line.bytes := by
  obtain ⟨hlen, hend⟩ := CString.ofBuffer_end h
  refine ⟨?_, by rw [Nat.zero_add]; exact hlen, by rw [Nat.zero_add]; exact hend, line.noNul⟩
  rw [bytesAt, ← List.range_eq_range']
  exact CString.ofBuffer_bytes h

section LineAt

variable {size p : Nat} {buf : Buffer} {rest front back : List UInt8}

theorem LineAt.head (h : LineAt size buf p rest) : buf p = rest.head?.getD 0 := by
  cases rest with
  | nil => exact h.stop
  | cons c rest => exact (List.cons.inj ((bytesAt_succ buf p rest.length).symm.trans h.bytes)).1

theorem LineAt.start_lt (h : LineAt size buf p rest) : p < size :=
  Nat.lt_of_le_of_lt (Nat.le_add_right p rest.length) h.inside

theorem LineAt.load (h : LineAt size buf p rest) :
    loadChar size buf p = some (rest.head?.getD 0) := by
  rw [loadChar_of_lt buf h.start_lt, h.head]

theorem LineAt.ne_zero_of_lt (h : LineAt size buf p rest) {i : Nat} (hi : i < rest.length) :
    buf (p + i) ≠ 0 := by
  intro hzero
  refine h.noNul ?_
  rw [← h.bytes, ← hzero]
  exact List.mem_map.mpr ⟨p + i, List.mem_range'_1.mpr ⟨by omega, by omega⟩, rfl⟩

theorem LineAt.take (h : LineAt size buf p rest) {n : Nat} (hn : n ≤ rest.length) :
    bytesAt buf p n = rest.take n := by
  obtain ⟨k, hk⟩ := Nat.exists_eq_add_of_le hn
  have bytes := h.bytes
  rw [hk, bytesAt_add] at bytes
  rw [← bytes, List.take_left' (length_bytesAt buf p n)]

/-- The terminator is read where the line ends, and only there. -/
theorem LineAt.head_eq_zero_iff (h : LineAt size buf p rest) :
    rest.head?.getD 0 = 0 ↔ rest = [] := by
  cases rest with
  | nil => exact iff_of_true rfl rfl
  | cons c rest =>
    refine iff_of_false (fun hzero => h.noNul ?_) (List.cons_ne_nil c rest)
    rw [show c = 0 from hzero]
    exact List.mem_cons_self

theorem LineAt.head_ne (h : LineAt size buf p rest) (hrest : rest ≠ []) :
    ¬ rest.head?.getD 0 = 0 :=
  mt h.head_eq_zero_iff.mp hrest

theorem LineAt.load_end (h : LineAt size buf p rest) :
    loadChar size buf (p + rest.length) = some 0 := by
  rw [loadChar_of_lt buf h.inside, h.stop]

theorem LineAt.advance (h : LineAt size buf p (front ++ back)) :
    LineAt size buf (p + front.length) back := by
  have bytes := h.bytes
  have inside := h.inside
  have stop := h.stop
  rw [List.length_append] at bytes inside stop
  rw [bytesAt_add] at bytes
  rw [← Nat.add_assoc] at inside stop
  exact ⟨(List.append_inj bytes (length_bytesAt ..)).2, inside, stop,
    fun hmem => h.noNul (List.mem_append_right front hmem)⟩

theorem LineAt.tail {c : UInt8} (h : LineAt size buf p (c :: rest)) :
    LineAt size buf (p + 1) rest := by
  have here : LineAt size buf p ([c] ++ rest) := h
  exact here.advance

theorem LineAt.ne_zero {c : UInt8} (h : LineAt size buf p (c :: rest)) : c ≠ 0 := by
  rintro rfl
  exact h.noNul List.mem_cons_self

/-- A store before the rest of the line leaves it as it is. -/
theorem LineAt.update (h : LineAt size buf p rest) {i : Nat} (hi : i < p) (c : UInt8) :
    LineAt size (Function.update buf i c) p rest := by
  refine ⟨?_, h.inside, ?_, h.noNul⟩
  · rw [bytesAt_update (.inl hi)]
    exact h.bytes
  · rw [Function.update_of_ne (by omega)]
    exact h.stop

theorem LineAt.skip (h : LineAt size buf p (front ++ back)) {test : UInt8 → Bool}
    (hfront : ∀ c ∈ front, test c = true) (hback : test (back.head?.getD 0) = false) :
    skipWhile size buf test p = some (p + front.length) := by
  induction front generalizing p with
  | nil =>
    have start := h.head
    rw [List.nil_append] at start
    rw [skipWhile, if_pos (h.start_lt), start, hback]
    rfl
  | cons c front ih =>
    have next : LineAt size buf (p + 1) (front ++ back) := h.tail
    have start : buf p = c := h.head
    have count : p + (c :: front).length = p + 1 + front.length := by
      rw [List.length_cons]
      omega
    rw [skipWhile, if_pos (h.start_lt), start,
      if_pos (hfront c List.mem_cons_self), count]
    exact ih next fun d hd => hfront d (List.mem_cons_of_mem c hd)

/-- A scan that nothing stops goes to the end of the line. -/
theorem LineAt.skip_all (h : LineAt size buf p rest) {test : UInt8 → Bool}
    (hrest : ∀ c ∈ rest, test c = true) (hnul : test 0 = false) :
    skipWhile size buf test p = some (p + rest.length) := by
  rw [← List.append_nil rest] at h
  exact h.skip hrest hnul

end LineAt

/-!
## The first occurrence

`strncmp` with the length of a string as its count compares that string with what stands at the
other place, and goes past no terminator. So `strstr` tries one place after the other and stops at
the first one where the needle stands, or at the end of the haystack.
-/

section Compare

variable {hsize nsize p q : Nat} {haystack needle : Buffer} {xs ys : List UInt8}

theorem strlen_eq (h : LineAt nsize needle q ys) : strlen nsize needle q = some ys.length := by
  have skipped : skipWhile nsize needle (· ≠ 0) q = some (q + ys.length) := by
    refine h.skip_all (fun c hc => decide_eq_true ?_) rfl
    rintro rfl
    exact h.noNul hc
  rw [strlen, skipped]
  exact congrArg some (Nat.add_sub_cancel_left q ys.length)

/-- The difference is zero where the two characters, or terminators, are the same. -/
theorem charDifference_ends (hx : LineAt hsize haystack p xs) (hy : LineAt nsize needle q ys) :
    Ends (charDifference hsize haystack nsize needle p q) fun order =>
      order = 0 ↔ xs.head?.getD 0 = ys.head?.getD 0 := by
  rw [charDifference, hx.load, hy.load]
  refine ends_some.mpr ?_
  rw [Int.sub_eq_zero, Int.natCast_inj, UInt8.toNat_inj]

/-- The count ends the comparison with the last character of the needle at the latest. -/
theorem strncmpLoop_ends {d : UInt8} (hx : LineAt hsize haystack p xs)
    (hy : LineAt nsize needle q (d :: ys)) :
    Ends (strncmpLoop hsize haystack nsize needle ys.length p q) fun order =>
      order = 0 ↔ d :: ys <+: xs := by
  induction ys generalizing d p q xs with
  | nil =>
    refine (charDifference_ends hx hy).mono fun order horder => horder.trans ?_
    cases xs with
    | nil => exact iff_of_false hy.ne_zero.symm (List.cons_ne_nil d [] ∘ List.prefix_nil.mp)
    | cons c xs =>
      rw [List.cons_prefix_cons, and_iff_left List.nil_prefix]
      exact eq_comm
  | cons e ys ih =>
    rw [List.length_cons, strncmpLoop, hx.load]
    simp only [Option.bind_eq_bind, Option.bind_some]
    cases xs with
    | nil =>
      rw [List.head?_nil, Option.getD_none, if_pos rfl]
      refine (charDifference_ends hx hy).mono fun order horder => horder.trans ?_
      exact iff_of_false hy.ne_zero.symm (List.cons_ne_nil d _ ∘ List.prefix_nil.mp)
    | cons c xs =>
      rw [List.head?_cons, Option.getD_some, if_neg hx.ne_zero, hy.load]
      simp only [Option.bind_some, List.head?_cons, Option.getD_some]
      by_cases hsame : c = d
      · rw [if_pos hsame]
        refine (ih hx.tail hy.tail).mono fun order horder => ?_
        rw [horder, List.cons_prefix_cons, and_iff_right hsame.symm]
      · rw [if_neg hsame]
        refine (charDifference_ends hx hy).mono fun order horder => horder.trans ?_
        exact iff_of_false hsame fun h => hsame (List.cons_prefix_cons.mp h).1.symm

/-- Where the needle stands first, if it stands anywhere. -/
def FirstAt (ys xs : List UInt8) : Option Nat → Prop
  | none => ∀ k, ¬ ys <+: xs.drop k
  | some k => ys <+: xs.drop k ∧ ∀ j < k, ¬ ys <+: xs.drop j

theorem FirstAt.here (h : ys <+: xs) : FirstAt ys xs (some 0) :=
  ⟨h, fun j hj => absurd hj (Nat.not_lt_zero j)⟩

/-- The needle does not stand at the first place: it stands where it stands behind. -/
theorem FirstAt.later {c : UInt8} {r : Option Nat} (hhere : ¬ ys <+: c :: xs)
    (h : FirstAt ys xs r) : FirstAt ys (c :: xs) (r.map (· + 1)) := by
  cases r with
  | none =>
    intro k
    cases k with
    | zero => exact hhere
    | succ k => exact h k
  | some k =>
    refine ⟨h.1, fun j hj => ?_⟩
    cases j with
    | zero => exact hhere
    | succ j => exact h.2 j (Nat.lt_of_succ_lt_succ hj)

theorem infix_iff_drop : ys <:+: xs ↔ ∃ k, ys <+: xs.drop k := by
  rw [List.infix_iff_prefix_suffix]
  constructor
  · rintro ⟨l, hprefix, hsuffix⟩
    rw [List.suffix_iff_eq_drop.mp hsuffix] at hprefix
    exact ⟨_, hprefix⟩
  · rintro ⟨k, hk⟩
    exact ⟨xs.drop k, hk, List.drop_suffix k xs⟩

theorem FirstAt.le_length {k : Nat} (h : FirstAt ys xs (some k)) : k ≤ xs.length := by
  by_contra hlong
  have stands := h.1
  rw [List.drop_of_length_le (by omega)] at stands
  rw [List.prefix_nil.mp stands] at h
  exact h.2 0 (by omega) List.nil_prefix

theorem FirstAt.eq_some_iff {r : Option Nat} (h : FirstAt ys xs r) (p : Nat) :
    r = some p ↔ IsLeast {p | p ≤ xs.length ∧ ys <+: xs.drop p} p := by
  constructor
  · rintro rfl
    exact ⟨⟨h.le_length, h.1⟩, fun k hk => Nat.not_lt.mp fun hlt => h.2 k hlt hk.2⟩
  · rintro ⟨⟨-, hstands⟩, hleast⟩
    cases r with
    | none => exact absurd hstands (h p)
    | some k =>
      have before : p ≤ k := hleast ⟨h.le_length, h.1⟩
      have behind : ¬ p < k := fun hlt => h.2 p hlt hstands
      exact congrArg some (by omega)

theorem FirstAt.eq_none_iff {r : Option Nat} (h : FirstAt ys xs r) :
    r = none ↔ ¬ ys <:+: xs := by
  rw [infix_iff_drop]
  cases r with
  | none => exact iff_of_true rfl (not_exists.mpr h)
  | some k => exact iff_of_false (Option.some_ne_none k) (not_not.mpr ⟨k, h.1⟩)

theorem strstrLoop_ends {d : UInt8} (hx : LineAt hsize haystack p xs)
    (hy : LineAt nsize needle 0 (d :: ys)) :
    Ends (strstrLoop hsize haystack nsize needle (d :: ys).length p) fun r =>
      ∃ k, FirstAt (d :: ys) xs k ∧ r = k.map (p + ·) := by
  induction xs generalizing p with
  | nil =>
    rw [strstrLoop, dif_pos hx.start_lt, hx.head]
    refine ends_some.mpr ⟨none, fun k hk => ?_, rfl⟩
    rw [List.drop_nil] at hk
    exact List.cons_ne_nil d ys (List.prefix_nil.mp hk)
  | cons c xs ih =>
    have next : Ends (strstrLoop hsize haystack nsize needle (d :: ys).length (p + 1)) fun r =>
        ∃ k, FirstAt (d :: ys) xs k ∧ r = k.map (p + 1 + ·) := ih hx.tail
    have onwards (hhere : ¬ d :: ys <+: c :: xs) :
        Ends (strstrLoop hsize haystack nsize needle (d :: ys).length (p + 1)) fun r =>
          ∃ k, FirstAt (d :: ys) (c :: xs) k ∧ r = k.map (p + ·) := by
      refine next.mono ?_
      rintro r ⟨k, hk, rfl⟩
      refine ⟨k.map (· + 1), hk.later hhere, ?_⟩
      rw [Option.map_map]
      refine congrArg (Option.map · k) (funext fun i => ?_)
      show p + 1 + i = p + (i + 1)
      omega
    rw [strstrLoop, dif_pos hx.start_lt, hx.head, List.head?_cons, Option.getD_some,
      if_neg hx.ne_zero, hy.load]
    simp only [Option.bind_eq_bind, Option.bind_some, List.head?_cons, Option.getD_some]
    by_cases hsame : c = d
    · rw [if_pos hsame]
      refine (strncmpLoop_ends hx hy).bind fun order horder => ?_
      by_cases hzero : order = 0
      · rw [if_pos hzero]
        exact ends_some.mpr ⟨some 0, .here (horder.mp hzero), rfl⟩
      · rw [if_neg hzero]
        exact onwards (mt horder.mpr hzero)
    · rw [if_neg hsame]
      exact onwards fun h => hsame (List.cons_prefix_cons.mp h).1.symm

end Compare

/-- For two strings that fill their arrays: `strstr` reads nothing behind either terminator, returns
the least place where the needle stands, and null exactly if it stands nowhere. -/
theorem strstr_first (haystack needle : Buffer) (s t : CString)
    (hs : CString.ofBuffer (s.strlen + 1) haystack = some s)
    (ht : CString.ofBuffer (t.strlen + 1) needle = some t) :
    Ends (strstr (s.strlen + 1) haystack (t.strlen + 1) needle) fun r =>
      (∀ p, r = some p ↔ IsLeast {p | p ≤ s.strlen ∧ t.bytes <+: s.bytes.drop p} p) ∧
        (r = none ↔ ¬ t.bytes <:+: s.bytes) := by
  have hx := lineAt_start hs
  have hy := lineAt_start ht
  have first : Ends (strstr (s.strlen + 1) haystack (t.strlen + 1) needle)
      (FirstAt t.bytes s.bytes) := by
    rw [strstr, strlen_eq hy]
    simp only [Option.bind_eq_bind, Option.bind_some]
    cases hneedle : t.bytes with
    | nil =>
      rw [List.length_nil, if_pos rfl]
      exact ends_some.mpr (.here List.nil_prefix)
    | cons d ys =>
      rw [hneedle] at hy
      have some_char : ¬ (d :: ys).length = 0 := Nat.succ_ne_zero ys.length
      rw [if_neg some_char]
      refine (strstrLoop_ends hx hy).mono ?_
      rintro r ⟨k, hk, rfl⟩
      simp only [Nat.zero_add, Option.map_id_fun']
      exact hk
  exact first.mono fun r hr => ⟨hr.eq_some_iff, hr.eq_none_iff⟩

/-- The haystack "aabab" and the needle "ab". -/
theorem strstr_first_twice :
    Ends (strstr 6 (fun i => [97, 97, 98, 97, 98, 0].getD i 0) 3
        (fun i => [97, 98, 0].getD i 0)) fun r =>
      (∀ p, r = some p ↔
        IsLeast {p | p ≤ 5 ∧ ([97, 98] : List UInt8) <+: [97, 97, 98, 97, 98].drop p} p) ∧
        (r = none ↔ ¬ ([97, 98] : List UInt8) <:+: [97, 97, 98, 97, 98]) :=
  strstr_first (fun i => [97, 97, 98, 97, 98, 0].getD i 0) (fun i => [97, 98, 0].getD i 0)
    ⟨[97, 97, 98, 97, 98], by decide⟩ ⟨[97, 98], by decide⟩ (by decide) (by decide)

end Unics
