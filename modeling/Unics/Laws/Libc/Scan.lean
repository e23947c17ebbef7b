import Unics.Laws.Libc.Vprintf

/-!
# Where a format ends

`vprintf` and `vsprintf` take a literal character or a directive in each turn, whatever the
arguments are. A turn leaves less of the format, so there are at most as many turns as characters.
But a format that ends inside a directive, behind its flags, width, precision or length, has its
terminator taken for a letter, and the next turn begins behind it.
-/

namespace Unics

open Unics.Lib

/-! ## Turns of a format -/

section Format

variable (next : List UInt8 → Option (List UInt8))

/-- What a turn leaves of a format, where `next` is what the directive behind a `%` leaves. -/
def formatTurn : List UInt8 → Option (List UInt8)
  | [] => none
  | c :: ptr => if c = 37 ∧ ptr ≠ [] then next ptr else some ptr

/-- A format that ends inside a directive: at its end stands `%` and a text that is `inside`. -/
inductive EndsInside (inside : List UInt8 → Prop) : List UInt8 → Prop
  | cut {ptr : List UInt8} : ptr ≠ [] → inside ptr → EndsInside inside (37 :: ptr)
  | literal {c : UInt8} {ptr : List UInt8} : c ≠ 37 → EndsInside inside ptr →
    EndsInside inside (c :: ptr)
  | directive {ptr rest : List UInt8} : next ptr = some rest → EndsInside inside rest →
    EndsInside inside (37 :: ptr)

variable {next} {inside : List UInt8 → Prop}

/-- The turns come to the terminator, if the format does not end inside a directive. -/
theorem turns_format_iff (hinside : ∀ ptr, inside ptr ↔ next ptr = none)
    (hnext : ∀ ptr rest, next ptr = some rest → rest.length < ptr.length) {n : ℕ}
    {format : List UInt8} (hn : format.length ≤ n) :
    turns List.isEmpty (formatTurn next) n format = some [] ↔ ¬ EndsInside next inside format := by
  induction n generalizing format with
  | zero =>
    obtain rfl := List.length_eq_zero_iff.mp (Nat.le_zero.mp hn)
    exact iff_of_true rfl fun h => nomatch h
  | succ n ih =>
    cases format with
    | nil => exact iff_of_true rfl fun h => nomatch h
    | cons c ptr =>
      have short : ptr.length ≤ n := Nat.le_of_succ_le_succ hn
      rw [turns_succ rfl, formatTurn]
      by_cases hpercent : c = 37 ∧ ptr ≠ []
      · obtain ⟨rfl, hptr⟩ := hpercent
        rw [if_pos ⟨rfl, hptr⟩]
        cases hrest : next ptr with
        | none =>
          refine iff_of_false (Option.some_ne_none [] ·.symm) (not_not.mpr ?_)
          exact .cut hptr ((hinside ptr).mpr hrest)
        | some rest =>
          have less := hnext ptr rest hrest
          refine (ih (by omega)).trans (not_congr ?_)
          constructor
          · exact .directive hrest
          · rintro (⟨-, h⟩ | ⟨hc, -⟩ | ⟨h, hends⟩)
            · exact absurd (hrest.symm.trans ((hinside ptr).mp h)) (Option.some_ne_none rest)
            · exact absurd rfl hc
            · obtain rfl := Option.some.inj (hrest.symm.trans h)
              exact hends
      · rw [if_neg hpercent]
        refine (ih short).trans (not_congr ?_)
        constructor
        · intro h
          cases ptr with
          | nil => exact nomatch h
          | cons d ptr => exact .literal (fun hc => hpercent ⟨hc, List.cons_ne_nil d ptr⟩) h
        · rintro (⟨hptr, -⟩ | ⟨-, h⟩ | ⟨h, -⟩)
          · exact absurd ⟨rfl, hptr⟩ hpercent
          · exact h
          · have hptr : ptr = [] := by
              by_contra hptr
              exact hpercent ⟨rfl, hptr⟩
            rw [hptr] at h
            exact absurd (hnext [] _ h) (Nat.not_lt_zero _)

end Format

/-! ## `vprintf` -/

def skipNumber (ptr : List UInt8) : List UInt8 :=
  if ptr.head? = some 42 then ptr.tail else ptr.dropWhile isFormatDigit

def skipPrecision (ptr : List UInt8) : List UInt8 :=
  if ptr.head? = some 46 then skipNumber ptr.tail else ptr

/-- What flags, width, precision and length leave. -/
def skipSpec (ptr : List UInt8) : List UInt8 :=
  parseLength (skipPrecision (skipNumber (ptr.dropWhile isFlag)))

/-- What the letter of a conversion leaves. -/
def skipLetter (c : UInt8) (ptr : List UInt8) : List UInt8 :=
  if c = 122 ∧ ptr.head? = some 117 then ptr.tail else ptr

def vprintfNext (ptr : List UInt8) : Option (List UInt8) :=
  match skipSpec ptr with
  | [] => none
  | c :: ptr => some (skipLetter c ptr)

section Screen

theorem parseFlags_snd (flags : Flags) (ptr : List UInt8) :
    (parseFlags flags ptr).2 = ptr.dropWhile isFlag := by
  induction ptr generalizing flags with
  | nil => rfl
  | cons c ptr ih =>
    rw [parseFlags, List.dropWhile_cons]
    split
    · exact ih _
    · rfl

theorem parseDigits_snd (num : BitVec 32) (ptr : List UInt8) :
    (parseDigits num ptr).2 = ptr.dropWhile isFormatDigit := by
  induction ptr generalizing num with
  | nil => rfl
  | cons c ptr ih =>
    rw [parseDigits, List.dropWhile_cons]
    split
    · exact ih _
    · rfl

theorem parseWidth_ptr (flags : Flags) (ptr : List UInt8) (args : VaList) :
    (parseWidth flags ptr args).2.2.1 = skipNumber ptr := by
  unfold parseWidth skipNumber
  split
  · dsimp only
    split
    · rfl
    · rfl
  · exact parseDigits_snd 0 ptr

theorem parsePrecision_ptr (ptr : List UInt8) (args : VaList) :
    (parsePrecision ptr args).2.1 = skipPrecision ptr := by
  unfold parsePrecision skipPrecision
  split
  · unfold skipNumber
    dsimp only
    split
    · rfl
    · exact parseDigits_snd 0 ptr.tail
  · rfl

/-- What is left of a format does not depend on the arguments. -/
theorem parseDirective_ptr (ptr : List UInt8) (args : VaList) :
    (parseDirective ptr args).2.1 = skipSpec ptr := by
  unfold parseDirective skipSpec
  dsimp only
  rw [parsePrecision_ptr, parseWidth_ptr, parseFlags_snd]

theorem ite_ptr {p : Prop} [Decidable p] {x y : Field × List UInt8 × VaList} {ptr : List UInt8}
    (hx : x.2.1 = ptr) (hy : y.2.1 = ptr) : (if p then x else y).2.1 = ptr := by
  split
  · exact hx
  · exact hy

theorem vprintfConv_ptr (text : BitVec 32 → CString) (fixed : BitVec 64 → CString) (d : Directive)
    (c : UInt8) (ptr : List UInt8) (args : VaList) :
    (vprintfConv text fixed d c ptr args).2.1 = skipLetter c ptr := by
  by_cases hsize : c = 122
  · unfold vprintfConv skipLetter
    rw [if_pos hsize]
    split
    · next h => rw [if_pos ⟨hsize, h⟩]
    · next h => rw [if_neg fun hboth => h hboth.2]
  · have behind : skipLetter c ptr = ptr := if_neg fun hboth => hsize hboth.1
    rw [behind, vprintfConv, if_neg hsize]
    -- every other letter leaves what is behind it
    repeat refine ite_ptr rfl ?_
    rfl

theorem vprintfTurn_ptr (text : BitVec 32 → CString) (fixed : BitVec 64 → CString) (s : Vprintf) :
    (vprintfTurn text fixed s).map Vprintf.ptr = formatTurn vprintfNext s.ptr := by
  obtain ⟨ptr, args, out, charsWritten⟩ := s
  cases ptr with
  | nil => rfl
  | cons c ptr =>
    unfold vprintfTurn formatTurn
    dsimp only
    split
    · rw [vprintfNext, ← parseDirective_ptr ptr args]
      cases hptr : (parseDirective ptr args).2.1 with
      | nil => rfl
      | cons c rest =>
        rw [Option.map_some]
        exact congrArg some (vprintfConv_ptr text fixed _ c rest _)
    · rfl

end Screen

/-! What is skipped is what may stand in front of a conversion. -/

/-- The digits in front. -/
def leadingDigits (ptr : List UInt8) : Width where
  digits := ptr.takeWhile isFormatDigit
  isDigit _ h := List.mem_takeWhile_imp h

theorem exists_width {ptr : List UInt8} (h : ptr.head? ≠ some 48) :
    ∃ part : Vprintf.WidthPart, ptr = part.format ++ skipNumber ptr := by
  unfold skipNumber
  split
  · next hstar => exact ⟨.star 0, List.eq_cons_of_mem_head? hstar⟩
  · have noFlag : (leadingDigits ptr).digits.head? ≠ some 48 := by
      intro hzero
      have first : ptr.head?.filter isFormatDigit = some 48 := List.head?_takeWhile.symm.trans hzero
      exact h (Option.filter_eq_some_iff.mp first).1
    exact ⟨.digits (leadingDigits ptr) noFlag, List.takeWhile_append_dropWhile.symm⟩

theorem exists_precision (ptr : List UInt8) :
    ∃ part : Vprintf.PrecisionPart, ptr = part.format ++ skipPrecision ptr := by
  unfold skipPrecision skipNumber
  split
  · next hpoint =>
    have whole := List.eq_cons_of_mem_head? hpoint
    split
    · next hstar =>
      refine ⟨.star 0, whole.trans ?_⟩
      exact congrArg (46 :: ·) (List.eq_cons_of_mem_head? hstar)
    · refine ⟨.digits (leadingDigits ptr.tail), whole.trans ?_⟩
      exact congrArg (46 :: ·) List.takeWhile_append_dropWhile.symm
  · exact ⟨.none, rfl⟩

theorem exists_length (ptr : List UInt8) :
    ∃ part : Vprintf.LengthPart, ptr = part.format ++ parseLength ptr := by
  unfold parseLength
  split
  · next h => exact ⟨.l, List.eq_cons_of_mem_head? h⟩
  · split
    · next h => exact ⟨.h, List.eq_cons_of_mem_head? h⟩
    · exact ⟨.none, rfl⟩

theorem exists_spec (ptr : List UInt8) :
    ∃ spec : Vprintf.Spec, ptr = spec.format ++ skipSpec ptr := by
  have noFlag : (ptr.dropWhile isFlag).head? ≠ some 48 := by
    intro hzero
    have last := List.head?_dropWhile_not isFlag ptr
    rw [hzero] at last
    exact absurd last (by decide)
  obtain ⟨width, hwidth⟩ := exists_width noFlag
  obtain ⟨precision, hprecision⟩ := exists_precision (skipNumber (ptr.dropWhile isFlag))
  obtain ⟨length, hlength⟩ := exists_length (skipPrecision (skipNumber (ptr.dropWhile isFlag)))
  refine ⟨{ flags := ptr.takeWhile isFlag, areFlags := fun c h => List.mem_takeWhile_imp h,
            width, precision, length }, ?_⟩
  rw [Vprintf.Spec.format, List.append_assoc, List.append_assoc, List.append_assoc, skipSpec,
    ← hlength, ← hprecision, ← hwidth, List.takeWhile_append_dropWhile]

theorem skipSpec_eq_nil_iff (ptr : List UInt8) :
    skipSpec ptr = [] ↔ ∃ spec : Vprintf.Spec, ptr = spec.format := by
  constructor
  · intro h
    obtain ⟨spec, hspec⟩ := exists_spec ptr
    rw [h, List.append_nil] at hspec
    exact ⟨spec, hspec⟩
  · rintro ⟨spec, rfl⟩
    have nothing : Vprintf.Avoids Vprintf.inSpec [] := fun c h => absurd h (Option.not_mem_none c)
    have parsed := Vprintf.parseDirective_append spec nothing (Stream'.const 0)
    rw [List.append_nil] at parsed
    rw [← parseDirective_ptr spec.format (spec.words ++ₛ Stream'.const 0), parsed]

theorem vprintfNext_eq_none_iff (ptr : List UInt8) :
    (∃ spec : Vprintf.Spec, ptr = spec.format) ↔ vprintfNext ptr = none := by
  rw [← skipSpec_eq_nil_iff, vprintfNext]
  cases skipSpec ptr with
  | nil => exact iff_of_true rfl rfl
  | cons c rest => exact iff_of_false (List.cons_ne_nil c rest) (Option.some_ne_none _)

theorem length_vprintfNext {ptr rest : List UInt8} (h : vprintfNext ptr = some rest) :
    rest.length < ptr.length := by
  obtain ⟨spec, hspec⟩ := exists_spec ptr
  have whole := congrArg List.length hspec
  rw [List.length_append] at whole
  rw [vprintfNext] at h
  cases hskip : skipSpec ptr with
  | nil =>
    rw [hskip] at h
    exact absurd h.symm (Option.some_ne_none rest)
  | cons c behind =>
    rw [hskip] at h whole
    have letter : (skipLetter c behind).length ≤ behind.length := by
      unfold skipLetter
      split
      · rw [List.length_tail]
        exact Nat.sub_le _ _
      · exact le_refl _
    rw [← Option.some.inj h]
    rw [List.length_cons] at whole
    omega

/-! ## `vsprintf` -/

/-- What the digits of a width and a letter leave. -/
def vsprintfNext (ptr : List UInt8) : Option (List UInt8) :=
  match ptr.dropWhile isFormatDigit with
  | [] => none
  | _ :: ptr => some ptr

theorem vsprintfNext_eq_none_iff (ptr : List UInt8) :
    (∀ c ∈ ptr, isFormatDigit c = true) ↔ vsprintfNext ptr = none := by
  rw [← List.dropWhile_eq_nil_iff, vsprintfNext]
  cases ptr.dropWhile isFormatDigit with
  | nil => exact iff_of_true rfl rfl
  | cons c rest => exact iff_of_false (List.cons_ne_nil c rest) (Option.some_ne_none _)

theorem length_vsprintfNext {ptr rest : List UInt8} (h : vsprintfNext ptr = some rest) :
    rest.length < ptr.length := by
  have short := (List.dropWhile_sublist (isFormatDigit ·) (l := ptr)).length_le
  rw [vsprintfNext] at h
  cases hskip : ptr.dropWhile isFormatDigit with
  | nil =>
    rw [hskip] at h
    exact absurd h.symm (Option.some_ne_none rest)
  | cons c behind =>
    rw [hskip] at h short
    rw [← Option.some.inj h]
    exact short

section Buffer

variable {σ : Type} (put : σ → UInt8 → σ) (conv : UInt8 → σ → σ)

/-- A turn of `vsprintf`, where `put` stores a character and `conv` stands for the switch, whatever
it does with the arguments. -/
def vsprintfTurn : List UInt8 × σ → Option (List UInt8 × σ)
  | ([], _) => none
  | (c :: ptr, s) =>
    if c ≠ 37 ∨ ptr = [] then some (ptr, put s c)
    else
      match ptr.dropWhile isFormatDigit with
      | [] => none
      | c :: ptr => some (ptr, conv c s)

/-- The turns, at most as many as the format is long. -/
def vsprintfTurns (format : List UInt8) (s : σ) : Option (List UInt8 × σ) :=
  turns (fun t => t.1.isEmpty) (vsprintfTurn put conv) format.length (format, s)

theorem vsprintfTurn_fst (t : List UInt8 × σ) :
    (vsprintfTurn put conv t).map Prod.fst = formatTurn vsprintfNext t.1 := by
  obtain ⟨ptr, s⟩ := t
  cases ptr with
  | nil => rfl
  | cons c ptr =>
    unfold vsprintfTurn formatTurn vsprintfNext
    dsimp only
    by_cases hplain : c ≠ 37 ∨ ptr = []
    · rw [if_pos hplain, if_neg (by tauto)]
      rfl
    · rw [if_neg hplain, if_pos (by tauto)]
      cases ptr.dropWhile isFormatDigit with
      | nil => rfl
      | cons c rest => rfl

end Buffer

/-- A character stored in the output, unless an argument was missing. -/
def putPrinting (s : Option Printing) (c : UInt8) : Option Printing :=
  s.map fun printing => (printing.1 ++ [c], printing.2)

/-- The switch of `vsprintf`, unless an argument was missing. -/
def convPrinting (c : UInt8) (s : Option Printing) : Option Printing :=
  s.bind fun printing => vsprintfConv c printing.1 printing.2

theorem vsprintfLoop_width (format dst : List UInt8) (args : List Arg) :
    vsprintfLoop true format dst args =
      match format.dropWhile isFormatDigit with
      | [] => none
      | c :: format => (vsprintfConv c dst args).bind fun printing =>
        vsprintfLoop false format printing.1 printing.2 := by
  induction format with
  | nil => rfl
  | cons c format ih =>
    rw [vsprintfLoop, List.dropWhile_cons]
    split
    · exact ih
    · rfl

/-- `vsprintf` takes these turns. -/
theorem vsprintfLoop_eq_turns {n : ℕ} {format : List UInt8} (hn : format.length ≤ n)
    (s : Option Printing) :
    (turns (fun t => t.1.isEmpty) (vsprintfTurn putPrinting convPrinting) n (format, s)).bind
        Prod.snd =
      s.bind fun printing => vsprintfLoop false format printing.1 printing.2 := by
  induction n generalizing format s with
  | zero =>
    obtain rfl := List.length_eq_zero_iff.mp (Nat.le_zero.mp hn)
    cases s with
    | none => rfl
    | some printing => rfl
  | succ n ih =>
    cases format with
    | nil =>
      cases s with
      | none => rfl
      | some printing => rfl
    | cons c ptr =>
      have short : ptr.length ≤ n := Nat.le_of_succ_le_succ hn
      rw [turns_succ rfl, vsprintfTurn]
      by_cases hplain : c ≠ 37 ∨ ptr = []
      · rw [if_pos hplain]
        refine (ih short _).trans ?_
        cases s with
        | none => rfl
        | some printing => exact (if_pos hplain).symm
      · have inside : ∀ printing : Printing, vsprintfLoop false (c :: ptr) printing.1 printing.2 =
            vsprintfLoop true ptr printing.1 printing.2 := fun printing => if_neg hplain
        have less := (List.dropWhile_sublist (isFormatDigit ·) (l := ptr)).length_le
        simp only [if_neg hplain, inside, vsprintfLoop_width]
        cases hskip : ptr.dropWhile isFormatDigit with
        | nil =>
          cases s with
          | none => rfl
          | some printing => rfl
        | cons d rest =>
          rw [hskip, List.length_cons] at less
          refine (ih (by omega) _).trans ?_
          cases s with
          | none => rfl
          | some printing => rfl

/-! ## The terminator -/

/-- Whatever the arguments are, `vprintf` and `vsprintf` come to the terminator of a format in at
most as many turns as it is long, and do not step over it, exactly where the format does not end
inside a directive: with flags, a width, a precision or a length behind the `%`, or for `vsprintf`
with digits. -/
theorem format_scan_iff (format : CString) :
    (∀ (text : BitVec 32 → CString) (fixed : BitVec 64 → CString) (args : VaList),
      (∃ s, vprintf text fixed format args = some s ∧ s.ptr = []) ↔
        ¬ EndsInside vprintfNext (fun ptr => ∃ spec : Vprintf.Spec, ptr = spec.format)
          format.bytes) ∧
      (∀ {σ : Type} (put : σ → UInt8 → σ) (conv : UInt8 → σ → σ) (s : σ),
        (∃ t, vsprintfTurns put conv format.bytes s = some ([], t)) ↔
          ¬ EndsInside vsprintfNext (fun ptr => ∀ c ∈ ptr, isFormatDigit c = true)
            format.bytes) ∧
      ∀ args, vsprintf format args =
        ((vsprintfTurns putPrinting convPrinting format.bytes (some ([], args))).bind
          Prod.snd).map fun printing =>
            { bytes := printing.1, ret := printing.1.length, args := printing.2 } := by
  refine ⟨fun text fixed args => ?_, fun put conv s => ?_, fun args => ?_⟩
  · have done : ∀ s : Vprintf, s.ptr.isEmpty = s.done := by
      intro s
      unfold Vprintf.done
      cases s.ptr with
      | nil => rfl
      | cons c ptr => rfl
    have scan := turns_map Vprintf.ptr done (fun s _ => vprintfTurn_ptr text fixed s)
      format.bytes.length (.start format args)
    rw [← turns_format_iff vprintfNext_eq_none_iff (fun _ _ => length_vprintfNext)
      (le_refl format.bytes.length)]
    exact Option.map_eq_some_iff.symm.trans (Eq.congr_left scan)
  · have scan : (vsprintfTurns put conv format.bytes s).map Prod.fst =
        turns List.isEmpty (formatTurn vsprintfNext) format.bytes.length format.bytes :=
      turns_map Prod.fst (fun _ => rfl) (fun t _ => vsprintfTurn_fst put conv t) _ _
    rw [← turns_format_iff vsprintfNext_eq_none_iff (fun _ _ => length_vsprintfNext)
      (le_refl format.bytes.length), ← scan, Option.map_eq_some_iff]
    constructor
    · rintro ⟨t, ht⟩
      exact ⟨([], t), ht, rfl⟩
    · rintro ⟨⟨ptr, t⟩, ht, rfl⟩
      exact ⟨t, ht⟩
  · rw [vsprintfTurns, vsprintfLoop_eq_turns (le_refl _), vsprintf, Option.bind_some]
    cases vsprintfLoop false format.bytes [] args with
    | none => rfl
    | some printing => rfl

/-- "%5" ends inside a directive. -/
theorem vprintf_cutFormat :
    vprintf (fun _ => .empty) (fun _ => .empty) ⟨[37, 53], by decide⟩ (Stream'.const 0) = none ∧
      vsprintfTurns putPrinting convPrinting [37, 53] (some ([], [])) = none :=
  ⟨rfl, rfl⟩

end Unics
