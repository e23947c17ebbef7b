import Unics.Lib.NumberText
import Unics.Libc.Numbers
import Unics.Laws.Libc.Numbers

/-!
# Reading numbers
-/

namespace Unics

open Unics.Lib

/-!
## What `strtol` reads

`strtol` takes blanks, a sign and a prefix off the text and reads the digits behind. It reads the
longest beginning that the grammar of integers admits if digits do follow there (`DigitsFollow`).
Otherwise it has gone past what the grammar admits, except where nothing was taken off.
-/

/-! ### The loops over the digits -/

section Loops

variable {w : ℕ}

theorem strtolLoop_eq (b n : ℕ) (p : List UInt8) :
    strtolLoop b (BitVec.ofNat w n) p =
      (BitVec.ofNat w (digitsValue b n (p.takeWhile (isDigitOf b))),
        p.dropWhile (isDigitOf b)) := by
  induction p generalizing n with
  | nil => rfl
  | cons c p ih =>
    rw [strtolLoop, strtolDigit_eq]
    cases hdigit : byteDigit c with
    | none =>
      have no : isDigitOf b c = false := by rw [isDigitOf, hdigit]; rfl
      rw [List.takeWhile_cons_of_neg (Bool.eq_false_iff.mp no),
        List.dropWhile_cons_of_neg (Bool.eq_false_iff.mp no)]
      rfl
    | some d =>
      have yes : isDigitOf b c = decide (d < b) := by rw [isDigitOf, hdigit]; rfl
      dsimp only [Option.map_some]
      by_cases hd : d < b
      · have step : BitVec.ofNat w n * BitVec.ofInt w b + BitVec.ofInt w d =
            BitVec.ofNat w (n * b + d) := by
          rw [BitVec.ofInt_natCast, BitVec.ofInt_natCast, BitVec.ofNat_add, BitVec.ofNat_mul]
        have digit : isDigitOf b c = true := yes.trans (decide_eq_true hd)
        rw [if_neg (by omega), step, ih, List.takeWhile_cons_of_pos digit,
          List.dropWhile_cons_of_pos digit, digitsValue, digitsValue, List.foldl_cons, hdigit]
        rfl
      · have no := Bool.eq_false_iff.mp (yes.trans (decide_eq_false hd))
        rw [if_pos (by omega), List.takeWhile_cons_of_neg no, List.dropWhile_cons_of_neg no]
        rfl

theorem isDigitOf_ten (c : UInt8) : isDigitOf 10 c = true ↔ 48 ≤ c ∧ c ≤ 57 := by
  unfold isDigitOf byteDigit
  split
  · next h =>
    have low : 48 ≤ c.toNat := UInt8.le_iff_toNat_le.mp h.1
    have high : c.toNat ≤ 57 := UInt8.le_iff_toNat_le.mp h.2
    exact iff_of_true (decide_eq_true (by omega)) h
  · next h =>
    refine iff_of_false ?_ h
    have letter (n : ℕ) : ¬ (some (n + 10)).any (· < 10) = true := fun h =>
      absurd (of_decide_eq_true (p := n + 10 < 10) h) (by omega)
    split
    · exact letter _
    · split
      · exact letter _
      · exact Bool.false_ne_true

theorem atoiLoop_eq (n : ℕ) (p : List UInt8) :
    atoiLoop (BitVec.ofNat 32 n) p =
      BitVec.ofNat 32 (digitsValue 10 n (p.takeWhile (isDigitOf 10))) := by
  induction p generalizing n with
  | nil => rfl
  | cons c p ih =>
    rw [atoiLoop]
    split
    · next h =>
      have low : 48 ≤ c.toNat := UInt8.le_iff_toNat_le.mp h.1
      have digit : byteDigit c = some (c.toNat - 48) := if_pos h
      have step : BitVec.ofNat 32 n * 10 + BitVec.ofInt 32 (c.toNat - 48) =
          BitVec.ofNat 32 (n * 10 + (c.toNat - 48)) := by
        have value : (c.toNat : Int) - 48 = (c.toNat - 48 : ℕ) := by omega
        rw [value, BitVec.ofInt_natCast, BitVec.ofNat_add, BitVec.ofNat_mul]
        rfl
      rw [step, ih, List.takeWhile_cons_of_pos ((isDigitOf_ten c).mpr h), digitsValue, digitsValue,
        List.foldl_cons, digit]
      rfl
    · next h =>
      rw [List.takeWhile_cons_of_neg (mt (isDigitOf_ten c).mp h)]
      rfl

end Loops

/-! ### What is taken off -/

theorem apart_isspace : Apart isspace := by
  have table : ∀ c : UInt8, isspace c = true → byteDigit c = none ∧ isSign c = false := by
    intro c hc
    simp only [isspace, Bool.or_eq_true, decide_eq_true_eq] at hc
    rcases hc with ((((rfl | rfl) | rfl) | rfl) | rfl) | rfl
    all_goals exact ⟨rfl, rfl⟩
  exact ⟨fun c hc => (table c hc).1, fun c hc => (table c hc).2⟩

theorem isspace_of_isStrtolSpace {c : UInt8} (h : isStrtolSpace c = true) : isspace c = true := by
  simp only [isStrtolSpace, isspace, Bool.or_eq_true, decide_eq_true_eq] at h ⊢
  tauto

/-- The sign that is taken off, and what is behind it. -/
theorem strtolSign_text (p : List UInt8) :
    ∃ sign, SignText sign (strtolSign p).1 ∧ p = sign ++ (strtolSign p).2 := by
  cases p with
  | nil => exact ⟨[], .none, rfl⟩
  | cons c rest =>
    rw [strtolSign]
    by_cases hminus : c = 45
    · rw [if_pos hminus]
      exact ⟨[45], .minus, by rw [hminus]; rfl⟩
    · by_cases hplus : c = 43
      · rw [if_neg hminus, if_pos hplus]
        exact ⟨[43], .plus, by rw [hplus]; rfl⟩
      · rw [if_neg hminus, if_neg hplus]
        exact ⟨[], .none, rfl⟩

theorem strtolPrefix_eq_some {p rest : List UInt8} :
    strtolPrefix p = some rest ↔ ∃ x, (x = 120 ∨ x = 88) ∧ p = 48 :: x :: rest := by
  match p with
  | [] =>
    exact iff_of_false (fun h => Option.some_ne_none rest h.symm) fun ⟨x, _, h⟩ => nomatch h
  | [c] =>
    exact iff_of_false (fun h => Option.some_ne_none rest h.symm) fun ⟨x, _, h⟩ => nomatch h
  | c :: x :: p =>
    rw [strtolPrefix]
    constructor
    · intro h
      split at h
      · next hx =>
        obtain rfl := Option.some.inj h
        exact ⟨x, hx.2, by rw [hx.1]⟩
      · exact absurd h.symm (Option.some_ne_none rest)
    · rintro ⟨y, hy, h⟩
      obtain ⟨rfl, htail⟩ := List.cons.inj h
      obtain ⟨rfl, rfl⟩ := List.cons.inj htail
      exact if_pos ⟨rfl, hy⟩

/-- What is behind a prefix that counts. -/
def prefixed (b : ℕ) (p : List UInt8) : Option (List UInt8) :=
  if b = 0 ∨ b = 16 then strtolPrefix p else none

theorem prefixed_eq_some {b : ℕ} {p rest : List UInt8} :
    prefixed b p = some rest ↔
      (b = 0 ∨ b = 16) ∧ ∃ x, (x = 120 ∨ x = 88) ∧ p = 48 :: x :: rest := by
  rw [prefixed]
  split
  · next hb => rw [strtolPrefix_eq_some, and_iff_right hb]
  · next hb => exact iff_of_false (fun h => Option.some_ne_none rest h.symm) (fun h => hb h.1)

theorem strtolBase_prefixed {b : ℕ} {p q : List UInt8} (h : prefixed b p = some q) :
    strtolBase b p = (16, q) := by
  obtain ⟨hb, x, hx, rfl⟩ := prefixed_eq_some.mp h
  have behind : strtolPrefix (48 :: x :: q) = some q := strtolPrefix_eq_some.mpr ⟨x, hx, rfl⟩
  have head : (48 :: x :: q).head? = some (48 : UInt8) := rfl
  rcases hb with rfl | rfl
  · rw [strtolBase, if_pos Int.ofNat_zero, if_pos head, behind]
  · have nonzero : ¬ ((16 : ℕ) : Int) = 0 := by decide
    have sixteen : ((16 : ℕ) : Int) = 16 := rfl
    rw [strtolBase, if_neg nonzero, if_pos sixteen, behind]

theorem strtolBase_plain {b : ℕ} {p : List UInt8} (h : prefixed b p = none) :
    strtolBase b p = (((leadBase b p : ℕ) : Int), p) := by
  rw [strtolBase, leadBase]
  by_cases hzero : b = 0
  · subst hzero
    have none : strtolPrefix p = none := h
    rw [if_pos Int.ofNat_zero, if_pos rfl, none]
    split
    · rfl
    · rfl
  · have nonzero : ¬ (b : Int) = 0 := by omega
    rw [if_neg nonzero, if_neg hzero]
    split
    · next hsixteen =>
      have sixteen : b = 16 := by omega
      subst sixteen
      have none : strtolPrefix p = none := h
      rw [none]
      rfl
    · rfl

/-! ### The longest beginning -/

/-- A digit follows, or the prefix and a digit behind it. -/
def DigitsFollow (b : ℕ) (p : List UInt8) : Prop :=
  match prefixed b p with
  | some q => q.head?.any (isDigitOf 16) = true
  | none => p.head?.any (isDigitOf (leadBase b p)) = true

/-- The call does what the grammar says: the longest beginning that is the text of a number is read
and gives the number if that fits in a `long`, and nothing is read if there is none. -/
structure StrtolFollows (str : CString) (b : ℕ) : Prop where
  reads : ∀ front rest,
    LongestPrefix (fun front => ∃ v, NumberText isspace b front v) str.bytes front rest →
      (strtol str b).2 = rest ∧
        ∀ v, NumberText isspace b front v → -2 ^ 31 ≤ v → v < 2 ^ 31 → (strtol str b).1.toInt = v
  stays : (∀ front, front <+: str.bytes → ∀ v, ¬ NumberText isspace b front v) →
    (strtol str b).2 = str.bytes

/-- What is behind the blanks and the sign that `strtol` takes off. -/
def CString.unsigned (str : CString) : List UInt8 :=
  (strtolSign (str.bytes.dropWhile isStrtolSpace)).2

section Strtol

variable {str : CString} {b : ℕ}

/-- The text is blanks, a sign and the rest. -/
theorem unsigned_append (str : CString) :
    ∃ blanks sign, (∀ c ∈ blanks, isspace c = true) ∧
      SignText sign (strtolSign (str.bytes.dropWhile isStrtolSpace)).1 ∧
        str.bytes = blanks ++ (sign ++ str.unsigned) := by
  obtain ⟨sign, hsign, happend⟩ := strtolSign_text (str.bytes.dropWhile isStrtolSpace)
  refine ⟨str.bytes.takeWhile isStrtolSpace, sign, fun c hc => ?_, hsign, ?_⟩
  · exact isspace_of_isStrtolSpace (List.mem_takeWhile_imp hc)
  · exact List.takeWhile_append_dropWhile.symm.trans (congrArg (_ ++ ·) happend)

theorem strtol_eq {base : ℕ} {p : List UInt8} (h : strtolBase b str.unsigned = ((base : Int), p)) :
    strtol str b =
      (BitVec.ofInt 32 ((strtolSign (str.bytes.dropWhile isStrtolSpace)).1 *
          digitsValue base 0 (p.takeWhile (isDigitOf base))),
        p.dropWhile (isDigitOf base)) := by
  have call : strtol str b =
      (BitVec.ofInt 32 (strtolSign (str.bytes.dropWhile isStrtolSpace)).1 *
          (strtolLoop (strtolBase b str.unsigned).1 0 (strtolBase b str.unsigned).2).1,
        (strtolLoop (strtolBase b str.unsigned).1 0 (strtolBase b str.unsigned).2).2) := rfl
  have loop := strtolLoop_eq (w := 32) base 0 p
  rw [call, h, BitVec.ofInt_mul, BitVec.ofInt_natCast]
  exact Prod.ext (congrArg (_ * ·.1) loop) (congrArg (·.2) loop)

/-- A call with digits behind the sign reads the longest number there. -/
theorem strtol_magnitude (h : DigitsFollow b str.unsigned) :
    ∃ digits n, LongestPrefix (fun front => ∃ n, Magnitude b front n) str.unsigned digits
        (strtol str b).2 ∧ Magnitude b digits n ∧
      (strtol str b).1 =
        BitVec.ofInt 32 ((strtolSign (str.bytes.dropWhile isStrtolSpace)).1 * n) := by
  unfold DigitsFollow at h
  cases hprefixed : prefixed b str.unsigned with
  | some q =>
    rw [hprefixed] at h
    obtain ⟨hb, x, hx, htext⟩ := prefixed_eq_some.mp hprefixed
    rw [strtol_eq (strtolBase_prefixed hprefixed), htext]
    exact ⟨_, _, longest_hex hb hx h, magnitude_hex hb hx h, rfl⟩
  | none =>
    rw [hprefixed] at h
    rw [strtol_eq (strtolBase_plain hprefixed)]
    refine ⟨_, _, longest_lead h fun hb x rest htext hx => ?_, magnitude_takeWhile h, rfl⟩
    have counts := prefixed_eq_some.mpr ⟨hb, x, hx, htext⟩
    exact absurd (hprefixed.symm.trans counts) (Option.some_ne_none rest).symm

/-- A call without digits there leaves what is behind the sign, or has gone past a prefix. -/
theorem strtol_rest (h : ¬ DigitsFollow b str.unsigned) :
    (strtol str b).2 = (prefixed b str.unsigned).getD str.unsigned := by
  unfold DigitsFollow at h
  have stop {p : UInt8 → Bool} {text : List UInt8} (h : ¬ text.head?.any p = true) :
      text.dropWhile p = text := by
    cases text with
    | nil => rfl
    | cons c rest => exact List.dropWhile_cons_of_neg h
  cases hprefixed : prefixed b str.unsigned with
  | some q =>
    rw [hprefixed] at h
    rw [strtol_eq (strtolBase_prefixed hprefixed)]
    exact stop h
  | none =>
    rw [hprefixed] at h
    rw [strtol_eq (strtolBase_plain hprefixed)]
    exact stop h

/-- Where digits follow, the longest number is what the call reads. -/
theorem strtol_longest (h : DigitsFollow b str.unsigned) :
    ∃ front v, LongestPrefix (fun front => ∃ v, NumberText isspace b front v) str.bytes front
        (strtol str b).2 ∧ (∀ u, NumberText isspace b front u → u = v) ∧
      (strtol str b).1 = BitVec.ofInt 32 v := by
  obtain ⟨blanks, sign, hblanks, hsign, hbytes⟩ := unsigned_append str
  obtain ⟨digits, n, hlongest, hn, hvalue⟩ := strtol_magnitude h
  have longest := longest_numberText apart_isspace hblanks hsign hlongest
  rw [← hbytes] at longest
  refine ⟨_, _, longest, fun u hu => ?_, hvalue⟩
  obtain ⟨c, rest, hdigits, hc⟩ := hn.head
  have head : str.unsigned = c :: (rest ++ (strtol str b).2) := by
    rw [← hlongest.append, hdigits]
    rfl
  obtain ⟨digits', m, heq, -, hm, rfl⟩ := hu.split apart_isspace hblanks hsign
    (head ▸ headNot_of_digit apart_isspace.digit hc _)
    (head ▸ headNot_of_digit (fun _ => byteDigit_sign) hc _) (hbytes ▸ ⟨_, longest.append⟩)
  have same := List.append_cancel_left (List.append_cancel_left heq)
  subst same
  rw [hm.value_unique hn]

/-- The zero of a prefix is a number. -/
theorem number_of_prefixed {q : List UInt8} (h : prefixed b str.unsigned = some q) :
    ∃ front, front <+: str.bytes ∧ ∃ v, NumberText isspace b front v := by
  obtain ⟨blanks, sign, hblanks, hsign, hbytes⟩ := unsigned_append str
  obtain ⟨hb, x, -, htext⟩ := prefixed_eq_some.mp h
  have zero : ∃ n, Magnitude b [48] n := by
    rcases hb with rfl | rfl
    · exact ⟨_, .octal fun c hc => absurd hc List.not_mem_nil⟩
    · refine ⟨_, .plain (by decide) (List.cons_ne_nil 48 []) fun c hc => ?_⟩
      rw [List.mem_singleton.mp hc]
      rfl
  obtain ⟨n, hn⟩ := zero
  refine ⟨blanks ++ (sign ++ [48]), ⟨x :: q, ?_⟩, _, .mk hblanks hsign hn⟩
  rw [hbytes, htext, List.append_assoc, List.append_assoc]
  rfl

/-- What is taken off is not a number. -/
theorem not_number_front {blanks sign : List UInt8} {s v : Int}
    (hblanks : ∀ c ∈ blanks, isspace c = true) (hsign : SignText sign s) :
    ¬ NumberText isspace b (blanks ++ sign) v := by
  intro h
  obtain ⟨c, hc, hdigit⟩ := h.exists_digit
  rcases List.mem_append.mp hc with hc | hc
  · rw [apart_isspace.digit c (hblanks c hc)] at hdigit
    exact Bool.false_ne_true hdigit
  · rw [byteDigit_sign (hsign.all c hc)] at hdigit
    exact Bool.false_ne_true hdigit

/-- The digits in front of a prefix are its zero. -/
theorem dropWhile_prefix (hb : b = 0 ∨ b = 16) {x : UInt8} (hx : x = 120 ∨ x = 88)
    (q : List UInt8) :
    (48 :: x :: q).dropWhile (isDigitOf (leadBase b (48 :: x :: q))) = x :: q := by
  have stop (base : ℕ) (small : base ≤ 16) : (x :: q).dropWhile (isDigitOf base) = x :: q :=
    List.dropWhile_cons_of_neg (Bool.eq_false_iff.mp (isDigitOf_x hx small))
  rcases hb with rfl | rfl
  · exact stop 8 (by decide)
  · exact stop 16 (by decide)

/-- Without digits behind the sign, the longest number is not what the call reads. -/
theorem strtol_not_longest (h : ¬ DigitsFollow b str.unsigned) (front : List UInt8) :
    ¬ LongestPrefix (fun front => ∃ v, NumberText isspace b front v) str.bytes front
      (strtol str b).2 := by
  obtain ⟨blanks, sign, hblanks, hsign, hbytes⟩ := unsigned_append str
  intro hlongest
  have rest := strtol_rest h
  cases hprefixed : prefixed b str.unsigned with
  | none =>
    rw [hprefixed, Option.getD_none] at rest
    rw [rest, hbytes, ← List.append_assoc] at hlongest
    obtain ⟨v, hv⟩ := hlongest.holds
    rw [List.append_cancel_right hlongest.append] at hv
    exact not_number_front hblanks hsign hv
  | some q =>
    rw [hprefixed, Option.getD_some] at rest
    obtain ⟨hb, x, hx, htext⟩ := prefixed_eq_some.mp hprefixed
    have lead : str.unsigned.head?.any (isDigitOf (leadBase b str.unsigned)) = true := by
      rw [htext]
      rcases hb with rfl | rfl
      all_goals rfl
    have no_hex : q.head?.any (isDigitOf 16) = false := by
      unfold DigitsFollow at h
      rw [hprefixed] at h
      exact Bool.eq_false_iff.mpr h
    have longest := longest_numberText apart_isspace hblanks hsign (longest_lead lead ?_)
    · rw [← hbytes] at longest
      have same := (hlongest.unique longest).2
      rw [rest, htext, dropWhile_prefix hb hx] at same
      exact absurd (congrArg List.length same) (Nat.ne_of_lt (Nat.lt_succ_self _))
    · intro _ y more hmore _
      rw [htext] at hmore
      obtain ⟨-, htail⟩ := List.cons.inj hmore
      obtain ⟨-, rfl⟩ := List.cons.inj htail
      exact no_hex

/-- `strtol` follows the grammar where digits follow the blanks and the sign that it takes off, and
where it takes nothing off and there is no number to read. -/
theorem strtol_follows_iff (str : CString) (b : ℕ) :
    StrtolFollows str b ↔
      DigitsFollow b str.unsigned ∨
        str.unsigned = str.bytes ∧
          ∀ front, front <+: str.bytes → ∀ v, ¬ NumberText isspace b front v := by
  constructor
  · intro hfollows
    refine Classical.or_iff_not_imp_left.mpr fun h => ?_
    have no_number : ∀ front, front <+: str.bytes → ∀ v, ¬ NumberText isspace b front v := by
      intro front hpre v hv
      obtain ⟨front, rest, hlongest⟩ := exists_longestPrefix
        (P := fun front => ∃ v, NumberText isspace b front v) hpre ⟨v, hv⟩
      rw [← (hfollows.reads front rest hlongest).1] at hlongest
      exact strtol_not_longest h front hlongest
    have none : prefixed b str.unsigned = none := by
      rw [Option.eq_none_iff_forall_ne_some]
      intro q hq
      obtain ⟨front, hpre, v, hv⟩ := number_of_prefixed hq
      exact no_number front hpre v hv
    have rest := strtol_rest h
    rw [none, Option.getD_none] at rest
    exact ⟨rest.symm.trans (hfollows.stays no_number), no_number⟩
  · intro h
    by_cases hdigits : DigitsFollow b str.unsigned
    · obtain ⟨longest, v, hlongest, hunique, hvalue⟩ := strtol_longest hdigits
      refine ⟨fun front rest hfront => ?_, fun hno => ?_⟩
      · obtain ⟨rfl, rfl⟩ := hfront.unique hlongest
        refine ⟨rfl, fun u hu low high => ?_⟩
        obtain rfl := hunique u hu
        rw [hvalue]
        exact BitVec.toInt_ofInt_eq_self (by decide) low high
      · obtain ⟨u, hu⟩ := hlongest.holds
        exact absurd hu (hno longest ⟨_, hlongest.append⟩ u)
    · obtain ⟨hsame, hno⟩ := h.resolve_left hdigits
      refine ⟨fun front rest hfront => ?_, fun _ => ?_⟩
      · obtain ⟨u, hu⟩ := hfront.holds
        exact absurd hu (hno front ⟨_, hfront.append⟩ u)
      · have none : prefixed b str.unsigned = none := by
          rw [Option.eq_none_iff_forall_ne_some]
          intro q hq
          obtain ⟨front, hpre, v, hv⟩ := number_of_prefixed hq
          exact hno front hpre v hv
        rw [strtol_rest hdigits, none]
        exact hsame

/-- A lone minus is read, though it is no number. -/
theorem strtol_minus :
    strtol (CString.ofBytes [45]) 10 = (0, []) ∧ ¬ StrtolFollows (CString.ofBytes [45]) 10 := by
  refine ⟨by decide, fun h => ?_⟩
  have no_number : ∀ front, front <+: (CString.ofBytes [45]).bytes → ∀ v,
      ¬ NumberText isspace 10 front v := by
    intro front hpre v hv
    obtain ⟨c, hc, hdigit⟩ := hv.exists_digit
    rw [List.mem_singleton.mp (hpre.subset hc)] at hdigit
    exact absurd hdigit (by decide)
  exact absurd (h.stays no_number) (by decide)

end Strtol

/-!
## `atoi` and `strtol`

The two readers take the same sign and the same digits, but `atoi` goes over all whitespace in front
and `strtol` over spaces, tabs and newlines only, so that it may stop before the sign
(`strtol_stopped`).
-/

section Atoi

variable {str : CString}

/-- The number that the decimal digits behind whitespace and sign spell. -/
def CString.decimal (str : CString) : ℕ :=
  digitsValue 10 0 ((strtolSign (str.bytes.dropWhile isspace)).2.takeWhile (isDigitOf 10))

theorem atoi_eq (str : CString) :
    atoi str =
      BitVec.ofInt 32 (strtolSign (str.bytes.dropWhile isspace)).1 * BitVec.ofNat 32 str.decimal :=
  congrArg (_ * ·) (atoiLoop_eq 0 _)

theorem strtol_ten (str : CString) :
    (strtol str 10).1 =
      BitVec.ofInt 32 (strtolSign (str.bytes.dropWhile isStrtolSpace)).1 *
        BitVec.ofNat 32 (digitsValue 10 0 (str.unsigned.takeWhile (isDigitOf 10))) := by
  have value := congrArg (·.1) (strtol_eq (strtolBase_plain (p := str.unsigned) (b := 10) rfl))
  rw [BitVec.ofInt_mul, BitVec.ofInt_natCast] at value
  exact value

/-- Behind the blanks of `strtol` no other whitespace stands. -/
theorem dropWhile_isspace (h : HeadNot isspace (str.bytes.dropWhile isStrtolSpace)) :
    str.bytes.dropWhile isspace = str.bytes.dropWhile isStrtolSpace := by
  have blanks : ∀ c ∈ str.bytes.takeWhile isStrtolSpace, isspace c = true := fun c hc =>
    isspace_of_isStrtolSpace (List.mem_takeWhile_imp hc)
  have parts := List.takeWhile_append_dropWhile (p := isStrtolSpace) (l := str.bytes)
  have front := h.takeWhile blanks
  rw [parts] at front
  refine (List.append_right_inj (str.bytes.takeWhile isspace)).mp ?_
  rw [List.takeWhile_append_dropWhile, front, parts]

/-- Where other whitespace stops it, `strtol` answers zero. -/
theorem strtol_stopped (h : ¬ HeadNot isspace (str.bytes.dropWhile isStrtolSpace)) :
    (strtol str 10).1 = 0 := by
  rw [strtol_ten, CString.unsigned]
  cases hdrop : str.bytes.dropWhile isStrtolSpace with
  | nil =>
    rw [hdrop] at h
    exact absurd (fun c hc => absurd hc (Option.some_ne_none c).symm) h
  | cons c rest =>
    rw [hdrop] at h
    have space : isspace c = true := by
      by_contra hno
      exact h (HeadNot.cons (Bool.eq_false_iff.mpr hno) rest)
    have sign := apart_isspace.sign c space
    have digit : isDigitOf 10 c = false := by
      rw [isDigitOf, apart_isspace.digit c space]
      rfl
    have hplus : c ≠ 43 := by
      rintro rfl
      exact absurd sign (by decide)
    have hminus : c ≠ 45 := by
      rintro rfl
      exact absurd sign (by decide)
    rw [strtolSign_plain hminus hplus, List.takeWhile_cons_of_neg (Bool.eq_false_iff.mp digit)]
    rfl

theorem sign_mul_eq_zero_iff {sign : List UInt8} {s : Int} (hsign : SignText sign s) (n : ℕ) :
    BitVec.ofInt 32 s * BitVec.ofNat 32 n = 0 ↔ 2 ^ 32 ∣ n := by
  have zero : BitVec.ofNat 32 n = 0 ↔ 2 ^ 32 ∣ n := by
    rw [← BitVec.toNat_inj, BitVec.toNat_ofNat]
    exact (Nat.dvd_iff_mod_eq_zero).symm
  have one : BitVec.ofInt 32 1 = 1#32 := rfl
  have minus : BitVec.ofInt 32 (-1) = -1#32 := rfl
  cases hsign with
  | none => rw [← zero, one, BitVec.one_mul]
  | plus => rw [← zero, one, BitVec.one_mul]
  | minus =>
    rw [← zero, minus, BitVec.neg_mul, BitVec.one_mul]
    exact BitVec.neg_eq_zero_iff

/-- The two readers agree where the blanks in front are spaces, tabs and newlines only, and where
the number is zero for an `int`. -/
theorem atoi_eq_strtol_iff (str : CString) :
    atoi str = (strtol str 10).1 ↔
      HeadNot isspace (str.bytes.dropWhile isStrtolSpace) ∨ 2 ^ 32 ∣ str.decimal := by
  by_cases h : HeadNot isspace (str.bytes.dropWhile isStrtolSpace)
  · refine iff_of_true ?_ (.inl h)
    rw [atoi_eq, strtol_ten, CString.decimal, dropWhile_isspace h]
    rfl
  · obtain ⟨sign, hsign, -⟩ := strtolSign_text (str.bytes.dropWhile isspace)
    rw [strtol_stopped h, atoi_eq, sign_mul_eq_zero_iff hsign]
    exact (or_iff_right h).symm

/-- A carriage return in front of a digit. -/
theorem atoi_ne_strtol :
    atoi (CString.ofBytes [13, 53]) ≠ (strtol (CString.ofBytes [13, 53]) 10).1 := by
  decide

end Atoi

end Unics
