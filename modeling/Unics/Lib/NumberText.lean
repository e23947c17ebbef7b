import Mathlib.Data.List.TakeWhile
import Mathlib.Tactic.Ring
import Unics.Lib.Numerals

/-!
# Texts of numbers

The grammar of an integer as text: blanks, a sign, a prefix, digits of a base. A base 0 is told by
the text: `0x` makes it 16, another zero in front 8. What a scanner should read is the longest
beginning that the grammar admits; what stands in front of the digits can be taken off a text first
(`NumberText.split`), and of the rest the digits in front are the longest (`longest_digits`), or the
prefix and the digits behind it (`longest_hex`).
-/

namespace Unics.Lib

section Prefixes

variable {α : Type}

/-- `front` is the longest beginning of a text with a property, and `rest` stands behind it. -/
structure LongestPrefix (P : List α → Prop) (text front rest : List α) : Prop where
  append : front ++ rest = text
  holds : P front
  longest : ∀ other, other <+: text → P other → other.length ≤ front.length

theorem LongestPrefix.unique {P : List α → Prop} {text front rest front' rest' : List α}
    (h : LongestPrefix P text front rest) (h' : LongestPrefix P text front' rest') :
    front = front' ∧ rest = rest' := by
  have le := h'.longest front ⟨rest, h.append⟩ h.holds
  have ge := h.longest front' ⟨rest', h'.append⟩ h'.holds
  exact List.append_inj (h.append.trans h'.append.symm) (Nat.le_antisymm le ge)

/-- Where some beginning has the property, one is the longest. -/
theorem exists_longestPrefix {P : List α → Prop} {text front : List α} (hpre : front <+: text)
    (h : P front) : ∃ front rest, LongestPrefix P text front rest := by
  -- the room that is left behind a beginning gets smaller with each longer one
  induction hroom : text.length - front.length using Nat.strong_induction_on generalizing front with
  | h room ih =>
    by_cases hlongest : ∀ other, other <+: text → P other → other.length ≤ front.length
    · obtain ⟨rest, hrest⟩ := hpre
      exact ⟨front, rest, hrest, h, hlongest⟩
    · push Not at hlongest
      obtain ⟨other, hother, hP, longer⟩ := hlongest
      have within := hother.length_le
      exact ih (text.length - other.length) (by omega) hother hP rfl

/-- The first character, if there is one, is not of a kind. -/
def HeadNot (p : α → Bool) (text : List α) : Prop := ∀ c, text.head? = some c → p c = false

theorem HeadNot.cons {p : α → Bool} {c : α} (h : p c = false) (text : List α) :
    HeadNot p (c :: text) := fun _ hd => Option.some.inj hd ▸ h

theorem HeadNot.takeWhile {p : α → Bool} {front rest : List α} (hfront : ∀ c ∈ front, p c = true)
    (hrest : HeadNot p rest) : (front ++ rest).takeWhile p = front := by
  rw [List.takeWhile_append_of_pos hfront]
  cases rest with
  | nil => exact List.append_nil front
  | cons c rest =>
    rw [List.takeWhile_cons_of_neg (by rw [hrest c rfl]; exact Bool.false_ne_true)]
    exact List.append_nil front

theorem HeadNot.dropWhile {p : α → Bool} {front rest : List α} (hfront : ∀ c ∈ front, p c = true)
    (hrest : HeadNot p rest) : (front ++ rest).dropWhile p = rest := by
  have parted := List.takeWhile_append_dropWhile (p := p) (l := front ++ rest)
  rw [hrest.takeWhile hfront] at parted
  exact List.append_cancel_left parted

/-- A text is parted in one way into what is of a kind and what does not begin so. -/
theorem append_inj_of_headNot {p : α → Bool} {front rest front' rest' : List α}
    (hfront : ∀ c ∈ front, p c = true) (hrest : HeadNot p rest)
    (hfront' : ∀ c ∈ front', p c = true) (hrest' : HeadNot p rest')
    (h : front ++ rest = front' ++ rest') : front = front' ∧ rest = rest' := by
  have fronts : front = front' := by
    rw [← hrest.takeWhile hfront, h, hrest'.takeWhile hfront']
  subst fronts
  exact ⟨rfl, List.append_cancel_left h⟩

end Prefixes

/-! ## Digits -/

/-- A digit of the base. -/
def isDigitOf (b : ℕ) (c : UInt8) : Bool := (byteDigit c).any (· < b)

/-- The value of digits, the highest first, behind those of `n`. -/
def digitsValue (b n : ℕ) (text : List UInt8) : ℕ :=
  text.foldl (fun n c => n * b + (byteDigit c).getD 0) n

theorem isDigitOf_digitByte {b d : ℕ} (hmax : b ≤ 36) (hd : d < b) :
    isDigitOf b (digitByte d) = true := by
  rw [isDigitOf, byteDigit_digitByte (hd.trans_le hmax)]
  exact decide_eq_true hd

theorem isDigitOf_numeral {b n : ℕ} (hb : 1 < b) (hmax : b ≤ 36) :
    ∀ c ∈ numeral b n, isDigitOf b c = true := by
  intro c hc
  obtain ⟨d, hd, rfl⟩ := mem_numeral hb hc
  exact isDigitOf_digitByte hmax hd

theorem digitsValue_digits {b : ℕ} (hmax : b ≤ 36) {ds : List ℕ} (hds : ∀ d ∈ ds, d < b) (n : ℕ) :
    digitsValue b n (ds.map digitByte) = n * b ^ ds.length + Nat.ofDigits b ds.reverse := by
  induction ds generalizing n with
  | nil =>
    rw [List.map_nil, List.reverse_nil, Nat.ofDigits_nil, List.length_nil, pow_zero, Nat.mul_one]
    rfl
  | cons d ds ih =>
    have digit := byteDigit_digitByte ((hds d List.mem_cons_self).trans_le hmax)
    have rest := ih (fun e he => hds e (List.mem_cons_of_mem d he)) (n * b + d)
    have turn : digitsValue b n ((d :: ds).map digitByte) =
        digitsValue b (n * b + d) (ds.map digitByte) := by
      rw [List.map_cons, digitsValue, List.foldl_cons, digit]
      rfl
    rw [turn, rest, List.reverse_cons, Nat.ofDigits_append, Nat.ofDigits_singleton,
      List.length_reverse, List.length_cons, pow_succ]
    ring

/-- Reading a numeral gives back the number. -/
theorem digitsValue_numeral {b : ℕ} (hb : 1 < b) (hmax : b ≤ 36) (n : ℕ) :
    digitsValue b 0 (numeral b n) = n := by
  obtain ⟨ds, hds, hnumeral, hvalue⟩ := numeral_eq_map hb n
  rw [hnumeral, digitsValue_digits hmax hds, hvalue, Nat.zero_mul, Nat.zero_add]

/-- Digits, with a prefix or without. -/
inductive Magnitude : ℕ → List UInt8 → ℕ → Prop
  | plain {b : ℕ} {text : List UInt8} : b ≠ 0 → text ≠ [] → (∀ c ∈ text, isDigitOf b c = true) →
      Magnitude b text (digitsValue b 0 text)
  | hex {b : ℕ} {x : UInt8} {text : List UInt8} : b = 0 ∨ b = 16 → x = 120 ∨ x = 88 → text ≠ [] →
      (∀ c ∈ text, isDigitOf 16 c = true) → Magnitude b (48 :: x :: text) (digitsValue 16 0 text)
  | octal {text : List UInt8} : (∀ c ∈ text, isDigitOf 8 c = true) →
      Magnitude 0 (48 :: text) (digitsValue 8 0 (48 :: text))
  | decimal {c : UInt8} {text : List UInt8} : c ≠ 48 → (∀ d ∈ c :: text, isDigitOf 10 d = true) →
      Magnitude 0 (c :: text) (digitsValue 10 0 (c :: text))

/-- The base that digits without a prefix are of. -/
def leadBase (b : ℕ) (text : List UInt8) : ℕ :=
  if b = 0 then if text.head? = some 48 then 8 else 10 else b

/-- An optional sign. -/
inductive SignText : List UInt8 → Int → Prop
  | none : SignText [] 1
  | plus : SignText [43] 1
  | minus : SignText [45] (-1)

/-- Blanks, a sign, and the digits. -/
inductive NumberText (blank : UInt8 → Bool) (b : ℕ) : List UInt8 → Int → Prop
  | mk {blanks sign digits : List UInt8} {s : Int} {n : ℕ} : (∀ c ∈ blanks, blank c = true) →
      SignText sign s → Magnitude b digits n →
      NumberText blank b (blanks ++ (sign ++ digits)) (s * n)

theorem SignText.value_unique {sign : List UInt8} {s t : Int} (hs : SignText sign s)
    (ht : SignText sign t) : s = t := by
  cases hs
  all_goals
    cases ht
    rfl

theorem isDigitOf_iff {b : ℕ} {c : UInt8} :
    isDigitOf b c = true ↔ ∃ d, byteDigit c = some d ∧ d < b := by
  rw [isDigitOf]
  cases byteDigit c with
  | none => exact iff_of_false Bool.false_ne_true fun ⟨d, hd, _⟩ => Option.some_ne_none d hd.symm
  | some d =>
    constructor
    · intro h
      exact ⟨d, rfl, of_decide_eq_true h⟩
    · rintro ⟨e, he, hlt⟩
      cases Option.some.inj he
      exact decide_eq_true hlt

/-- An `x` is no digit of a base up to 16. -/
theorem isDigitOf_x {x : UInt8} (hx : x = 120 ∨ x = 88) {b : ℕ} (hb : b ≤ 16) :
    isDigitOf b x = false := by
  have value : byteDigit x = some 33 := by
    rcases hx with rfl | rfl
    all_goals rfl
  rw [isDigitOf, value]
  exact decide_eq_false (by omega)

section Magnitudes

variable {b n m : ℕ} {text : List UInt8}

/-- Digits begin with a digit. -/
theorem Magnitude.head (h : Magnitude b text n) :
    ∃ c rest, text = c :: rest ∧ (byteDigit c).isSome = true := by
  have digit {b : ℕ} {c : UInt8} (h : isDigitOf b c = true) : (byteDigit c).isSome = true := by
    obtain ⟨d, hd, -⟩ := isDigitOf_iff.mp h
    rw [hd]
    rfl
  cases h with
  | plain _ hne hds =>
    cases text with
    | nil => exact absurd rfl hne
    | cons c rest => exact ⟨c, rest, rfl, digit (hds c List.mem_cons_self)⟩
  | @hex _ x text => exact ⟨48, x :: text, rfl, rfl⟩
  | @octal text => exact ⟨48, text, rfl, rfl⟩
  | @decimal c text _ hds => exact ⟨c, text, rfl, digit (hds c List.mem_cons_self)⟩

/-- Without a prefix in front, the digits are of the leading base. -/
theorem Magnitude.of_plain (h : Magnitude b text n)
    (hplain : (b = 0 ∨ b = 16) → ∀ x rest, text = 48 :: x :: rest → x = 120 ∨ x = 88 → False) :
    (∀ c ∈ text, isDigitOf (leadBase b text) c = true) ∧
      n = digitsValue (leadBase b text) 0 text := by
  cases h with
  | plain hb _ hds =>
    have lead : leadBase b text = b := if_neg hb
    rw [lead]
    exact ⟨hds, rfl⟩
  | @hex _ x text hb hx => exact (hplain hb x text rfl hx).elim
  | @octal text hds =>
    refine ⟨fun c hc => ?_, rfl⟩
    rcases List.mem_cons.mp hc with rfl | hc
    · rfl
    · exact hds c hc
  | @decimal c text hc hds =>
    have lead : leadBase 0 (c :: text) = 10 := if_neg fun h => hc (Option.some.inj h)
    rw [lead]
    exact ⟨hds, rfl⟩

/-- Digits of the leading base make a number. -/
theorem magnitude_lead (hne : text ≠ []) (hds : ∀ c ∈ text, isDigitOf (leadBase b text) c = true) :
    Magnitude b text (digitsValue (leadBase b text) 0 text) := by
  cases text with
  | nil => exact absurd rfl hne
  | cons c rest =>
    by_cases hb : b = 0
    · subst hb
      by_cases hc : c = 48
      · subst hc
        exact .octal fun d hd => hds d (List.mem_cons_of_mem 48 hd)
      · have lead : leadBase 0 (c :: rest) = 10 := if_neg fun h => hc (Option.some.inj h)
        rw [lead] at hds ⊢
        exact .decimal hc hds
    · have lead : leadBase b (c :: rest) = b := if_neg hb
      rw [lead] at hds ⊢
      exact .plain hb (List.cons_ne_nil c rest) hds

/-- Behind a prefix that counts stand hexadecimal digits. -/
theorem Magnitude.of_hex (hb : b = 0 ∨ b = 16) {x : UInt8} (hx : x = 120 ∨ x = 88)
    (h : Magnitude b (48 :: x :: text) n) :
    text ≠ [] ∧ (∀ c ∈ text, isDigitOf 16 c = true) ∧ n = digitsValue 16 0 text := by
  have no_digit {b : ℕ} (hb : b ≤ 16) : ¬ isDigitOf b x = true := by
    rw [isDigitOf_x hx hb]
    exact Bool.false_ne_true
  cases h with
  | plain hzero _ hds =>
    refine absurd (hds x (List.mem_cons_of_mem 48 List.mem_cons_self)) (no_digit ?_)
    exact Nat.le_of_eq (hb.resolve_left hzero)
  | hex _ _ hne hds => exact ⟨hne, hds, rfl⟩
  | octal hds => exact absurd (hds x List.mem_cons_self) (no_digit (by decide))
  | decimal hc _ => exact absurd rfl hc

theorem Magnitude.value_unique (hn : Magnitude b text n) (hm : Magnitude b text m) : n = m := by
  by_cases hex : (b = 0 ∨ b = 16) ∧ ∃ x rest, text = 48 :: x :: rest ∧ (x = 120 ∨ x = 88)
  · obtain ⟨hb, x, rest, rfl, hx⟩ := hex
    exact (hn.of_hex hb hx).2.2.trans (hm.of_hex hb hx).2.2.symm
  · have plain : (b = 0 ∨ b = 16) → ∀ x rest, text = 48 :: x :: rest → x = 120 ∨ x = 88 → False :=
      fun hb x rest htext hx => hex ⟨hb, x, rest, htext, hx⟩
    exact (hn.of_plain plain).2.trans (hm.of_plain plain).2.symm

theorem length_le_takeWhile {p : UInt8 → Bool} {other : List UInt8} (hpre : other <+: text)
    (h : ∀ c ∈ other, p c = true) : other.length ≤ (text.takeWhile p).length := by
  obtain ⟨rest, rfl⟩ := hpre
  rw [List.takeWhile_append_of_pos h, List.length_append]
  exact Nat.le_add_right _ _

theorem exists_cons_of_any {p : UInt8 → Bool} (h : text.head?.any p = true) :
    ∃ c rest, text = c :: rest ∧ p c = true := by
  cases text with
  | nil => exact absurd h Bool.false_ne_true
  | cons c rest => exact ⟨c, rest, rfl, h⟩

theorem takeWhile_ne_nil_of_any {p : UInt8 → Bool} (h : text.head?.any p = true) :
    text.takeWhile p ≠ [] := by
  obtain ⟨c, rest, rfl, hc⟩ := exists_cons_of_any h
  rw [List.takeWhile_cons_of_pos hc]
  exact List.cons_ne_nil c _

/-- A prefix with the digits behind it. -/
theorem magnitude_hex (hb : b = 0 ∨ b = 16) {x : UInt8} (hx : x = 120 ∨ x = 88)
    (hdigit : text.head?.any (isDigitOf 16) = true) :
    Magnitude b (48 :: x :: text.takeWhile (isDigitOf 16))
      (digitsValue 16 0 (text.takeWhile (isDigitOf 16))) :=
  .hex hb hx (takeWhile_ne_nil_of_any hdigit) fun _ hd => List.mem_takeWhile_imp hd

/-- The digits in front. -/
theorem magnitude_takeWhile (hdigit : text.head?.any (isDigitOf (leadBase b text)) = true) :
    Magnitude b (text.takeWhile (isDigitOf (leadBase b text)))
      (digitsValue (leadBase b text) 0 (text.takeWhile (isDigitOf (leadBase b text)))) := by
  have lead : leadBase b (text.takeWhile (isDigitOf (leadBase b text))) = leadBase b text := by
    obtain ⟨c, rest, rfl, hc⟩ := exists_cons_of_any hdigit
    rw [List.takeWhile_cons_of_pos hc]
    rfl
  have magnitude := magnitude_lead (b := b) (takeWhile_ne_nil_of_any hdigit) fun d hd => by
    rw [lead]
    exact List.mem_takeWhile_imp hd
  rwa [lead] at magnitude

/-- A prefix with a digit behind it is read with all the digits that follow. -/
theorem longest_hex (hb : b = 0 ∨ b = 16) {x : UInt8} (hx : x = 120 ∨ x = 88)
    (hdigit : text.head?.any (isDigitOf 16) = true) :
    LongestPrefix (fun front => ∃ n, Magnitude b front n) (48 :: x :: text)
      (48 :: x :: text.takeWhile (isDigitOf 16)) (text.dropWhile (isDigitOf 16)) := by
  refine ⟨congrArg (48 :: x :: ·) List.takeWhile_append_dropWhile,
    ⟨_, magnitude_hex hb hx hdigit⟩, ?_⟩
  intro other hpre ⟨n, hn⟩
  match other, hpre, hn with
  | [], _, _ => exact Nat.zero_le _
  | [_], _, _ => exact Nat.succ_le_succ (Nat.zero_le _)
  | d :: e :: other, hpre, hn =>
    obtain ⟨rfl, htail⟩ := List.cons_prefix_cons.mp hpre
    obtain ⟨rfl, hothers⟩ := List.cons_prefix_cons.mp htail
    have within := length_le_takeWhile hothers (hn.of_hex hb hx).2.1
    exact Nat.succ_le_succ (Nat.succ_le_succ within)

/-- Elsewhere the digits in front are read. -/
theorem longest_lead (hdigit : text.head?.any (isDigitOf (leadBase b text)) = true)
    (hplain : (b = 0 ∨ b = 16) → ∀ x rest, text = 48 :: x :: rest → x = 120 ∨ x = 88 →
      rest.head?.any (isDigitOf 16) = false) :
    LongestPrefix (fun front => ∃ n, Magnitude b front n) text
      (text.takeWhile (isDigitOf (leadBase b text)))
      (text.dropWhile (isDigitOf (leadBase b text))) := by
  refine ⟨List.takeWhile_append_dropWhile, ⟨_, magnitude_takeWhile hdigit⟩, ?_⟩
  intro other hpre ⟨n, hn⟩
  obtain ⟨c, rest, rfl, hc⟩ := exists_cons_of_any hdigit
  obtain ⟨d, others, rfl, -⟩ := hn.head
  obtain ⟨rfl, hrest⟩ := List.cons_prefix_cons.mp hpre
  refine length_le_takeWhile hpre (hn.of_plain fun hb x more htext hx => ?_).1
  rw [htext] at hn hpre
  obtain ⟨e, hexes, rfl⟩ := List.exists_cons_of_ne_nil (hn.of_hex hb hx).1
  obtain ⟨q, hq⟩ := hpre
  have none := hplain hb x ((e :: hexes) ++ q) hq.symm hx
  have digit := (hn.of_hex hb hx).2.1 e List.mem_cons_self
  exact Bool.false_ne_true (none.symm.trans digit)

end Magnitudes

/-! ## What stands in front -/

section Front

variable {blank : UInt8 → Bool} {b : ℕ} {blanks sign text other : List UInt8} {s v : Int}

def isSign (c : UInt8) : Bool := c = 43 || c = 45

theorem SignText.all (h : SignText sign s) : ∀ c ∈ sign, isSign c = true := by
  cases h with
  | none => exact fun c hc => absurd hc List.not_mem_nil
  | plus => exact fun c hc => List.mem_singleton.mp hc ▸ rfl
  | minus => exact fun c hc => List.mem_singleton.mp hc ▸ rfl

/-- Neither a blank nor a sign is a digit. -/
structure Apart (blank : UInt8 → Bool) : Prop where
  digit : ∀ c, blank c = true → byteDigit c = none
  sign : ∀ c, blank c = true → isSign c = false

theorem byteDigit_sign {c : UInt8} (h : isSign c = true) : byteDigit c = none := by
  rcases (Bool.or_eq_true _ _).mp h with h | h
  all_goals
    rw [of_decide_eq_true h]
    rfl

/-- A text that begins with a digit begins neither with a blank nor with a sign. -/
theorem headNot_of_digit {p : UInt8 → Bool} (hp : ∀ c, p c = true → byteDigit c = none) {c : UInt8}
    (hc : (byteDigit c).isSome = true) (rest : List UInt8) : HeadNot p (c :: rest) := by
  refine HeadNot.cons (Bool.eq_false_iff.mpr fun h => ?_) rest
  rw [hp c h] at hc
  exact Bool.false_ne_true hc

theorem headNot_sign_append (hblank : Apart blank) (hsign : SignText sign s)
    (htext : HeadNot blank text) : HeadNot blank (sign ++ text) := by
  have none_blank {c : UInt8} (h : isSign c = true) : blank c = false := by
    refine Bool.eq_false_iff.mpr fun hb => ?_
    rw [hblank.sign c hb] at h
    exact Bool.false_ne_true h
  cases hsign with
  | none => exact htext
  | plus => exact HeadNot.cons (none_blank rfl) text
  | minus => exact HeadNot.cons (none_blank rfl) text

/-- The numbers that such a text begins with have the same blanks and the same sign in front. -/
theorem NumberText.split (hblank : Apart blank) (hblanks : ∀ c ∈ blanks, blank c = true)
    (hsign : SignText sign s) (htext : HeadNot blank text) (hsigned : HeadNot isSign text)
    (hpre : other <+: blanks ++ (sign ++ text)) (h : NumberText blank b other v) :
    ∃ digits n, other = blanks ++ (sign ++ digits) ∧ digits <+: text ∧ Magnitude b digits n ∧
      v = s * n := by
  cases h with
  | @mk blanks' sign' digits s' n hblanks' hsign' hdigits =>
    obtain ⟨rest, hrest⟩ := hpre
    obtain ⟨c, more, rfl, hc⟩ := hdigits.head
    rw [List.append_assoc, List.append_assoc] at hrest
    have digitsHead := headNot_of_digit hblank.digit hc (more ++ rest)
    have digitsSign := headNot_of_digit (fun _ => byteDigit_sign) hc (more ++ rest)
    obtain ⟨rfl, hbehind⟩ := append_inj_of_headNot hblanks'
      (headNot_sign_append hblank hsign' digitsHead) hblanks
      (headNot_sign_append hblank hsign htext) hrest
    obtain ⟨rfl, htext⟩ := append_inj_of_headNot hsign'.all digitsSign hsign.all hsigned hbehind
    exact ⟨c :: more, n, rfl, ⟨rest, htext⟩, hdigits, by rw [hsign'.value_unique hsign]⟩

/-- A number has a digit. -/
theorem NumberText.exists_digit (h : NumberText blank b text v) :
    ∃ c ∈ text, (byteDigit c).isSome = true := by
  cases h with
  | @mk blanks sign digits s n _ _ hdigits =>
    obtain ⟨c, rest, rfl, hc⟩ := hdigits.head
    exact ⟨c, List.mem_append_right _ (List.mem_append_right _ List.mem_cons_self), hc⟩

/-- What is longest behind the blanks and the sign is longest with them. -/
theorem longest_numberText (hblank : Apart blank) (hblanks : ∀ c ∈ blanks, blank c = true)
    (hsign : SignText sign s) {digits rest : List UInt8}
    (h : LongestPrefix (fun front => ∃ n, Magnitude b front n) text digits rest) :
    LongestPrefix (fun front => ∃ v, NumberText blank b front v) (blanks ++ (sign ++ text))
      (blanks ++ (sign ++ digits)) rest := by
  obtain ⟨n, hn⟩ := h.holds
  obtain ⟨c, more, rfl, hc⟩ := hn.head
  obtain rfl := h.append
  refine ⟨?_, ⟨_, .mk hblanks hsign hn⟩, fun other hpre ⟨v, hv⟩ => ?_⟩
  · rw [List.append_assoc, List.append_assoc]
  · obtain ⟨digits, m, rfl, hdigits, hm, -⟩ := hv.split hblank hblanks hsign
      (headNot_of_digit hblank.digit hc (more ++ rest))
      (headNot_of_digit (fun _ => byteDigit_sign) hc (more ++ rest)) hpre
    have le := h.longest digits hdigits ⟨m, hm⟩
    rw [List.length_append, List.length_append, List.length_append, List.length_append]
    exact Nat.add_le_add_left (Nat.add_le_add_left le _) _

end Front

end Unics.Lib
