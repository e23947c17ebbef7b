import Unics.Laws.Libc.Console
import Unics.Laws.Libc.Strtol

/-!
# Fields of a scan

The formats that literal characters, whitespace and directives without width and length make up, the
texts that can be typed, and the fields that a directive stands for. Both scans read the digits of a
number alike (`NumberConv.scan_eq`, `NumberConv.scanString_eq`), except that `scanf` waits for the
character behind them.
-/

namespace Unics

open Unics.Lib

/-! ## Formats and texts -/

inductive NumberConv where
  | d
  | i
  | u
  | x
  deriving DecidableEq

/-- What a format is built from. -/
inductive ScanItem where
  | literal (c : UInt8) (plain : c ≠ 0 ∧ c ≠ 37 ∧ isspace c = false)
  | blank (c : UInt8) (space : isspace c = true)
  | percent
  | number (conv : NumberConv)
  | char
  | string

def NumberConv.letter : NumberConv → UInt8
  | .d => 100
  | .i => 105
  | .u => 117
  | .x => 120

def ScanItem.text : ScanItem → List UInt8
  | .literal c _ => [c]
  | .blank c _ => [c]
  | .percent => [37, 37]
  | .number conv => [37, conv.letter]
  | .char => [37, 99]
  | .string => [37, 115]

def scanItemsText (items : List ScanItem) : List UInt8 := items.flatMap ScanItem.text

theorem ScanItem.zero_notMem (item : ScanItem) : (0 : UInt8) ∉ item.text := by
  cases item with
  | literal c plain => exact fun h => plain.1 (List.mem_singleton.mp h).symm
  | blank c space =>
    intro h
    rw [← List.mem_singleton.mp h] at space
    exact absurd space (by decide)
  | percent => decide
  | number conv =>
    cases conv
    all_goals decide
  | char => decide
  | string => decide

def scanFormat (items : List ScanItem) : CString where
  bytes := scanItemsText items
  noNul h :=
    let ⟨item, _, hmem⟩ := List.mem_flatMap.mp h
    item.zero_notMem hmem

/-- A text of printable characters and blanks. A newline ends it. -/
structure ScanText where
  body : List UInt8
  plain : ∀ c ∈ body, isKept c = true ∨ c = 9

def ScanText.bytes (text : ScanText) : List UInt8 := text.body ++ [10]

/-- A character of such a text: the terminator, `EOF` and what erases are none. -/
theorem ScanText.mem_bytes {text : ScanText} {c : UInt8} (h : c ∈ text.bytes) :
    c ≠ 0 ∧ c ≠ eof ∧ isErase c = false := by
  rcases List.mem_append.mp h with h | h
  · rcases text.plain c h with hkept | rfl
    · refine ⟨?_, ?_, (isKept_newline hkept).2⟩
      · rintro rfl
        exact absurd hkept (by decide)
      · rintro rfl
        exact absurd hkept (by decide)
    · decide
  · rw [List.mem_singleton.mp h]
    decide

def ScanText.string (text : ScanText) : CString where
  bytes := text.bytes
  noNul h := (ScanText.mem_bytes h).1 rfl

/-- What the console hands out of it. -/
def ScanText.console (text : ScanText) : List UInt8 := handedOut [] text.bytes

/-- A line without tabs that fits comes out as it is. -/
theorem ScanText.console_eq {text : ScanText} (hkept : ∀ c ∈ text.body, isKept c = true)
    (hfits : text.body.length < inputBufferSize - 1) : text.console = text.bytes :=
  handedOut_line hkept (by rw [List.length_nil, Nat.zero_add]; exact hfits)

/-! ## Fields -/

def NumberConv.base : NumberConv → ℕ
  | .x => 16
  | _ => 10

/-- The sign of a number, and where its digits are: behind the sign, or behind a prefix. -/
def NumberConv.parts : NumberConv → List UInt8 → Int × List UInt8
  | .d, t => strtolSign t
  | .i, t => strtolSign t
  | .u, t => (1, t)
  | .x, t => (1, (strtolPrefix t).getD t)

/-- A number is there. -/
def NumberConv.Begins (conv : NumberConv) (t : List UInt8) : Prop :=
  (conv.parts t).2.head?.any (isDigitOf conv.base) = true

instance (conv : NumberConv) (t : List UInt8) : Decidable (conv.Begins t) :=
  inferInstanceAs (Decidable (_ = _))

/-- Its value, in 32 bits. -/
def NumberConv.value (conv : NumberConv) (t : List UInt8) : BitVec 32 :=
  BitVec.ofInt 32 ((conv.parts t).1 *
    digitsValue conv.base 0 ((conv.parts t).2.takeWhile (isDigitOf conv.base)))

/-- What is behind its digits. -/
def NumberConv.behind (conv : NumberConv) (t : List UInt8) : List UInt8 :=
  (conv.parts t).2.dropWhile (isDigitOf conv.base)

/-- Whitespace in front is gone over. -/
def skipBlanks (t : List UInt8) : List UInt8 := t.dropWhile isspace

def wordOf (t : List UInt8) : List UInt8 := t.takeWhile fun c => !isspace c

def behindWord (t : List UInt8) : List UInt8 := t.dropWhile fun c => !isspace c

theorem NumberConv.parts_suffix (conv : NumberConv) (t : List UInt8) : (conv.parts t).2 <:+ t := by
  have signed : (strtolSign t).2 <:+ t := by
    cases t with
    | nil => exact List.suffix_refl []
    | cons c t =>
      rw [strtolSign]
      split
      · exact List.suffix_cons c t
      · split
        · exact List.suffix_cons c t
        · exact List.suffix_refl _
  cases conv with
  | d => exact signed
  | i => exact signed
  | u => exact List.suffix_refl t
  | x =>
    show (strtolPrefix t).getD t <:+ t
    cases hprefixed : strtolPrefix t with
    | none => exact List.suffix_refl t
    | some rest =>
      obtain ⟨x, -, rfl⟩ := strtolPrefix_eq_some.mp hprefixed
      exact (List.suffix_cons x rest).trans (List.suffix_cons 48 _)

theorem NumberConv.behind_suffix (conv : NumberConv) (t : List UInt8) : conv.behind t <:+ t :=
  (List.dropWhile_suffix _).trans (conv.parts_suffix t)

/-- Behind the whitespace stands none. -/
theorem isspace_skipBlanks {t u : List UInt8} {c : UInt8} (h : skipBlanks t = c :: u) :
    isspace c = false := by
  have head := List.head?_dropWhile_not isspace t
  rw [← skipBlanks, h] at head
  exact head

/-- Where something is left behind the whitespace, it begins with a word. -/
theorem wordOf_eq_nil {t : List UInt8} (h : wordOf (skipBlanks t) = []) : skipBlanks t = [] := by
  cases hblanks : skipBlanks t with
  | nil => rfl
  | cons c u =>
    have space : (!isspace c) = true := by
      rw [isspace_skipBlanks hblanks]
      rfl
    rw [hblanks, wordOf, List.takeWhile_cons_of_pos (p := fun c => !isspace c) space] at h
    exact absurd h (List.cons_ne_nil c _)

/-! ## Loops -/

section Loops

variable {α : Type} {p : UInt8 → Bool} {turn : α → UInt8 → α} {t : List UInt8}

/-- The loop over the console's characters comes to the first that is not `p`, or waits for it. -/
theorem scanfWhile_eq (a : α) (t : List UInt8) :
    scanfWhile p turn a (t.map some) =
      match t.dropWhile p with
      | [] => none
      | c :: rest => some ((t.takeWhile p).foldl turn a, some c, ⟨false, rest.map some⟩) := by
  induction t generalizing a with
  | nil => rfl
  | cons c t ih =>
    rw [List.map_cons, scanfWhile]
    by_cases hc : p c = true
    · rw [if_pos hc, ih, List.dropWhile_cons_of_pos hc, List.takeWhile_cons_of_pos hc]
      rfl
    · rw [if_neg hc, List.dropWhile_cons_of_neg hc, List.takeWhile_cons_of_neg hc]
      rfl

/-- Without a width, the loop over a string does so too. -/
theorem sscanfWhile_eq (n : ℕ) (a : α) (t : List UInt8) :
    sscanfWhile p turn 0 n a t =
      (n + (t.takeWhile p).length, (t.takeWhile p).foldl turn a, t.dropWhile p) := by
  induction t generalizing n a with
  | nil => rfl
  | cons c t ih =>
    rw [sscanfWhile]
    by_cases hc : p c = true
    · rw [if_pos ⟨hc, .inl rfl⟩, ih, List.dropWhile_cons_of_pos hc, List.takeWhile_cons_of_pos hc,
        List.length_cons, Nat.add_right_comm]
      rfl
    · rw [if_neg fun h => hc h.1, List.dropWhile_cons_of_neg hc, List.takeWhile_cons_of_neg hc]
      rfl

theorem foldl_concat (bytes t : List UInt8) :
    t.foldl (fun bytes c => bytes ++ [c]) bytes = bytes ++ t := by
  induction t generalizing bytes with
  | nil => exact (List.append_nil bytes).symm
  | cons c t ih =>
    rw [List.foldl_cons, ih, List.append_assoc]
    rfl

end Loops

theorem getchar_nil {k : Console} (hk : k.answers = []) : k.getchar = none := by
  rw [Console.getchar, hk]

theorem getchar_cons {k : Console} {c : UInt8} {t : List UInt8}
    (hk : k.answers = (c :: t).map some) : k.getchar = some (some c, ⟨false, t.map some⟩) := by
  rw [Console.getchar, hk]
  rfl

/-! ## Numbers -/

section Numbers

variable {b n : ℕ} {turn : BitVec 32 → UInt8 → BitVec 32} {ds t : List UInt8} {k : Console}

theorem isFormatDigit_eq : isFormatDigit = isDigitOf 10 := by
  funext c
  exact forall_byte (P := fun c => isFormatDigit c = isDigitOf 10 c) (b := 256)
    (by decide +kernel) c.toNat_lt

theorem isxdigit_eq : isxdigit = isDigitOf 16 := by
  funext c
  exact forall_byte (P := fun c => isxdigit c = isDigitOf 16 c) (b := 256)
    (by decide +kernel) c.toNat_lt

/-- A turn that adds a digit. -/
def AddsDigit (b : ℕ) (turn : BitVec 32 → UInt8 → BitVec 32) : Prop :=
  ∀ n c, isDigitOf b c = true →
    turn (BitVec.ofNat 32 n) c = BitVec.ofNat 32 (n * b + (byteDigit c).getD 0)

theorem ofNat_mul_add (n b d : ℕ) :
    BitVec.ofNat 32 n * BitVec.ofNat 32 b + BitVec.ofNat 32 d = BitVec.ofNat 32 (n * b + d) := by
  rw [BitVec.ofNat_add, BitVec.ofNat_mul]

theorem addsDigit_decimal : AddsDigit 10 decimalTurn := by
  intro n c hc
  have digit : byteDigit c = some (c.toNat - 48) := if_pos ((isDigitOf_ten c).mp hc)
  rw [digit]
  exact ofNat_mul_add n 10 (c.toNat - 48)

theorem addsDigit_hex : AddsDigit 16 hexTurn := by
  intro n c hc
  have digit : (byteDigit c).getD 0 =
      if isFormatDigit c then c.toNat - 48 else (scanTolower c).toNat - 97 + 10 :=
    forall_byte (P := fun c => isDigitOf 16 c = true → (byteDigit c).getD 0 =
      if isFormatDigit c then c.toNat - 48 else (scanTolower c).toNat - 97 + 10) (b := 256)
      (by decide +kernel) c.toNat_lt hc
  rw [digit, hexTurn]
  split
  · exact ofNat_mul_add n 16 _
  · exact ofNat_mul_add n 16 _

theorem AddsDigit.foldl (hturn : AddsDigit b turn) (hds : ∀ c ∈ ds, isDigitOf b c = true) (n : ℕ) :
    ds.foldl turn (BitVec.ofNat 32 n) = BitVec.ofNat 32 (digitsValue b n ds) := by
  induction ds generalizing n with
  | nil => rfl
  | cons c ds ih =>
    rw [List.foldl_cons, hturn n c (hds c List.mem_cons_self),
      ih fun d hd => hds d (List.mem_cons_of_mem c hd)]
    rfl

/-- The digits in front, if there are some. -/
def digitsAhead (b : ℕ) (sign : Int) (t : List UInt8) : Option (BitVec 32) :=
  if t.head?.any (isDigitOf b) then
    some (BitVec.ofInt 32 (sign * digitsValue b 0 (t.takeWhile (isDigitOf b))))
  else none

theorem digitsAhead_sign (b : ℕ) (sign : Int) (t : List UInt8) :
    (digitsAhead b 1 t).map (· * BitVec.ofInt 32 sign) = digitsAhead b sign t := by
  unfold digitsAhead
  split
  · rw [Option.map_some, Int.one_mul, Int.mul_comm, BitVec.ofInt_mul]
  · rfl

theorem AddsDigit.digitsAhead_cons (hturn : AddsDigit b turn) {c : UInt8}
    (hc : isDigitOf b c = true) (t : List UInt8) :
    digitsAhead b 1 (c :: t) = some (((c :: t).takeWhile (isDigitOf b)).foldl turn 0) := by
  have digits : ∀ d ∈ (c :: t).takeWhile (isDigitOf b), isDigitOf b d = true :=
    fun d hd => List.mem_takeWhile_imp hd
  have value := hturn.foldl digits 0
  have some : ((c :: t).head?.any (isDigitOf b)) = true := hc
  rw [digitsAhead, if_pos some, Int.one_mul, BitVec.ofInt_natCast, ← value]
  rfl

/-- What `scanf` makes of the digits in front: it waits for the character behind them. -/
def scanfDigits (b : ℕ) (sign : Int) (t : List UInt8) : Option (Option (BitVec 32) × Console) :=
  if t.dropWhile (isDigitOf b) = [] then none
  else some (digitsAhead b sign t, ⟨true, (t.dropWhile (isDigitOf b)).map some⟩)

theorem scanfNumber_eq (hturn : AddsDigit b turn) {c : UInt8} (hk : k.answers = t.map some)
    (hfree : k.unget = false ∨ isDigitOf b c = true) :
    scanfNumber (isDigitOf b) turn (some c) k = scanfDigits b 1 (c :: t) := by
  unfold scanfNumber scanfDigits
  by_cases hc : isDigitOf b c = true
  · have digit : (some c).any (isDigitOf b) = true := hc
    rw [if_pos digit, hk, ← List.map_cons (f := some), scanfWhile_eq,
      hturn.digitsAhead_cons hc]
    cases (c :: t).dropWhile (isDigitOf b) with
    | nil => rfl
    | cons d rest => rfl
  · have digit : ¬ (some c).any (isDigitOf b) = true := hc
    have ahead : digitsAhead b 1 (c :: t) = none := if_neg hc
    rw [if_neg digit, List.dropWhile_cons_of_neg hc, if_neg (List.cons_ne_nil c t), ahead,
      Console.ungetc, hfree.resolve_right hc, hk]
    rfl

/-- The first character is taken from the console. -/
theorem getchar_scanfNumber (hturn : AddsDigit b turn) (hk : k.answers = t.map some) :
    (k.getchar >>= fun (c, k) => scanfNumber (isDigitOf b) turn c k) = scanfDigits b 1 t := by
  cases t with
  | nil =>
    rw [getchar_nil hk]
    rfl
  | cons c t =>
    rw [getchar_cons hk]
    exact scanfNumber_eq hturn rfl (.inl rfl)

theorem scanfDigits_neg (b : ℕ) (t : List UInt8) :
    ((scanfDigits b 1 t).map fun r => (r.1.map (· * -1), r.2)) = scanfDigits b (-1) t := by
  have minus : (-1 : BitVec 32) = BitVec.ofInt 32 (-1) := by decide
  unfold scanfDigits
  split
  · rfl
  · rw [Option.map_some, minus, digitsAhead_sign]

/-- How `scanf` reads a number. -/
def NumberConv.scan : NumberConv → Console → Option (Option (BitVec 32) × Console)
  | .d => scanfInt
  | .i => scanfInt
  | .u => scanfUint
  | .x => scanfHex

theorem scanfInt_eq (hk : k.answers = t.map some) :
    scanfInt k = scanfDigits 10 (strtolSign t).1 (strtolSign t).2 := by
  unfold scanfInt
  rw [isFormatDigit_eq]
  cases t with
  | nil =>
    rw [getchar_nil hk]
    rfl
  | cons c t =>
    rw [getchar_cons hk]
    have rest : (⟨false, t.map some⟩ : Console).answers = t.map some := rfl
    have digits := getchar_scanfNumber addsDigit_decimal rest
    rw [strtolSign]
    dsimp only [Option.bind_eq_bind, Option.bind_some] at digits ⊢
    by_cases hminus : c = 45
    · rw [if_pos (congrArg some hminus), if_pos hminus, ← scanfDigits_neg, ← digits]
      cases Console.getchar ⟨false, t.map some⟩ with
      | none => rfl
      | some r => exact (Option.map_eq_bind ..).symm
    · rw [if_neg fun h => hminus (Option.some.inj h), if_neg hminus]
      by_cases hplus : c = 43
      · rw [if_pos (congrArg some hplus), if_pos hplus]
        exact digits
      · rw [if_neg fun h => hplus (Option.some.inj h), if_neg hplus]
        exact scanfNumber_eq addsDigit_decimal rfl (.inl rfl)

theorem scanfHex_eq (hk : k.answers = t.map some) :
    scanfHex k = scanfDigits 16 1 ((strtolPrefix t).getD t) := by
  unfold scanfHex
  rw [isxdigit_eq]
  cases t with
  | nil =>
    rw [getchar_nil hk]
    rfl
  | cons c t =>
    rw [getchar_cons hk]
    dsimp only [Option.bind_eq_bind, Option.bind_some]
    by_cases hzero : c = 48
    · rw [if_pos (congrArg some hzero)]
      cases t with
      | nil =>
        rw [hzero]
        rfl
      | cons x t =>
        rw [getchar_cons (k := ⟨false, (x :: t).map some⟩) rfl]
        dsimp only [Option.bind_some]
        by_cases hx : x = 120 ∨ x = 88
        · have hsome : some x = some 120 ∨ some x = some 88 :=
            hx.imp (congrArg some) (congrArg some)
          rw [if_pos hsome, strtolPrefix, if_pos ⟨hzero, hx⟩]
          exact getchar_scanfNumber addsDigit_hex rfl
        · have hnone : ¬ (some x = some 120 ∨ some x = some 88) :=
            fun h => hx (h.imp Option.some.inj Option.some.inj)
          rw [if_neg hnone, strtolPrefix, if_neg fun h => hx h.2, hzero]
          exact scanfNumber_eq addsDigit_hex (t := x :: t) rfl (.inr rfl)
    · have plain : strtolPrefix (c :: t) = none := by
        cases t with
        | nil => rfl
        | cons x t => exact if_neg fun h => hzero h.1
      rw [if_neg fun h => hzero (Option.some.inj h), plain]
      exact scanfNumber_eq addsDigit_hex rfl (.inl rfl)

theorem NumberConv.scan_eq (conv : NumberConv) (hk : k.answers = t.map some) :
    conv.scan k =
      if conv.behind t = [] then none
      else some (if conv.Begins t then some (conv.value t) else none,
        ⟨true, (conv.behind t).map some⟩) := by
  show conv.scan k = scanfDigits conv.base (conv.parts t).1 (conv.parts t).2
  cases conv with
  | d => exact scanfInt_eq hk
  | i => exact scanfInt_eq hk
  | u =>
    have digits := getchar_scanfNumber addsDigit_decimal hk
    rw [← isFormatDigit_eq] at digits
    exact digits
  | x => exact scanfHex_eq hk

/-- How `sscanf` reads a number. -/
def NumberConv.scanString : NumberConv → List UInt8 → Option (BitVec 32) × List UInt8
  | .d => sscanfInt 0
  | .i => sscanfInt 0
  | .u => sscanfUint 0
  | .x => sscanfHex 0

theorem sscanfNumber_eq (hturn : AddsDigit b turn) (t : List UInt8) :
    sscanfNumber (isDigitOf b) turn 0 t = (digitsAhead b 1 t, t.dropWhile (isDigitOf b)) := by
  unfold sscanfNumber
  rw [sscanfWhile_eq]
  dsimp only
  cases t with
  | nil => rfl
  | cons c t =>
    by_cases hc : isDigitOf b c = true
    · have count : 0 + ((c :: t).takeWhile (isDigitOf b)).length ≠ 0 := by
        rw [List.takeWhile_cons_of_pos hc, List.length_cons, Nat.zero_add]
        exact Nat.succ_ne_zero _
      rw [if_neg count, hturn.digitsAhead_cons hc]
    · have ahead : digitsAhead b 1 (c :: t) = none := if_neg hc
      rw [List.takeWhile_cons_of_neg hc, ahead]
      rfl

theorem NumberConv.scanString_eq (conv : NumberConv) (t : List UInt8) :
    conv.scanString t =
      (if conv.Begins (skipBlanks t) then some (conv.value (skipBlanks t)) else none,
        conv.behind (skipBlanks t)) := by
  show conv.scanString t =
    (digitsAhead conv.base (conv.parts (skipBlanks t)).1 (conv.parts (skipBlanks t)).2,
      conv.behind (skipBlanks t))
  have signed : sscanfInt 0 t = (digitsAhead 10 (strtolSign (skipBlanks t)).1
      (strtolSign (skipBlanks t)).2, (strtolSign (skipBlanks t)).2.dropWhile (isDigitOf 10)) := by
    unfold sscanfInt
    rw [isFormatDigit_eq]
    dsimp only
    rw [sscanfNumber_eq addsDigit_decimal]
    exact Prod.ext (digitsAhead_sign 10 _ _) rfl
  cases conv with
  | d => exact signed
  | i => exact signed
  | u =>
    show sscanfNumber isFormatDigit decimalTurn 0 _ = _
    rw [isFormatDigit_eq]
    exact sscanfNumber_eq addsDigit_decimal _
  | x =>
    show sscanfNumber isxdigit hexTurn 0 _ = _
    rw [isxdigit_eq]
    exact sscanfNumber_eq addsDigit_hex _

end Numbers

end Unics
