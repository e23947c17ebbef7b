import Unics.Laws.Libc.Printf

/-!
# A text that does not fit

`vsnprintf` stops storing when the output is full, and each conversion looks for room by itself. A
`%p` needs room for its `0x` and one digit more: with one or two places left it prints nothing, and
what stands behind it is printed there instead.
-/

namespace Unics

/-! ## Items of a format -/

/-- The letters of the conversions, and `%`. -/
def isLetter (c : UInt8) : Bool :=
  c = 115 || c = 100 || c = 105 || c = 120 || c = 88 || c = 117 || c = 99 || c = 112 || c = 37

/-- What `vsnprintf` takes for one: a piece without a width, or a `%` with another character. -/
inductive Item where
  | piece (p : Piece) (noWidth : p.NoWidth)
  | other (c : UInt8) (noLetter : c ≠ 0 ∧ isLetter c = false)
  deriving DecidableEq

namespace Item

def format : Item → List UInt8
  | .piece p _ => p.format
  | .other c _ => [37, c]

def args : Item → List Arg
  | .piece p _ => p.args
  | .other _ _ => []

def text : Item → List UInt8
  | .piece p _ => p.text
  | .other c _ => [37, c]

/-- The item is a `%p`. -/
def isPointer : Item → Bool
  | .piece (.conv _ (.ptr _)) _ => true
  | _ => false

/-- What is printed where there are so many places. -/
def put (room : ℕ) (item : Item) : List UInt8 :=
  if item.isPointer ∧ room ≤ 2 then [] else item.text.take room

theorem noNul (item : Item) : (0 : UInt8) ∉ item.format := by
  cases item with
  | piece p noWidth => exact p.noNul
  | other c noLetter =>
    intro h
    rcases List.mem_cons.mp h with hpercent | h
    · exact absurd hpercent (by decide)
    · exact noLetter.1 (List.mem_singleton.mp h).symm

end Item

/-- A `%` at the end, which is printed as it is. -/
def lonePercent (lone : Bool) : List UInt8 := if lone then [37] else []

section Items

variable (items : List Item) (lone : Bool)

/-- The format that items make up, with a `%` at its end or without. -/
def itemsFormat : CString where
  bytes := items.flatMap Item.format ++ lonePercent lone
  noNul h := by
    rcases List.mem_append.mp h with h | h
    · obtain ⟨item, -, hitem⟩ := List.mem_flatMap.mp h
      exact item.noNul hitem
    · cases lone with
      | false => exact List.not_mem_nil h
      | true => exact absurd (List.mem_singleton.mp h) (by decide)

def itemsArgs : List Arg := items.flatMap Item.args

/-- The text of a format that has room for all of it. -/
def itemsText : List UInt8 := items.flatMap Item.text ++ lonePercent lone

/-- The text with nothing for a `%p`. -/
def blankText : List UInt8 :=
  (items.flatMap fun item => if item.isPointer then [] else item.text) ++ lonePercent lone

/-- What is printed of it where there are so many places. -/
def putItems : ℕ → List Item → List UInt8
  | room, [] => (lonePercent lone).take room
  | room, item :: items => item.put room ++ putItems (room - (item.put room).length) items

end Items

/-! Every format is one of items. -/

theorem exists_item {c : UInt8} (hc : c ≠ 0) : ∃ item : Item, item.format = [37, c] := by
  have conv : ∀ conversion : Conversion, conversion.letter = c →
      ∃ item : Item, item.format = [37, c] := by
    rintro conversion rfl
    exact ⟨.piece (.conv .none conversion) rfl, rfl⟩
  cases hletter : isLetter c with
  | false => exact ⟨.other c ⟨hc, hletter⟩, rfl⟩
  | true =>
    simp only [isLetter, Bool.or_eq_true, decide_eq_true_eq] at hletter
    rcases hletter with (((((((hs | hd) | hi) | hx) | hX) | hu) | hchar) | hp) | hpercent
    · exact conv (.str none) hs.symm
    · exact conv (.number .d 0) hd.symm
    · exact conv (.number .i 0) hi.symm
    · exact conv (.number .x 0) hx.symm
    · exact conv (.number .X 0) hX.symm
    · exact conv (.number .u 0) hu.symm
    · exact conv (.char 0) hchar.symm
    · exact conv (.ptr 0) hp.symm
    · exact ⟨.piece .percent trivial, congrArg (fun d => [37, d]) hpercent.symm⟩

theorem exists_items :
    ∀ text : List UInt8, 0 ∉ text →
      ∃ (items : List Item) (lone : Bool), items.flatMap Item.format ++ lonePercent lone = text
  | [], _ => ⟨[], false, rfl⟩
  | [c], h => by
    have hc : c ≠ 0 := fun hc => h (hc ▸ List.mem_singleton_self c)
    by_cases hpercent : c = 37
    · exact ⟨[], true, hpercent ▸ rfl⟩
    · exact ⟨[.piece (.literal c ⟨hc, hpercent⟩) trivial], false, rfl⟩
  | c :: d :: text, h => by
    have hc : c ≠ 0 := fun hc => h (hc ▸ List.mem_cons_self)
    have hd : d ≠ 0 := fun hd => h (hd ▸ List.mem_cons_of_mem c List.mem_cons_self)
    by_cases hpercent : c = 37
    · obtain ⟨item, hitem⟩ := exists_item hd
      obtain ⟨items, lone, hitems⟩ := exists_items text fun hmem =>
        h (List.mem_cons_of_mem c (List.mem_cons_of_mem d hmem))
      refine ⟨item :: items, lone, ?_⟩
      rw [List.flatMap_cons, List.append_assoc, hitems, hitem, hpercent]
      rfl
    · obtain ⟨items, lone, hitems⟩ := exists_items (d :: text) fun hmem =>
        h (List.mem_cons_of_mem c hmem)
      refine ⟨.piece (.literal c ⟨hc, hpercent⟩) trivial :: items, lone, ?_⟩
      rw [List.flatMap_cons, List.append_assoc, hitems]
      rfl

theorem exists_itemsFormat (format : CString) : ∃ items lone, itemsFormat items lone = format := by
  obtain ⟨items, lone, hitems⟩ := exists_items format.bytes format.noNul
  exact ⟨items, lone, CString.ext hitems⟩

/-! ## The run -/

section Run

variable {stop : ℕ}

/-- One character, where there is room for it. -/
theorem put_one (dst : List UInt8) (c : UInt8) :
    (if (dst.length : Int) < stop then dst ++ [c] else dst) = dst ++ [c].take (stop - dst.length) :=
  putUpTo_take stop dst [c]

theorem vsnprintfConv_put (conversion : Conversion) (dst : List UInt8) (args : List Arg) :
    vsnprintfConv stop conversion.letter dst (conversion.arg :: args) =
      some (dst ++ (Item.piece (.conv .none conversion) rfl).put (stop - dst.length), args) := by
  cases conversion with
  | str s => exact congrArg (fun dst => some (dst, args)) (putUpTo_take stop dst _)
  | number letter num =>
    cases letter
    all_goals exact congrArg (fun dst => some (dst, args)) (putUpTo_take stop dst _)
  | char num => exact congrArg (fun dst => some (dst, args)) (put_one _ _)
  | ptr p =>
    refine congrArg (fun dst => some (dst, args)) ?_
    by_cases hroom : dst.length + 2 < stop
    · obtain ⟨room, hlast⟩ : ∃ room, stop - dst.length = room + 2 :=
        ⟨stop - dst.length - 2, by omega⟩
      have behind : stop - (dst ++ [48, 120]).length = room := by
        rw [List.length_append, List.length_cons, List.length_singleton]
        omega
      have wide : ¬ room + 2 ≤ 2 := by omega
      rw [if_pos (by omega), putUpTo_take, behind, hlast, List.append_assoc, Item.put,
        if_neg fun h => wide h.2]
      rfl
    · have narrow : stop - dst.length ≤ 2 := by omega
      rw [if_neg (by omega), Item.put, if_pos ⟨rfl, narrow⟩, List.append_nil]

theorem vsnprintfConv_other {c : UInt8} (hc : isLetter c = false) (dst : List UInt8)
    (args : List Arg) :
    vsnprintfConv stop c dst args = some (dst ++ [37, c].take (stop - dst.length), args) := by
  have both : dst ++ [37].take (stop - dst.length) ++
      [c].take (stop - (dst ++ [37].take (stop - dst.length)).length) =
        dst ++ [37, c].take (stop - dst.length) := by
    cases hroom : stop - dst.length with
    | zero =>
      rw [List.take_zero, List.take_zero, List.append_nil, hroom, List.take_zero, List.append_nil]
    | succ room =>
      have next : stop - (dst ++ [37]).length = room := by
        rw [List.length_append, List.length_singleton]
        omega
      rw [List.take_succ_cons, List.take_succ_cons, List.take_nil, next, List.append_assoc]
      rfl
  simp only [isLetter, Bool.or_eq_false_iff, decide_eq_false_iff_not] at hc
  obtain ⟨⟨⟨⟨⟨⟨⟨⟨hs, hd⟩, hi⟩, hx⟩, hX⟩, hu⟩, hchar⟩, hp⟩, hpercent⟩ := hc
  rw [vsnprintfConv, if_neg hs, if_neg (not_or.mpr ⟨hd, hi⟩), if_neg (not_or.mpr ⟨hx, hX⟩),
    if_neg hu, if_neg hchar, if_neg hp, if_neg hpercent]
  dsimp only
  rw [put_one dst 37, put_one _ c, both]

/-- One item, where the output is not full. -/
theorem vsnprintfLoop_item (item : Item) (format : List UInt8) {dst : List UInt8}
    (hroom : dst.length < stop) (args : List Arg) :
    vsnprintfLoop stop false (item.format ++ format) dst (item.args ++ args) =
      vsnprintfLoop stop false format (dst ++ item.put (stop - dst.length)) args := by
  cases item with
  | other c noLetter =>
    refine (vsnprintfLoop_directive (Int.ofNat_lt.mpr hroom) c format args).trans ?_
    rw [vsnprintfConv_other noLetter.2]
    rfl
  | piece p noWidth =>
    cases p with
    | literal c plain =>
      have room : ¬ ¬ (dst.length : Int) < stop := not_not.mpr (Int.ofNat_lt.mpr hroom)
      have one : (Item.piece (.literal c plain) noWidth).put (stop - dst.length) = [c] :=
        List.take_of_length_le (Nat.sub_pos_of_lt hroom)
      rw [one]
      exact (if_neg room).trans (if_pos (.inl plain.2))
    | percent =>
      have one : (Item.piece .percent noWidth).put (stop - dst.length) = [37] :=
        List.take_of_length_le (Nat.sub_pos_of_lt hroom)
      have conv : vsnprintfConv stop 37 dst args =
          some (if (dst.length : Int) < stop then dst ++ [37] else dst, args) := rfl
      refine (vsnprintfLoop_directive (Int.ofNat_lt.mpr hroom) 37 format args).trans ?_
      rw [one, conv, if_pos (Int.ofNat_lt.mpr hroom)]
      rfl
    | conv width conversion =>
      obtain ⟨digits, isDigit⟩ := width
      obtain rfl : digits = [] := noWidth
      refine (vsnprintfLoop_directive (Int.ofNat_lt.mpr hroom) conversion.letter format
        (conversion.arg :: args)).trans ?_
      rw [vsnprintfConv_put]
      rfl

theorem length_put_le (item : Item) (room : ℕ) : (item.put room).length ≤ room := by
  unfold Item.put
  split
  · exact Nat.zero_le room
  · exact List.length_take_le room _

theorem length_putItems_le (items : List Item) (lone : Bool) (room : ℕ) :
    (putItems lone room items).length ≤ room := by
  induction items generalizing room with
  | nil => exact List.length_take_le room _
  | cons item items ih =>
    have one := length_put_le item room
    have rest := ih (room - (item.put room).length)
    rw [putItems, List.length_append]
    omega

theorem putItems_zero (items : List Item) (lone : Bool) : putItems lone 0 items = [] :=
  List.length_eq_zero_iff.mp (Nat.le_zero.mp (length_putItems_le items lone 0))

/-- What is printed of a format, wherever the output is full. -/
theorem vsnprintfLoop_items (items : List Item) (lone : Bool) (dst : List UInt8)
    (hdst : dst.length ≤ stop) (args : List Arg) :
    ∃ left, vsnprintfLoop stop false (itemsFormat items lone).bytes dst (itemsArgs items ++ args) =
      some (dst ++ putItems lone (stop - dst.length) items, left) := by
  induction items generalizing dst with
  | nil =>
    refine ⟨args, ?_⟩
    cases lone with
    | false => exact congrArg (fun dst => some (dst, args)) (by
        rw [putItems, lonePercent, if_neg Bool.false_ne_true, List.take_nil, List.append_nil])
    | true =>
      have last : vsnprintfLoop stop false [37] dst args =
          some (if (dst.length : Int) < stop then dst ++ [37] else dst, args) := by
        rw [vsnprintfLoop]
        by_cases hroom : (dst.length : Int) < stop
        · rw [if_neg (not_not.mpr hroom), if_pos hroom]
          exact if_pos (.inr rfl)
        · rw [if_pos hroom, if_neg hroom]
      refine last.trans ?_
      rw [put_one]
      rfl
  | cons item items ih =>
    by_cases hroom : dst.length < stop
    · have format : (itemsFormat (item :: items) lone).bytes =
          item.format ++ (itemsFormat items lone).bytes := List.append_assoc _ _ _
      have words : itemsArgs (item :: items) ++ args = item.args ++ (itemsArgs items ++ args) :=
        List.append_assoc _ _ _
      have fits := length_put_le item (stop - dst.length)
      have whole : (dst ++ item.put (stop - dst.length)).length =
          dst.length + (item.put (stop - dst.length)).length := List.length_append
      obtain ⟨left, hleft⟩ := ih (dst ++ item.put (stop - dst.length)) (by omega)
      refine ⟨left, ?_⟩
      rw [format, words, vsnprintfLoop_item item _ hroom, hleft, whole, putItems, List.append_assoc,
        Nat.sub_add_eq]
    · have full : stop - dst.length = 0 := by omega
      refine ⟨itemsArgs (item :: items) ++ args, ?_⟩
      refine (vsnprintfLoop_full (fun h => hroom (Int.ofNat_lt.mp h)) _ _).trans ?_
      rw [full, putItems_zero, List.append_nil]

end Run

/-! ## The first characters -/

section Prefix

variable (lone : Bool)

/-- Where a `%p` begins with one or two places left, what stands behind it begins as its `0x` does,
if every `%p` in it is left out. -/
def PointersFit (room : ℕ) (items : List Item) : Prop :=
  ∀ before item after, items = before ++ item :: after → item.isPointer = true →
    ∀ places, places = 1 ∨ places = 2 → (before.flatMap Item.text).length + places = room →
      (blankText after lone).take places = [48, 120].take places

theorem Item.put_eq_take {item : Item} {room : ℕ} (h : ¬ (item.isPointer = true ∧ room ≤ 2)) :
    item.put room = item.text.take room :=
  if_neg h

theorem sub_length_take (room : ℕ) (text : List UInt8) :
    room - (text.take room).length = room - text.length := by
  rw [List.length_take]
  omega

/-- With up to two places left no `%p` is printed. -/
theorem putItems_blank {room : ℕ} (hroom : room ≤ 2) (items : List Item) :
    putItems lone room items = (blankText items lone).take room := by
  induction items generalizing room with
  | nil => rfl
  | cons item items ih =>
    have rest : blankText (item :: items) lone =
        (if item.isPointer then [] else item.text) ++ blankText items lone :=
      List.append_assoc _ _ _
    rw [putItems, rest]
    by_cases hpointer : item.isPointer = true
    · have nothing : item.put room = [] := if_pos ⟨hpointer, hroom⟩
      rw [nothing, if_pos hpointer]
      exact ih hroom
    · have shown := Item.put_eq_take fun h : item.isPointer = true ∧ room ≤ 2 => hpointer h.1
      rw [shown, if_neg hpointer, sub_length_take, ih (by omega), List.take_append]

theorem pointersFit_cons (room : ℕ) (item : Item) (items : List Item) :
    PointersFit lone room (item :: items) ↔
      (item.isPointer = true → room = 1 ∨ room = 2 →
        (blankText items lone).take room = [48, 120].take room) ∧
      PointersFit lone (room - item.text.length) items := by
  constructor
  · intro h
    refine ⟨fun hpointer hroom => h [] item items rfl hpointer room hroom (Nat.zero_add room), ?_⟩
    intro before pointer after heq hpointer places hplaces hroom
    refine h (item :: before) pointer after (congrArg _ heq) hpointer places hplaces ?_
    rw [List.flatMap_cons, List.length_append]
    omega
  · rintro ⟨hfirst, hrest⟩ before pointer after heq hpointer places hplaces hroom
    cases before with
    | nil =>
      obtain ⟨rfl, rfl⟩ := List.cons.inj heq
      obtain rfl : places = room := (Nat.zero_add places).symm.trans hroom
      exact hfirst hpointer hplaces
    | cons first before =>
      obtain ⟨rfl, rfl⟩ := List.cons.inj heq
      rw [List.flatMap_cons, List.length_append] at hroom
      exact hrest before pointer after rfl hpointer places hplaces (by omega)

/-- The text of a `%p` has at least three characters. -/
theorem Item.text_of_isPointer {item : Item} (h : item.isPointer = true) :
    ∃ digits, digits ≠ [] ∧ item.text = [48, 120] ++ digits := by
  unfold Item.isPointer at h
  split at h
  · next p _ => exact ⟨numText p 16, numText_ne_nil (by decide) (by decide) p, rfl⟩
  · exact absurd h Bool.false_ne_true

/-- What is printed are the first characters of the text, if the pointers fit. -/
theorem putItems_eq_take_iff (room : ℕ) (items : List Item) :
    putItems lone room items = (itemsText items lone).take room ↔ PointersFit lone room items := by
  induction items generalizing room with
  | nil =>
    refine iff_of_true rfl fun before item after h => ?_
    exact absurd h.symm (List.append_ne_nil_of_right_ne_nil _ (List.cons_ne_nil item after))
  | cons item items ih =>
    have whole : itemsText (item :: items) lone = item.text ++ itemsText items lone :=
      List.append_assoc _ _ _
    rw [pointersFit_cons, putItems, whole]
    by_cases hnarrow : item.isPointer = true ∧ room ≤ 2
    · obtain ⟨hpointer, hroom⟩ := hnarrow
      obtain ⟨digits, hdigits, htext⟩ := Item.text_of_isPointer hpointer
      have nothing : item.put room = [] := if_pos ⟨hpointer, hroom⟩
      have full : room - item.text.length = 0 := by
        rw [htext, List.length_append, List.length_cons, List.length_singleton]
        omega
      have first : (item.text ++ itemsText items lone).take room = [48, 120].take room := by
        rw [htext, List.append_assoc]
        exact List.take_append_of_le_length hroom
      have vacuous : PointersFit lone 0 items := by
        intro before pointer after _ _ places hplaces hsum
        omega
      rw [nothing, List.nil_append, List.length_nil, Nat.sub_zero, putItems_blank lone hroom, first,
        full, and_iff_left vacuous]
      constructor
      · exact fun h _ _ => h
      · intro h
        rcases Nat.eq_zero_or_pos room with rfl | hpos
        · rfl
        · exact h hpointer (by omega)
    · rw [Item.put_eq_take hnarrow, sub_length_take, List.take_append, List.append_right_inj, ih,
        and_iff_right]
      exact fun hpointer hroom => absurd ⟨hpointer, by omega⟩ hnarrow

/-- With room for all of it, every `%p` fits. -/
theorem pointersFit_of_le {room : ℕ} {items : List Item}
    (h : (itemsText items lone).length ≤ room) : PointersFit lone room items := by
  rintro before item after rfl hpointer places hplaces hroom
  obtain ⟨digits, hdigits, htext⟩ := Item.text_of_isPointer hpointer
  have some_digit := List.length_pos_iff.mpr hdigits
  have three : item.text.length = 2 + digits.length := by
    rw [htext, List.length_append]
    rfl
  simp only [itemsText, List.flatMap_append, List.flatMap_cons, List.length_append] at h
  omega

end Prefix

theorem vsnprintf_items (items : List Item) (lone : Bool) (args : List Arg) {n : ℕ} (hn : 1 ≤ n) :
    ∃ left, vsnprintf n (itemsFormat items lone) (itemsArgs items ++ args) =
      some { bytes := putItems lone (n - 1) items, ret := (putItems lone (n - 1) items).length,
             args := left } := by
  have last : (n : Int) - 1 = (n - 1 : ℕ) := by omega
  obtain ⟨left, hleft⟩ := vsnprintfLoop_items items lone [] (Nat.zero_le (n - 1)) args
  refine ⟨left, ?_⟩
  rw [vsnprintf, last, hleft]
  rfl

/-- `vsnprintf` prints the text of a format that it has room for. With less room it prints no more
than fits, returns the number of characters, and what it prints are the first characters of the text
exactly where every `%p` fits. -/
theorem vsnprintf_prefix_iff (items : List Item) (lone : Bool) (args : List Arg) :
    (∀ m, (itemsText items lone).length < m →
      (vsnprintf m (itemsFormat items lone) (itemsArgs items ++ args)).map Printed.bytes =
        some (itemsText items lone)) ∧
      ∀ n, 1 ≤ n → ∃ printed,
        vsnprintf n (itemsFormat items lone) (itemsArgs items ++ args) = some printed ∧
        printed.bytes.length < n ∧ printed.ret = printed.bytes.length ∧
        (printed.bytes = (itemsText items lone).take (n - 1) ↔
          PointersFit lone (n - 1) items) := by
  refine ⟨fun m hm => ?_, fun n hn => ?_⟩
  · obtain ⟨left, hleft⟩ := vsnprintf_items items lone args (by omega : 1 ≤ m)
    have fits := pointersFit_of_le lone (by omega : (itemsText items lone).length ≤ m - 1)
    rw [hleft, Option.map_some, (putItems_eq_take_iff lone _ items).mpr fits,
      List.take_of_length_le (by omega)]
  · obtain ⟨left, hleft⟩ := vsnprintf_items items lone args hn
    have short := length_putItems_le items lone (n - 1)
    refine ⟨_, hleft, ?_, rfl, putItems_eq_take_iff lone _ items⟩
    dsimp only
    omega

/-- A `%p` for the null pointer and an `x`. -/
def pointerThenX : List Item :=
  [.piece (.conv .none (.ptr 0)) rfl, .piece (.literal 120 (by decide)) trivial]

/-- In 5 bytes all of it fits. -/
theorem vsnprintf_prefix_iff_pointer :
    ∃ printed, vsnprintf 5 (itemsFormat pointerThenX false) (itemsArgs pointerThenX ++ []) =
        some printed ∧
      printed.bytes.length < 5 ∧ printed.ret = printed.bytes.length ∧
      (printed.bytes = (itemsText pointerThenX false).take (5 - 1) ↔
        PointersFit false (5 - 1) pointerThenX) :=
  (vsnprintf_prefix_iff pointerThenX false []).2 5 (by decide)

/-- The text is "0x0x", and in 2 bytes its `x` is printed. -/
theorem vsnprintf_pointerThenX :
    vsnprintf 64 (itemsFormat pointerThenX false) [.ptr 0] =
        some { bytes := [48, 120, 48, 120], ret := 4, args := [] } ∧
      vsnprintf 2 (itemsFormat pointerThenX false) [.ptr 0] =
        some { bytes := [120], ret := 1, args := [] } :=
  ⟨rfl, rfl⟩

end Unics
