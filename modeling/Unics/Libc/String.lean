import Mathlib.Data.List.TakeWhile
import Unics.Lib.Checked
import Unics.Libc.CString

/-!
# Strings in arrays

`lib/libc/string.c` on `char` arrays of a given size. Accesses are checked: one outside the array
answers `none`.
-/

namespace Unics

open Unics.Lib

/-- `buf[i]`. -/
def loadChar (size : Nat) (buf : Buffer) (i : Nat) : Option UInt8 :=
  if i < size then some (buf i) else none

/-- `buf[i] = c`. -/
def storeChar (size : Nat) (buf : Buffer) (i : Nat) (c : UInt8) : Option Buffer :=
  if i < size then some (Function.update buf i c) else none

theorem loadChar_of_lt {size i : Nat} (buf : Buffer) (h : i < size) :
    loadChar size buf i = some (buf i) :=
  if_pos h

theorem storeChar_of_lt {size i : Nat} (buf : Buffer) (c : UInt8) (h : i < size) :
    storeChar size buf i c = some (Function.update buf i c) :=
  if_pos h

/-- `memcpy(buf + i, bytes, n)`, for the `n` bytes of a list. -/
def storeChars (size : Nat) : Buffer → Nat → List UInt8 → Option Buffer
  | buf, _, [] => some buf
  | buf, i, c :: bytes => do
    let buf ← storeChar size buf i c
    storeChars size buf (i + 1) bytes

/-- `while (n && (*dest++ = *src++)) n--;` from place `i` on. The answer is the array, the place and
the count where the loop stops: a terminator that was copied is not counted. -/
def strncpyLoop (size : Nat) (src : Buffer) : Nat → Nat → Buffer → Option (Buffer × Nat × Nat)
  | 0, i, dest => some (dest, i, 0)
  | n + 1, i, dest => do
    let c ← loadChar size src i
    let dest ← storeChar size dest i c
    if c ≠ 0 then strncpyLoop size src n (i + 1) dest else some (dest, i + 1, n + 1)

/-- `strncpy`, for two arrays of one size. -/
def strncpy (size : Nat) (dest src : Buffer) (n : Nat) : Option Buffer := do
  let (dest, i, n) ← strncpyLoop size src n 0 dest
  (List.range' i n).foldlM (fun dest i => storeChar size dest i 0) dest

/-- The bytes before the first terminator among the first `n`. -/
def textOf (buf : Buffer) (n : Nat) : List UInt8 := ((List.range n).map buf).takeWhile (· ≠ 0)

theorem zero_notMem_textOf (buf : Buffer) (n : Nat) : (0 : UInt8) ∉ textOf buf n := by
  intro h
  unfold textOf at h
  have taken := List.mem_takeWhile_imp (p := fun c : UInt8 => decide (c ≠ 0)) h
  exact of_decide_eq_true taken rfl

/-- The string that an array of `size` bytes starts with. A search for its terminator leaves an
array that has none. -/
def CString.ofBuffer (size : Nat) (buf : Buffer) : Option CString :=
  if (textOf buf size).length < size then
    some ⟨textOf buf size, zero_notMem_textOf buf size⟩
  else none

/-- The array that a string lies in, with zeros behind it. -/
def CString.buffer (str : CString) : Buffer := fun i => str.bytes[i]?.getD 0

/-- `strcmp`, where the strings start to differ. -/
def strcmpLoop : List UInt8 → List UInt8 → Int
  | [], [] => 0
  | [], d :: _ => 0 - d.toNat
  | c :: _, [] => c.toNat
  | c :: s, d :: t => if c = d then strcmpLoop s t else c.toNat - d.toNat

def strcmp (s1 s2 : CString) : Int := strcmpLoop s1.bytes s2.bytes

/-! ## Parts of an array -/

/-- `n` bytes of a buffer. -/
def bytesAt (buf : Buffer) (start n : Nat) : List UInt8 := (List.range' start n).map buf

@[simp] theorem length_bytesAt (buf : Buffer) (start n : Nat) :
    (bytesAt buf start n).length = n := by
  rw [bytesAt, List.length_map, List.length_range']

theorem bytesAt_add (buf : Buffer) (start m n : Nat) :
    bytesAt buf start (m + n) = bytesAt buf start m ++ bytesAt buf (start + m) n := by
  rw [bytesAt, ← List.range'_append_1, List.map_append]
  rfl

theorem bytesAt_succ (buf : Buffer) (start n : Nat) :
    bytesAt buf start (n + 1) = buf start :: bytesAt buf (start + 1) n := rfl

/-- Bytes that are elsewhere in another buffer. -/
theorem bytesAt_congr {buf buf' : Buffer} {start start' n : Nat}
    (h : ∀ i < n, buf (start + i) = buf' (start' + i)) :
    bytesAt buf start n = bytesAt buf' start' n := by
  rw [bytesAt, bytesAt, List.range'_eq_map_range, List.range'_eq_map_range, List.map_map,
    List.map_map]
  exact List.map_congr_left fun i hi => h i (List.mem_range.mp hi)

/-- A byte stored behind the others. -/
theorem bytesAt_push (buf : Buffer) (start n : Nat) (c : UInt8) :
    bytesAt (Function.update buf (start + n) c) start (n + 1) = bytesAt buf start n ++ [c] := by
  rw [bytesAt_add, bytesAt_succ, Function.update_self]
  refine congrArg (· ++ [c]) (bytesAt_congr fun i hi => ?_)
  exact Function.update_of_ne (by omega) ..

/-- All bytes but the last. -/
theorem bytesAt_pop (buf : Buffer) (start n : Nat) :
    bytesAt buf start (n - 1) = (bytesAt buf start n).dropLast := by
  cases n with
  | zero => rfl
  | succ n =>
    rw [Nat.add_sub_cancel, bytesAt_add, bytesAt_succ]
    exact List.dropLast_concat.symm

/-- A byte stored elsewhere. -/
theorem bytesAt_update {buf : Buffer} {start n i : Nat} (hi : i < start ∨ start + n ≤ i)
    (c : UInt8) : bytesAt (Function.update buf i c) start n = bytesAt buf start n :=
  bytesAt_congr fun j hj => Function.update_of_ne (by omega) ..

theorem storeChar_of_le {size i : Nat} (buf : Buffer) (c : UInt8) (h : size ≤ i) :
    storeChar size buf i c = none :=
  if_neg (Nat.not_lt.mpr h)

/-- Bytes that fit are stored in their place, and nothing else changes. -/
theorem storeChars_fits (size : Nat) (buf : Buffer) (i : Nat) (bytes : List UInt8)
    (h : i + bytes.length ≤ size) :
    ∃ buf', storeChars size buf i bytes = some buf' ∧ bytesAt buf' i bytes.length = bytes ∧
      ∀ j, j < i ∨ i + bytes.length ≤ j → buf' j = buf j := by
  induction bytes generalizing buf i with
  | nil => exact ⟨buf, rfl, rfl, fun _ _ => rfl⟩
  | cons c bytes ih =>
    rw [List.length_cons] at h ⊢
    obtain ⟨buf', hstore, hbytes, hothers⟩ := ih (Function.update buf i c) (i + 1) (by omega)
    refine ⟨buf', ?_, ?_, fun j hj => ?_⟩
    · rw [storeChars, storeChar_of_lt buf c (by omega)]
      exact hstore
    · rw [bytesAt_succ, hbytes, hothers i (by omega), Function.update_self]
    · rw [hothers j (by omega), Function.update_of_ne (by omega)]

/-- Bytes that do not fit are stored outside. -/
theorem storeChars_none {size i : Nat} (buf : Buffer) {bytes : List UInt8} (hi : i ≤ size)
    (h : size < i + bytes.length) : storeChars size buf i bytes = none := by
  induction bytes generalizing buf i with
  | nil => exact absurd h (Nat.not_lt.mpr hi)
  | cons c bytes ih =>
    rw [List.length_cons] at h
    rw [storeChars]
    rcases Nat.lt_or_ge i size with hlt | hge
    · rw [storeChar_of_lt buf c hlt]
      exact ih _ hlt (by omega)
    · rw [storeChar_of_le buf c hge]
      rfl

theorem strcmpLoop_eq_zero_iff {s t : List UInt8} (hs : (0 : UInt8) ∉ s) (ht : (0 : UInt8) ∉ t) :
    strcmpLoop s t = 0 ↔ s = t := by
  induction s generalizing t with
  | nil =>
    cases t with
    | nil => exact iff_of_true rfl rfl
    | cons d t =>
      have hd : d.toNat ≠ 0 := fun h => ht (by
        rw [show d = 0 from UInt8.toNat_inj.mp h]
        exact List.mem_cons_self)
      refine iff_of_false (fun h => ?_) (List.cons_ne_nil d t).symm
      rw [strcmpLoop] at h
      omega
  | cons c s ih =>
    cases t with
    | nil =>
      have hc : c.toNat ≠ 0 := fun h => hs (by
        rw [show c = 0 from UInt8.toNat_inj.mp h]
        exact List.mem_cons_self)
      refine iff_of_false (fun h => ?_) (List.cons_ne_nil c s)
      rw [strcmpLoop] at h
      omega
    | cons d t =>
      rw [strcmpLoop]
      split
      · next heq =>
        subst heq
        rw [ih (fun h => hs (List.mem_cons_of_mem c h)) (fun h => ht (List.mem_cons_of_mem c h)),
          List.cons_inj_right]
      · next hne =>
        refine iff_of_false (fun h => hne ?_) fun h => hne (List.cons.inj h).1
        exact UInt8.toNat_inj.mp (by omega)

/-- Two strings compare as equal where they are the same. -/
theorem strcmp_eq_zero_iff (s t : CString) : strcmp s t = 0 ↔ s = t :=
  (strcmpLoop_eq_zero_iff s.noNul t.noNul).trans CString.ext_iff.symm

/-! ## What a copy holds -/

/-- The text ends at the first terminator, or at the end. -/
theorem textOf_eq {buf : Buffer} {n k : Nat} (hk : k ≤ n) (hne : ∀ i < k, buf i ≠ 0)
    (hend : k < n → buf k = 0) : textOf buf n = (List.range k).map buf := by
  obtain ⟨m, rfl⟩ := Nat.exists_eq_add_of_le hk
  have before : ∀ c ∈ (List.range k).map buf, decide (c ≠ 0) = true := by
    intro c hc
    obtain ⟨i, hi, rfl⟩ := List.mem_map.mp hc
    exact decide_eq_true (hne i (List.mem_range.mp hi))
  rw [textOf, List.range_add, List.map_append, List.takeWhile_append_of_pos before, List.map_map]
  cases m with
  | zero => exact List.append_nil _
  | succ m =>
    have stop : ¬ decide ((buf ∘ fun x => k + x) 0 ≠ 0) = true := by
      show ¬ decide (buf k ≠ 0) = true
      rw [hend (by omega)]
      decide
    rw [List.range_succ_eq_map, List.map_cons,
      List.takeWhile_cons_of_neg (p := fun c : UInt8 => decide (c ≠ 0)) stop, List.append_nil]

/-- `k` bytes are copied: all of them, or those before the terminator, which is copied too. -/
theorem strncpyLoop_ends {size : Nat} {src : Buffer} {n i : Nat} (dest : Buffer)
    (h : i + n < size) :
    Ends (strncpyLoop size src n i dest) fun (dest', j, m) =>
      ∃ k ≤ n, (∀ l < i, dest' l = dest l) ∧
        (∀ l, i ≤ l → l < i + k → src l ≠ 0 ∧ dest' l = src l) ∧
        (k = n ∧ j = i + n ∧ m = 0 ∨
          k < n ∧ src (i + k) = 0 ∧ dest' (i + k) = 0 ∧ j = i + k + 1 ∧ m = n - k) := by
  induction n generalizing i dest with
  | zero =>
    exact ends_some.mpr ⟨0, Nat.le_refl 0, fun _ _ => rfl, fun l hl hlt => absurd hl (by omega),
      .inl ⟨rfl, rfl, rfl⟩⟩
  | succ n ih =>
    rw [strncpyLoop, loadChar_of_lt src (by omega)]
    show Ends (storeChar size dest i (src i) >>= _) _
    rw [storeChar_of_lt dest _ (by omega)]
    show Ends (if src i ≠ 0 then _ else _) _
    split
    · next hne =>
      refine (ih (Function.update dest i (src i)) (by omega)).mono ?_
      rintro ⟨dest', j, m⟩ ⟨k, hk, hold, hnew, hend⟩
      refine ⟨k + 1, by omega, fun l hl => ?_, fun l hl hlt => ?_, ?_⟩
      · rw [hold l (by omega), Function.update_of_ne (by omega)]
      · rcases Nat.eq_or_lt_of_le hl with rfl | hl
        · rw [hold i (by omega), Function.update_self]
          exact ⟨hne, rfl⟩
        · exact hnew l hl (by omega)
      · have place : i + (k + 1) = i + 1 + k := by omega
        rw [place]
        rcases hend with ⟨hk, hj, hm⟩ | ⟨hk, hsrc, hdest, hj, hm⟩
        · exact .inl ⟨by omega, by omega, hm⟩
        · exact .inr ⟨by omega, hsrc, hdest, hj, by omega⟩
    · next hnul =>
      have hnul : src i = 0 := not_not.mp hnul
      refine ends_some.mpr ⟨0, by omega, fun l hl => ?_, fun l hl hlt => absurd hl (by omega),
        .inr ⟨by omega, hnul, ?_, rfl, rfl⟩⟩
      · exact Function.update_of_ne (by omega) _ _
      · rw [Nat.add_zero, Function.update_self, hnul]

/-- Zeros that are stored one after the other, one of them behind the array. -/
theorem storeZeros_none {size i n : Nat} (dest : Buffer) (hi : i ≤ size) (h : size < i + n) :
    (List.range' i n).foldlM (fun dest i => storeChar size dest i 0) dest = none := by
  induction n generalizing i dest with
  | zero => omega
  | succ n ih =>
    rw [List.range'_succ, List.foldlM_cons]
    rcases Nat.lt_or_ge i size with hlt | hge
    · rw [storeChar_of_lt dest 0 hlt]
      exact ih _ hlt (by omega)
    · rw [storeChar_of_le dest 0 hge]
      rfl

/-- A source that ends before `n` bytes is padded with a zero more than there is room for. -/
theorem strncpy_overruns {size : Nat} (dest src : Buffer) {k : Nat} (hk : k < size)
    (hend : src k = 0) : strncpy size dest src size = none := by
  have copied : ∀ n i dest, i ≤ k → k < i + n → i + n = size →
      ∃ dest' j m, strncpyLoop size src n i dest = some (dest', j, m) ∧ j ≤ size ∧
        size < j + m := by
    intro n
    induction n with
    | zero => exact fun i dest hi hlt _ => absurd hlt (by omega)
    | succ n ih =>
      intro i dest hi hlt hsize
      rw [strncpyLoop, loadChar_of_lt src (by omega)]
      show ∃ _ _ _, (storeChar size dest i (src i) >>= _) = _ ∧ _
      rw [storeChar_of_lt dest _ (by omega)]
      show ∃ _ _ _, (if src i ≠ 0 then _ else _) = _ ∧ _
      split
      · next hne =>
        have before : i ≠ k := by
          rintro rfl
          exact hne hend
        exact ih (i + 1) _ (by omega) (by omega) (by omega)
      · exact ⟨_, _, _, rfl, by omega, by omega⟩
  obtain ⟨dest', j, m, hloop, hj, hlong⟩ := copied size 0 dest (Nat.zero_le k) (by omega)
    (Nat.zero_add size)
  rw [strncpy, hloop]
  exact storeZeros_none dest' hj hlong

/-- A copy of at most `n` bytes into an array with a byte more stays in the array, and the first `n`
bytes are the source's text and zeros. -/
theorem strncpy_ends {size : Nat} (dest src : Buffer) {n : Nat} (h : n < size) :
    Ends (strncpy size dest src n) fun dest' =>
      ∃ k ≤ n, (∀ l < k, src l ≠ 0 ∧ dest' l = src l) ∧ (∀ l, k ≤ l → l < n → dest' l = 0) ∧
        (k < n → src k = 0) := by
  refine (strncpyLoop_ends dest (by omega : 0 + n < size)).bind ?_
  rintro ⟨copied, j, m⟩ ⟨k, hk, _, hnew, hend⟩
  have zeros : Ends ((List.range' j m).foldlM (fun dest i => storeChar size dest i 0) copied)
      fun dest' : Buffer =>
        (∀ l < j, dest' l = copied l) ∧ ∀ l, j ≤ l → l < j + m → dest' l = 0 := by
    refine Ends.range' (I := fun i (dest' : Buffer) =>
      (∀ l < j, dest' l = copied l) ∧ ∀ l, j ≤ l → l < i → dest' l = 0) ?_
      ⟨fun _ _ => rfl, fun l hl hlt => absurd hl (by omega)⟩
    rintro i hi hlt s ⟨hold, hzero⟩
    rw [storeChar_of_lt s 0 (by omega)]
    refine ends_some.mpr ⟨fun l hl => ?_, fun l hl hlt => ?_⟩
    · rw [Function.update_of_ne (by omega), hold l hl]
    · by_cases here : l = i
      · rw [here, Function.update_self]
      · rw [Function.update_of_ne here, hzero l hl (by omega)]
  refine zeros.mono fun dest' ⟨hold, hzero⟩ => ⟨k, hk, fun l hl => ?_, fun l hl hlt => ?_, ?_⟩
  · have := hnew l (Nat.zero_le l) (by omega)
    exact ⟨this.1, (hold l (by omega)).trans this.2⟩
  · rcases hend with ⟨rfl, _⟩ | ⟨hk, hsrc, hdest, hj, hm⟩
    · omega
    · rw [Nat.zero_add] at hdest hj
      rcases Nat.eq_or_lt_of_le hl with rfl | hl
      · exact (hold k (by omega)).trans hdest
      · exact hzero l (by omega) (by omega)
  · intro hlt
    rcases hend with ⟨rfl, _⟩ | ⟨_, hsrc, _⟩
    · omega
    · rwa [Nat.zero_add] at hsrc

/-- A copy that is terminated behind its `n` bytes is a string with the source's text. -/
theorem strncpy_terminated {size : Nat} (dest src : Buffer) {n : Nat} (h : n < size) :
    Ends (strncpy size dest src n) fun dest' =>
      ∃ str, CString.ofBuffer size (Function.update dest' n 0) = some str ∧
        str.bytes = textOf src n := by
  refine (strncpy_ends dest src h).mono fun dest' ⟨k, hk, hcopy, hzero, hend⟩ => ?_
  have text : textOf src n = (List.range k).map src :=
    textOf_eq hk (fun i hi => (hcopy i hi).1) hend
  have same : ∀ i < k, Function.update dest' n 0 i = src i := fun i hi => by
    rw [Function.update_of_ne (by omega), (hcopy i hi).2]
  have stop : Function.update dest' n 0 k = 0 := by
    by_cases here : k = n
    · rw [here, Function.update_self]
    · rw [Function.update_of_ne here, hzero k (Nat.le_refl k) (by omega)]
  have held : textOf (Function.update dest' n 0) size = (List.range k).map src := by
    rw [textOf_eq (k := k) (by omega) (fun i hi => by rw [same i hi]; exact (hcopy i hi).1)
      fun _ => stop]
    exact List.map_congr_left fun i hi => same i (List.mem_range.mp hi)
  have short : (textOf (Function.update dest' n 0) size).length < size := by
    rw [held, List.length_map, List.length_range]
    omega
  exact ⟨_, if_pos short, held.trans text.symm⟩

/-- The string's bytes are those that the array starts with. -/
theorem CString.ofBuffer_bytes {size : Nat} {buf : Buffer} {str : CString}
    (h : CString.ofBuffer size buf = some str) : (List.range str.strlen).map buf = str.bytes := by
  unfold CString.ofBuffer at h
  split at h
  · next hshort =>
    obtain rfl := Option.some.inj h
    have first : textOf buf size <+: (List.range size).map buf := List.takeWhile_prefix _
    have taken := List.prefix_iff_eq_take.mp first
    rw [← List.map_take, List.take_range, Nat.min_eq_left (Nat.le_of_lt hshort)] at taken
    exact taken.symm
  · cases h

/-- The string ends in the array. -/
theorem CString.ofBuffer_end {size : Nat} {buf : Buffer} {str : CString}
    (h : CString.ofBuffer size buf = some str) : str.strlen < size ∧ buf str.strlen = 0 := by
  unfold CString.ofBuffer at h
  split at h
  · next hshort =>
    obtain rfl := Option.some.inj h
    have stop := List.head?_dropWhile_not (fun c : UInt8 => decide (c ≠ 0))
      ((List.range size).map buf)
    have parts := List.takeWhile_append_dropWhile (p := fun c : UInt8 => decide (c ≠ 0))
      (l := (List.range size).map buf)
    have here : ((List.range size).map buf)[(textOf buf size).length]? =
        some (buf (textOf buf size).length) := by
      rw [List.getElem?_map, List.getElem?_range hshort]
      rfl
    rw [← parts, textOf, List.getElem?_append_right (Nat.le_refl _), Nat.sub_self,
      ← List.head?_eq_getElem?] at here
    rw [here] at stop
    exact ⟨hshort, not_not.mp (of_decide_eq_false stop)⟩
  · cases h

/-- An array that holds a string and its terminator. -/
theorem CString.ofBuffer_eq {size : Nat} {buf : Buffer} {str : CString}
    (hlen : str.strlen < size) (hbytes : bytesAt buf 0 str.strlen = str.bytes)
    (hend : buf str.strlen = 0) : CString.ofBuffer size buf = some str := by
  have chars : ∀ i < str.strlen, buf i ≠ 0 := by
    intro i hi hzero
    refine str.noNul ?_
    rw [← hbytes, ← hzero]
    exact List.mem_map.mpr ⟨i, List.mem_range'_1.mpr ⟨Nat.zero_le i, by omega⟩, rfl⟩
  have text : textOf buf size = str.bytes := by
    rw [textOf_eq (Nat.le_of_lt hlen) chars fun _ => hend, ← hbytes, bytesAt,
      List.range_eq_range']
  unfold CString.ofBuffer
  have short : (textOf buf size).length < size := by
    rw [text]
    exact hlen
  rw [if_pos short]
  exact congrArg some (CString.ext text)

/-- What an array holds: the string, and its terminator behind it. -/
theorem CString.ofBuffer_eq_some_iff {size : Nat} {buf : Buffer} {str : CString} :
    CString.ofBuffer size buf = some str ↔
      str.strlen < size ∧ bytesAt buf 0 (str.strlen + 1) = str.bytes ++ [0] := by
  have parts : bytesAt buf 0 (str.strlen + 1) = bytesAt buf 0 str.strlen ++ [buf str.strlen] := by
    rw [bytesAt_add, Nat.zero_add]
    rfl
  rw [parts]
  constructor
  · intro h
    obtain ⟨hlen, hend⟩ := CString.ofBuffer_end h
    have front : bytesAt buf 0 str.strlen = str.bytes := by
      rw [bytesAt, ← List.range_eq_range']
      exact CString.ofBuffer_bytes h
    exact ⟨hlen, by rw [front, hend]⟩
  · intro h
    obtain ⟨hbytes, hend⟩ := List.append_inj h.2 (length_bytesAt ..)
    exact CString.ofBuffer_eq h.1 hbytes (List.cons.inj hend).1

/-- A terminator in the first place. -/
theorem CString.ofBuffer_empty {size : Nat} {buf : Buffer} (hsize : 0 < size) (h : buf 0 = 0) :
    CString.ofBuffer size buf = some CString.empty := by
  have text : textOf buf size = [] :=
    textOf_eq (k := 0) (Nat.zero_le size) (fun i hi => absurd hi (Nat.not_lt_zero i)) fun _ => h
  unfold CString.ofBuffer
  rw [if_pos (by rw [text]; exact hsize)]
  exact congrArg some (CString.ext text)

end Unics
