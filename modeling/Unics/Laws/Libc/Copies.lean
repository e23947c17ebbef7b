import Unics.Laws.Libc.Strings
import Unics.Libc.Strings

/-!
# What copies leave

Every copy here comes to bytes of one array that stand in another one from some place on (`paste`).
`memmove` goes in the direction in which it reads no byte that it has written. `strncpy` and
`strncat` store one zero more than they should where the source ends before the count does.
-/

namespace Unics

open Unics.Lib

/-! ## Bytes of another array -/

/-- `n` bytes of `src` from `s` on, stored into `dest` from `d` on. -/
def paste (dest : Buffer) (d : Nat) (src : Buffer) (s n : Nat) : Buffer := fun i =>
  if d ≤ i ∧ i < d + n then src (s + (i - d)) else dest i

/-- A block of zeros. -/
def zeros : Buffer := fun _ => 0

section Paste

variable {dest src : Buffer} {d s n i : Nat}

theorem paste_inside (hd : d ≤ i) (hn : i < d + n) :
    paste dest d src s n i = src (s + (i - d)) :=
  if_pos ⟨hd, hn⟩

theorem paste_outside (h : i < d ∨ d + n ≤ i) : paste dest d src s n i = dest i :=
  if_neg (by omega)

theorem paste_zero (dest : Buffer) (d : Nat) (src : Buffer) (s : Nat) :
    paste dest d src s 0 = dest :=
  funext fun _ => paste_outside (by omega)

/-- A byte more behind the others. -/
theorem paste_push (dest : Buffer) (d : Nat) (src : Buffer) (s n : Nat) :
    Function.update (paste dest d src s n) (d + n) (src (s + n)) = paste dest d src s (n + 1) := by
  funext i
  by_cases hlast : i = d + n
  · rw [hlast, Function.update_self, paste_inside (by omega) (by omega), Nat.add_sub_cancel_left]
  · rw [Function.update_of_ne hlast]
    by_cases hin : d ≤ i ∧ i < d + n
    · rw [paste_inside hin.1 hin.2, paste_inside hin.1 (by omega)]
    · rw [paste_outside (by omega), paste_outside (by omega)]

/-- A byte more before the others, stored after them. -/
theorem update_paste (dest : Buffer) (d : Nat) (src : Buffer) (s n : Nat) :
    Function.update (paste dest (d + 1) src (s + 1) n) d (src s) =
      paste dest d src s (n + 1) := by
  funext i
  by_cases hfirst : i = d
  · rw [hfirst, Function.update_self, paste_inside (Nat.le_refl d) (by omega), Nat.sub_self]
    rfl
  · rw [Function.update_of_ne hfirst]
    by_cases hin : d ≤ i ∧ i < d + (n + 1)
    · rw [paste_inside (by omega) (by omega), paste_inside hin.1 hin.2]
      congr 1
      omega
    · rw [paste_outside (by omega), paste_outside (by omega)]

/-- A byte more before the others, stored before them. -/
theorem paste_update (dest : Buffer) (d : Nat) (src : Buffer) (s n : Nat) :
    paste (Function.update dest d (src s)) (d + 1) src (s + 1) n = paste dest d src s (n + 1) := by
  rw [← update_paste]
  funext i
  by_cases hin : d + 1 ≤ i ∧ i < d + 1 + n
  · rw [Function.update_of_ne (by omega), paste_inside hin.1 hin.2, paste_inside hin.1 hin.2]
  · rw [paste_outside (by omega)]
    by_cases hfirst : i = d
    · rw [hfirst, Function.update_self, Function.update_self]
    · rw [Function.update_of_ne hfirst, Function.update_of_ne hfirst, paste_outside (by omega)]

theorem bytesAt_paste (dest : Buffer) (d : Nat) (src : Buffer) (s n : Nat) :
    bytesAt (paste dest d src s n) d n = bytesAt src s n := by
  refine bytesAt_congr fun i hi => ?_
  rw [paste_inside (Nat.le_add_right d i) (by omega), Nat.add_sub_cancel_left]

end Paste

/-! ## `memmove` -/

section Memmove

variable {size : Nat} (buf : Buffer)

/-- Upwards, to a lower place: what is read next has not been written. -/
theorem copyUp_eq {d s n i : Nat} (hds : d ≤ s) (hs : s + i + n ≤ size) :
    copyUp size n (d + i) (s + i) (paste buf d buf s i) = some (paste buf d buf s (i + n)) := by
  induction n generalizing i with
  | zero => rfl
  | succ n ih =>
    rw [copyUp, loadChar_of_lt _ (by omega), paste_outside (by omega)]
    simp only [Option.bind_eq_bind, Option.bind_some]
    rw [storeChar_of_lt _ _ (by omega), paste_push, Option.bind_some]
    have next := ih (i := i + 1) (by omega)
    rw [Nat.add_assoc i 1 n, Nat.add_comm 1 n] at next
    exact next

/-- Downwards, to a place that is not lower. -/
theorem copyDown_eq {d s n k : Nat} (hds : s ≤ d) (hd : d + n ≤ size) :
    copyDown size n (d + n) (s + n) (paste buf (d + n) buf (s + n) k) =
      some (paste buf d buf s (n + k)) := by
  induction n generalizing k with
  | zero =>
    rw [Nat.zero_add]
    rfl
  | succ n ih =>
    have inside : s + (n + 1) - 1 < size := by omega
    rw [copyDown, loadChar_of_lt _ inside, paste_outside (by omega)]
    simp only [Option.bind_eq_bind, Option.bind_some]
    rw [storeChar_of_lt _ _ (by omega), Option.bind_some]
    have byte := update_paste buf (d + n) buf (s + n) k
    have next := ih (k := k + 1) (by omega)
    rw [← byte, Nat.add_comm k 1, ← Nat.add_assoc] at next
    exact next

theorem memmove_eq {dest src n : Nat} (hsrc : src + n ≤ size) (hdest : dest + n ≤ size) :
    memmove size buf dest src n = some (paste buf dest buf src n) := by
  rw [memmove]
  split
  · next hlt =>
    have up := copyUp_eq buf (n := n) (i := 0) (Nat.le_of_lt hlt) (by omega : src + 0 + n ≤ size)
    rw [paste_zero, Nat.zero_add] at up
    exact up
  · next hge =>
    have down := copyDown_eq buf (k := 0) (Nat.not_lt.mp hge) hdest
    rw [paste_zero] at down
    exact down

end Memmove

/-- Within its array, `memmove` leaves the source bytes as they were before the call at the
destination, and every other byte as it was. -/
theorem memmove_spec (size : Nat) (buf : Buffer) (dest src n : Nat) (hsrc : src + n ≤ size)
    (hdest : dest + n ≤ size) :
    Ends (memmove size buf dest src n) fun buf' =>
      (∀ i < n, buf' (dest + i) = buf (src + i)) ∧
        ∀ i, i < dest ∨ dest + n ≤ i → buf' i = buf i := by
  refine ⟨_, memmove_eq buf hsrc hdest, fun i hi => ?_, fun i hi => paste_outside hi⟩
  rw [paste_inside (Nat.le_add_right dest i) (by omega), Nat.add_sub_cancel_left]

/-- Two bytes, one place up. -/
theorem memmove_spec_two :
    Ends (memmove 3 (fun i => i.toUInt8) 1 0 2) fun buf' =>
      (∀ i < 2, buf' (1 + i) = (0 + i).toUInt8) ∧
        ∀ i, i < 1 ∨ 1 + 2 ≤ i → buf' i = i.toUInt8 :=
  memmove_spec 3 (fun i => i.toUInt8) 1 0 2 (by decide) (by decide)

/-! ## `strncpy` -/

section Strncpy

variable {size : Nat} {src : Buffer}

/-- As many characters as come before the terminator, and as the count allows. -/
theorem strncpyLoop_paste {n i k : Nat} (dest : Buffer) (hk : k ≤ n) (hsize : i + k ≤ size)
    (hne : ∀ l < k, src (i + l) ≠ 0) :
    strncpyLoop size src n i dest =
      strncpyLoop size src (n - k) (i + k) (paste dest i src i k) := by
  induction k generalizing n i dest with
  | zero => rw [paste_zero, Nat.sub_zero, Nat.add_zero]
  | succ k ih =>
    obtain ⟨m, rfl⟩ := Nat.exists_eq_add_of_le' (Nat.lt_of_lt_of_le k.succ_pos hk)
    have here : src i ≠ 0 := hne 0 k.succ_pos
    have rest := ih (n := m) (i := i + 1) (Function.update dest i (src i)) (by omega) (by omega)
      fun l hl => by
        have behind := hne (l + 1) (by omega)
        rwa [Nat.add_comm l 1, ← Nat.add_assoc] at behind
    rw [strncpyLoop, loadChar_of_lt src (by omega)]
    simp only [Option.bind_eq_bind, Option.bind_some]
    rw [storeChar_of_lt dest _ (by omega), Option.bind_some, if_pos here, rest, paste_update,
      Nat.add_sub_add_right, Nat.add_assoc, Nat.add_comm 1 k]

theorem storeZeros_eq {i n : Nat} (dest : Buffer) (h : i + n ≤ size) :
    (List.range' i n).foldlM (fun dest i => storeChar size dest i 0) dest =
      some (paste dest i zeros 0 n) := by
  induction n with
  | zero => exact congrArg some (paste_zero dest i zeros 0).symm
  | succ n ih =>
    rw [foldlM_range'_succ, ih (by omega), Option.bind_some, storeChar_of_lt _ _ (by omega)]
    exact congrArg some (paste_push dest i zeros 0 n)

/-- A source that is long enough is copied and not padded. -/
theorem strncpy_long {n : Nat} (dest : Buffer) (hn : n ≤ size) (hne : ∀ l < n, src l ≠ 0) :
    strncpy size dest src n = some (paste dest 0 src 0 n) := by
  have copied := strncpyLoop_paste (n := n) (i := 0) dest (Nat.le_refl n) (by omega : 0 + n ≤ size)
    fun l hl => (Nat.zero_add l).symm ▸ hne l hl
  rw [Nat.sub_self] at copied
  rw [strncpy, copied]
  rfl

/-- A source that ends before the count does is padded with one zero too many. -/
theorem strncpy_short {n k : Nat} (dest : Buffer) (hk : k < n) (hn : n ≤ size)
    (hne : ∀ l < k, src l ≠ 0) (hend : src k = 0) :
    strncpy size dest src n =
      if n < size then some (paste (paste dest 0 src 0 k) k zeros 0 (n - k + 1)) else none := by
  have copied := strncpyLoop_paste (n := n) (i := 0) dest (Nat.le_of_lt hk)
    (by omega : 0 + k ≤ size) fun l hl => (Nat.zero_add l).symm ▸ hne l hl
  rw [Nat.zero_add] at copied
  obtain ⟨m, hm⟩ := Nat.exists_eq_add_of_le' (Nat.sub_pos_of_lt hk)
  have stop : strncpyLoop size src (n - k) k (paste dest 0 src 0 k) =
      some (Function.update (paste dest 0 src 0 k) k 0, k + 1, n - k) := by
    rw [hm, strncpyLoop, loadChar_of_lt src (by omega), hend]
    simp only [Option.bind_eq_bind, Option.bind_some]
    rw [storeChar_of_lt _ _ (by omega), Option.bind_some, if_neg (not_not.mpr rfl)]
  rw [strncpy, copied, stop]
  simp only [Option.bind_eq_bind, Option.bind_some]
  split
  · rw [storeZeros_eq _ (by omega)]
    exact congrArg some (paste_update (paste dest 0 src 0 k) k zeros 0 (n - k))
  · exact storeZeros_none _ (by omega) (by omega)

end Strncpy

theorem bytesAt_zeros (i n : Nat) : bytesAt zeros i n = List.replicate n 0 := by
  show (List.range' i n).map (fun _ => 0) = _
  rw [List.map_const', List.length_range']

/-- What `strncpy` should leave: the source's characters, zeros up to the count, and every byte
behind them as it was. -/
structure Strncpied (s : CString) (n : Nat) (dest dest' : Buffer) : Prop where
  bytes : bytesAt dest' 0 n = s.bytes.take n ++ List.replicate (n - s.strlen) 0
  same : ∀ i, n ≤ i → dest' i = dest i

/-- `strncpy` leaves what it should exactly where the source is at least as long as the count, or
the byte behind the destination is there and is zero already. -/
theorem strncpy_exact_iff {size n : Nat} {src : Buffer} {s : CString} (dest : Buffer)
    (hsrc : CString.ofBuffer size src = some s) (hn : n ≤ size) :
    Ends (strncpy size dest src n) (Strncpied s n dest) ↔
      n ≤ s.strlen ∨ n < size ∧ dest n = 0 := by
  have line := lineAt_start hsrc
  have inside := line.inside
  have char : ∀ l < s.strlen, src l ≠ 0 := fun l hl => by
    have hne := line.ne_zero_of_lt hl
    rwa [Nat.zero_add] at hne
  rw [Nat.zero_add] at inside
  by_cases hlong : n ≤ s.strlen
  · rw [strncpy_long dest hn fun l hl => char l (by omega), ends_some]
    refine iff_of_true ⟨?_, fun i hi => paste_outside (by omega)⟩ (.inl hlong)
    rw [bytesAt_paste, line.take hlong, Nat.sub_eq_zero_of_le hlong]
    exact (List.append_nil _).symm
  · have hend : src s.strlen = 0 := by
      have stop := line.stop
      rwa [Nat.zero_add] at stop
    rw [strncpy_short dest (Nat.not_le.mp hlong) hn char hend, or_iff_right hlong]
    split
    · next hroom =>
      rw [ends_some, and_iff_right hroom]
      have last : paste (paste dest 0 src 0 s.strlen) s.strlen zeros 0 (n - s.strlen + 1) n = 0 :=
        paste_inside (by omega) (by omega)
      constructor
      · intro h
        exact (h.same n (Nat.le_refl n)).symm.trans last
      · intro hzero
        refine ⟨?_, fun i hi => ?_⟩
        · have total : n = s.strlen + (n - s.strlen) := by omega
          have chars : bytesAt (paste (paste dest 0 src 0 s.strlen) s.strlen zeros 0
              (n - s.strlen + 1)) 0 s.strlen = s.bytes := by
            rw [← line.bytes, ← bytesAt_paste dest 0 src 0]
            exact bytesAt_congr fun i hi => paste_outside (by omega)
          have padding : bytesAt (paste (paste dest 0 src 0 s.strlen) s.strlen zeros 0
              (n - s.strlen + 1)) s.strlen (n - s.strlen) = List.replicate (n - s.strlen) 0 := by
            rw [← bytesAt_zeros 0]
            exact bytesAt_congr fun i hi => paste_inside (by omega) (by omega)
          have split := bytesAt_add (paste (paste dest 0 src 0 s.strlen) s.strlen zeros 0
            (n - s.strlen + 1)) 0 s.strlen (n - s.strlen)
          rw [← total, chars, Nat.zero_add, padding] at split
          rw [split, List.take_of_length_le (by exact Nat.le_of_not_le hlong)]
        · rcases Nat.eq_or_lt_of_le hi with rfl | hbehind
          · exact last.trans hzero.symm
          · rw [paste_outside (by omega), paste_outside (by omega)]
    · next hfull =>
      exact iff_of_false (fun ⟨_, heq, _⟩ => Option.some_ne_none _ heq.symm) fun h => hfull h.1

/-- Two characters of "ab" into an array of two bytes. -/
theorem strncpy_exact_iff_ab :
    Ends (strncpy 3 (fun _ => 7) (fun i => [97, 98, 0].getD i 0) 2)
        (Strncpied ⟨[97, 98], by decide⟩ 2 fun _ => 7) ↔
      2 ≤ CString.strlen ⟨[97, 98], by decide⟩ ∨ 2 < 3 ∧ (7 : UInt8) = 0 :=
  strncpy_exact_iff (fun _ => 7) (by decide) (by decide)

/-- Two characters of "a" into an array of three bytes: the third one is overwritten. -/
theorem strncpy_exact_fails :
    ¬ Ends (strncpy 3 (fun _ => 7) (fun i => [97, 0, 0].getD i 0) 2)
      (Strncpied (.char 97 CString.a_ne_zero) 2 fun _ => 7) := by
  rintro ⟨dest', hcopy, h⟩
  have changed : (strncpy 3 (fun _ => 7) (fun i => [97, 0, 0].getD i 0) 2).map (· 2) = some 0 := by
    decide
  rw [hcopy, Option.map_some, h.same 2 (Nat.le_refl 2)] at changed
  exact absurd changed (by decide)

/-! ## `strncat` -/

section Strncat

variable {dsize ssize : Nat} {src : Buffer}

theorem strncatLoop_paste {n d s k : Nat} (dest : Buffer) (hk : k ≤ n) (hd : d + k ≤ dsize)
    (hs : s + k ≤ ssize) (hne : ∀ l < k, src (s + l) ≠ 0) :
    strncatLoop dsize ssize src n d s dest =
      strncatLoop dsize ssize src (n - k) (d + k) (s + k) (paste dest d src s k) := by
  induction k generalizing n d s dest with
  | zero => rw [paste_zero, Nat.sub_zero, Nat.add_zero, Nat.add_zero]
  | succ k ih =>
    obtain ⟨m, rfl⟩ := Nat.exists_eq_add_of_le' (Nat.lt_of_lt_of_le k.succ_pos hk)
    have here : src s ≠ 0 := hne 0 k.succ_pos
    have rest := ih (n := m) (d := d + 1) (s := s + 1) (Function.update dest d (src s)) (by omega)
      (by omega) (by omega) fun l hl => by
        have behind := hne (l + 1) (by omega)
        rwa [Nat.add_comm l 1, ← Nat.add_assoc] at behind
    rw [strncatLoop, loadChar_of_lt src (by omega)]
    simp only [Option.bind_eq_bind, Option.bind_some]
    rw [storeChar_of_lt dest _ (by omega), Option.bind_some, if_pos here, rest, paste_update,
      Nat.add_sub_add_right, Nat.add_assoc, Nat.add_assoc, Nat.add_comm 1 k]

/-- The loop of `strncat` and the store behind it, from the terminator of `dest` on. -/
theorem strncat_eq {dest : Buffer} {d : CString} (hdest : CString.ofBuffer dsize dest = some d)
    (n : Nat) :
    strncat dsize ssize dest src n =
      (strncatLoop dsize ssize src n d.strlen 0 dest).bind fun r => storeChar dsize r.1 r.2 0 := by
  have line := lineAt_start hdest
  have skipped : skipWhile dsize dest (· ≠ 0) 0 = some (0 + d.strlen) := by
    refine line.skip_all (fun c hc => decide_eq_true ?_) rfl
    rintro rfl
    exact d.noNul hc
  rw [strncat, skipped, Nat.zero_add]
  rfl

/-- A source that is long enough: the terminator is stored behind what was copied. -/
theorem strncat_long {n : Nat} {dest : Buffer} {d : CString}
    (hdest : CString.ofBuffer dsize dest = some d) (hd : d.strlen + n < dsize) (hs : n ≤ ssize)
    (hne : ∀ l < n, src l ≠ 0) :
    strncat dsize ssize dest src n =
      some (Function.update (paste dest d.strlen src 0 n) (d.strlen + n) 0) := by
  have copied := strncatLoop_paste (n := n) (s := 0) dest (Nat.le_refl n) (Nat.le_of_lt hd)
    (by omega : 0 + n ≤ ssize) fun l hl => (Nat.zero_add l).symm ▸ hne l hl
  rw [Nat.sub_self] at copied
  rw [strncat_eq hdest, copied]
  exact storeChar_of_lt _ 0 hd

/-- A source that ends before the count does: its terminator is copied, and another one is stored
behind. -/
theorem strncat_short {n k : Nat} {dest : Buffer} {d : CString}
    (hdest : CString.ofBuffer dsize dest = some d) (hd : d.strlen + k < dsize) (hk : k < n)
    (hs : k < ssize) (hne : ∀ l < k, src l ≠ 0) (hend : src k = 0) :
    strncat dsize ssize dest src n =
      storeChar dsize (Function.update (paste dest d.strlen src 0 k) (d.strlen + k) 0)
        (d.strlen + k + 1) 0 := by
  have copied := strncatLoop_paste (n := n) (s := 0) dest (Nat.le_of_lt hk) (Nat.le_of_lt hd)
    (by omega : 0 + k ≤ ssize) fun l hl => (Nat.zero_add l).symm ▸ hne l hl
  obtain ⟨m, hm⟩ := Nat.exists_eq_add_of_le' (Nat.sub_pos_of_lt hk)
  have stop : strncatLoop dsize ssize src (n - k) (d.strlen + k) k
      (paste dest d.strlen src 0 k) =
        some (Function.update (paste dest d.strlen src 0 k) (d.strlen + k) 0,
          d.strlen + k + 1) := by
    rw [hm, strncatLoop, loadChar_of_lt src hs, hend]
    simp only [Option.bind_eq_bind, Option.bind_some]
    rw [storeChar_of_lt _ _ hd, Option.bind_some, if_neg (not_not.mpr rfl)]
  rw [Nat.zero_add] at copied
  rw [strncat_eq hdest, copied, stop]
  rfl

end Strncat

/-- What `strncat` should leave: the old string, the source's characters and a terminator, and every
byte behind it as it was. -/
structure Strncatted (d s : CString) (n : Nat) (dest dest' : Buffer) : Prop where
  bytes : bytesAt dest' 0 (d.strlen + min n s.strlen) = d.bytes ++ s.bytes.take n
  stop : dest' (d.strlen + min n s.strlen) = 0
  same : ∀ i, d.strlen + min n s.strlen < i → dest' i = dest i

section Strncatted

variable {dsize ssize n k : Nat} {dest src : Buffer} {d s : CString}

/-- The copied characters with their terminator, whatever else is stored behind it. -/
theorem Strncatted.of_paste (hdest : CString.ofBuffer dsize dest = some d)
    (hsrc : CString.ofBuffer ssize src = some s) (hk : k = min n s.strlen) {dest' : Buffer}
    (hbefore : ∀ i < d.strlen + k, dest' i = paste dest d.strlen src 0 k i)
    (hstop : dest' (d.strlen + k) = 0) (hsame : ∀ i, d.strlen + k < i → dest' i = dest i) :
    Strncatted d s n dest dest' := by
  subst hk
  have old : bytesAt dest' 0 d.strlen = d.bytes := by
    refine Eq.trans (bytesAt_congr fun i hi => ?_) (lineAt_start hdest).bytes
    rw [hbefore _ (by omega)]
    exact paste_outside (by omega)
  have new : bytesAt dest' d.strlen (min n s.strlen) = s.bytes.take n := by
    have taken := (lineAt_start hsrc).take (Nat.min_le_right n s.strlen)
    rw [List.take_eq_take_min]
    refine Eq.trans ?_ taken
    rw [← bytesAt_paste dest d.strlen src]
    exact bytesAt_congr fun i hi => hbefore _ (by omega)
  refine ⟨?_, hstop, hsame⟩
  rw [bytesAt_add, old, Nat.zero_add, new]

end Strncatted

/-- For two strings with room for the result, `strncat` leaves what it should exactly where the
source is at least as long as the count, or the byte behind the new terminator is there and is zero
already. -/
theorem strncat_exact_iff {dsize ssize n : Nat} {dest src : Buffer} {d s : CString}
    (hdest : CString.ofBuffer dsize dest = some d) (hsrc : CString.ofBuffer ssize src = some s)
    (hroom : d.strlen + min n s.strlen < dsize) :
    Ends (strncat dsize ssize dest src n) (Strncatted d s n dest) ↔
      n ≤ s.strlen ∨ d.strlen + s.strlen + 1 < dsize ∧ dest (d.strlen + s.strlen + 1) = 0 := by
  have line := lineAt_start hsrc
  have inside : s.strlen < ssize := by
    have h := line.inside
    rwa [Nat.zero_add] at h
  have char : ∀ l < s.strlen, src l ≠ 0 := fun l hl => by
    have hne := line.ne_zero_of_lt hl
    rwa [Nat.zero_add] at hne
  by_cases hlong : n ≤ s.strlen
  · rw [Nat.min_eq_left hlong] at hroom
    rw [strncat_long hdest hroom (by omega) fun l hl => char l (by omega), ends_some]
    refine iff_of_true (.of_paste hdest hsrc (Nat.min_eq_left hlong).symm ?_ ?_ ?_) (.inl hlong)
    · exact fun i hi => Function.update_of_ne (by omega) ..
    · exact Function.update_self ..
    · intro i hi
      rw [Function.update_of_ne (by omega)]
      exact paste_outside (by omega)
  · have hend : src s.strlen = 0 := by
      have stop := line.stop
      rwa [Nat.zero_add] at stop
    have count : s.strlen = min n s.strlen := (Nat.min_eq_right (Nat.le_of_not_le hlong)).symm
    rw [← count] at hroom
    rw [strncat_short hdest hroom (Nat.not_le.mp hlong) inside char hend, or_iff_right hlong]
    rcases Nat.lt_or_ge (d.strlen + s.strlen + 1) dsize with hmore | hfull
    · rw [storeChar_of_lt _ _ hmore, ends_some, and_iff_right hmore]
      constructor
      · intro h
        have same := h.same (d.strlen + s.strlen + 1) (by omega)
        rw [Function.update_self] at same
        exact same.symm
      · intro hzero
        refine .of_paste hdest hsrc count ?_ ?_ ?_
        · intro i hi
          rw [Function.update_of_ne (by omega), Function.update_of_ne (by omega)]
        · rw [Function.update_of_ne (by omega), Function.update_self]
        · intro i hi
          rcases Nat.eq_or_lt_of_le (Nat.succ_le_of_lt hi) with rfl | hbehind
          · rw [Function.update_self]
            exact hzero.symm
          · rw [Function.update_of_ne (by omega), Function.update_of_ne (by omega)]
            exact paste_outside (by omega)
    · rw [storeChar_of_le _ _ hfull]
      exact iff_of_false (fun ⟨_, heq, _⟩ => Option.some_ne_none _ heq.symm) fun h => by omega

/-- "a" and up to three characters of "a/", in an array of six bytes: the last one is a terminator
already. -/
theorem strncat_exact_iff_slash :
    Ends (strncat 6 3 (fun i => [97, 0, 7, 7, 0, 7].getD i 0) (fun i => [97, 47, 0].getD i 0) 3)
        (Strncatted (.char 97 CString.a_ne_zero) ⟨[97, 47], by decide⟩ 3
          fun i => [97, 0, 7, 7, 0, 7].getD i 0) ↔
      3 ≤ CString.strlen ⟨[97, 47], by decide⟩ ∨
        1 + 2 + 1 < 6 ∧ [97, 0, 7, 7, 0, 7].getD (1 + 2 + 1) (0 : UInt8) = 0 :=
  strncat_exact_iff (by decide) (by decide) (by decide)

/-- "" and up to two characters of "a", in an array of three bytes: the one behind the terminator is
overwritten. -/
theorem strncat_exact_fails :
    ¬ Ends (strncat 3 2 (fun i => [0, 7, 7].getD i 0) (fun i => [97, 0].getD i 0) 2)
      (Strncatted .empty (.char 97 CString.a_ne_zero) 2 fun i => [0, 7, 7].getD i 0) := by
  rintro ⟨dest', hcopy, h⟩
  rw [strncat_short (d := .empty) (k := 1) (by decide) (by decide) (by decide) (by decide)
    (by decide) (by decide)] at hcopy
  have changed := congrArg (Option.map (· 2)) hcopy
  rw [Option.map_some, h.same 2 (by decide)] at changed
  exact absurd changed (by decide)

end Unics
