import Mathlib.Tactic.ByContra
import Unics.Kern.Vis

/-!
# vis: decoding and room
-/

namespace Unics

/-!
## Writing a string visibly and reading it back

`strunvis` decodes nothing: it copies what it is given. So it gives back the original exactly where
`strvis` had nothing to escape, and `strunvis_strvis_iff` says which strings these are.
-/

/-- A character that `vis` writes as itself: printable, not a backslash, and neither a quote nor a
space where the flags ask for these. -/
def VisPlain (flag : BitVec 32) (c : UInt8) : Prop :=
  flag &&& visAll = 0 ∧ isprint c = true ∧ c ≠ '\\'.toUInt8 ∧
    (c = '"'.toUInt8 → flag &&& visDq = 0) ∧ (c = ' '.toUInt8 → flag &&& visWhite = 0)

/-! ### One character -/

/-- The flag for spaces is one of the flags for white space. -/
theorem sp_of_white {flag : BitVec 32} (h : flag &&& visWhite = 0) : flag &&& visSp = 0 := by
  have part : visSp = visWhite &&& visSp := by decide
  rw [part, ← BitVec.and_assoc, h]
  exact BitVec.zero_and

theorem ne_control {c k : UInt8} (hprint : isprint c = true) (hk : k < 32) : c ≠ k := by
  rintro rfl
  have low : 32 ≤ c := of_decide_eq_true (Bool.and_eq_true_iff.mp hprint).1
  exact absurd hk (UInt8.not_lt.mpr low)

/-- The printable characters that the switch lets through. -/
theorem visSwitch_eq_none_iff {c : UInt8} {flag : BitVec 32} (hprint : isprint c = true) :
    visSwitch c flag = none ↔ c ≠ '\\'.toUInt8 ∧ (c = '"'.toUInt8 → flag &&& visDq = 0) ∧
      (c = ' '.toUInt8 → flag &&& visSp = 0) := by
  have control : ∀ k : UInt8, k < 32 → c ≠ k := fun k hk => ne_control hprint hk
  unfold visSwitch
  rw [if_neg (control _ (by decide)), if_neg (control _ (by decide)),
    if_neg (control _ (by decide)), if_neg (control _ (by decide)),
    if_neg (control _ (by decide)), if_neg (control _ (by decide)),
    if_neg (control _ (by decide))]
  by_cases hspace : c = ' '.toUInt8
  · subst hspace
    have other : ' '.toUInt8 ≠ '\\'.toUInt8 ∧ ' '.toUInt8 ≠ '"'.toUInt8 := by decide
    simp only [if_true, ne_eq, other, not_false_eq_true, false_implies, true_and, true_implies]
    split
    · next hsp => exact iff_of_false (Option.some_ne_none _) hsp
    · next hsp => exact iff_of_true rfl (not_not.mp hsp)
  · by_cases hquote : c = '"'.toUInt8
    · subst hquote
      have other : '"'.toUInt8 ≠ '\\'.toUInt8 := by decide
      simp only [hspace, if_true, if_false, ne_eq, other, not_false_eq_true, false_implies,
        true_and, true_implies, and_true]
      split
      · next hdq => exact iff_of_false (Option.some_ne_none _) hdq
      · next hdq => exact iff_of_true rfl (not_not.mp hdq)
    · simp only [hspace, hquote, if_false, false_implies, and_true]
      split
      · next hslash => exact iff_of_false (Option.some_ne_none _) (not_not.mpr hslash)
      · next hslash => exact iff_of_true rfl hslash

/-- What `vis` writes is the character or starts an escape. -/
theorem vis_self_or_long (c : UInt8) (flag : BitVec 32) :
    vis c flag = [c] ∨ 2 ≤ (vis c flag).length := by
  unfold vis
  split
  · exact .inr (Nat.le_refl 2)
  · split
    · exact .inl rfl
    · split
      · split
        · exact .inr (Nat.le_refl 2)
        · exact .inr (Nat.le_refl 2)
      · exact .inr (by decide : 2 ≤ 4)

theorem vis_eq_self_iff {flag : BitVec 32} (hflag : flag &&& visNoslash = 0) (c : UInt8) :
    vis c flag = [c] ↔ VisPlain flag c := by
  have escaped : ∀ bytes : List UInt8, 2 ≤ bytes.length → bytes ≠ [c] := by
    rintro bytes hlong rfl
    exact absurd hlong (by decide : ¬ 2 ≤ 1)
  unfold vis VisPlain
  rw [if_pos hflag]
  cases hswitch : visSwitch c flag with
  | some letter =>
    refine iff_of_false (escaped _ (Nat.le_refl 2)) ?_
    rintro ⟨-, hprint, hslash, hdq, hsp⟩
    have through := (visSwitch_eq_none_iff hprint).mpr
      ⟨hslash, hdq, fun hc => sp_of_white (hsp hc)⟩
    exact absurd (hswitch.symm.trans through) (Option.some_ne_none letter)
  | none =>
    dsimp only
    split
    · next hplain =>
      obtain ⟨hall, hprint, hwhite⟩ := hplain
      obtain ⟨hslash, hdq, -⟩ := (visSwitch_eq_none_iff hprint).mp hswitch
      refine iff_of_true rfl ⟨hall, hprint, hslash, hdq, fun hc => ?_⟩
      by_contra hne
      exact hwhite ⟨hne, .inl hc⟩
    · next hescape =>
      refine iff_of_false (escaped _ ?_) ?_
      · split
        · split
          · exact Nat.le_refl 2
          · exact Nat.le_refl 2
        · exact (by decide : 2 ≤ 4)
      · rintro ⟨hall, hprint, -, -, hsp⟩
        refine hescape ⟨hall, hprint, ?_⟩
        rintro ⟨hwhite, hc⟩
        -- a printable character is neither a tab nor a newline
        have space := hc.resolve_right (not_or.mpr
          ⟨ne_control hprint (by decide), ne_control hprint (by decide)⟩)
        exact hwhite (hsp space)

/-! ### Strings -/

/-- Writing every element as one or more, never as one other, gives the list back only where every
element is written as itself. -/
theorem flatMap_eq_self_iff {α : Type} {f : α → List α} (hf : ∀ a, f a = [a] ∨ 2 ≤ (f a).length)
    (l : List α) : l.flatMap f = l ↔ ∀ a ∈ l, f a = [a] := by
  have longer : ∀ l : List α, l.length ≤ (l.flatMap f).length := by
    intro l
    induction l with
    | nil => exact Nat.le_refl 0
    | cons a l ih =>
      rw [List.flatMap_cons, List.length_append, List.length_cons]
      have one : 1 ≤ (f a).length := by
        rcases hf a with h | h
        · rw [h]
          exact Nat.le_refl 1
        · exact Nat.le_of_succ_le h
      omega
  induction l with
  | nil => exact iff_of_true rfl fun a h => absurd h List.not_mem_nil
  | cons a l ih =>
    rw [List.flatMap_cons, List.forall_mem_cons]
    constructor
    · intro h
      have short : f a = [a] := by
        refine (hf a).resolve_right fun hlong => ?_
        have length := congrArg List.length h
        have rest := longer l
        rw [List.length_append, List.length_cons] at length
        omega
      rw [short] at h
      exact ⟨short, ih.mp (List.cons_inj_right a |>.mp h)⟩
    · intro h
      rw [h.1, ih.mpr h.2]
      rfl

theorem strunvis_eq (s : CString) : strunvis s = s := CString.ext (List.map_id' s.bytes)

/-- Without `VIS_NOSLASH`: `strunvis` returns what `strvis` has written, and that is the original
exactly where every character of it is plain. -/
theorem strunvis_strvis_iff (s : CString) (flag : BitVec 32) (hflag : flag &&& visNoslash = 0) :
    strunvis (strvis s flag) = strvis s flag ∧
      (strunvis (strvis s flag) = s ↔ ∀ c ∈ s.bytes, VisPlain flag c) := by
  refine ⟨strunvis_eq _, ?_⟩
  rw [strunvis_eq, CString.ext_iff]
  refine (flatMap_eq_self_iff (fun c => vis_self_or_long c flag) s.bytes).trans ?_
  exact forall₂_congr fun c _ => vis_eq_self_iff hflag c

/-- A quotation mark that `VIS_DQ` escapes, a backslash and a byte above 126. -/
theorem strunvis_strvis_iff_quoted :
    strunvis (strvis ⟨[97, 34, 92, 200], by decide⟩ visDq) =
        strvis ⟨[97, 34, 92, 200], by decide⟩ visDq ∧
      (strunvis (strvis ⟨[97, 34, 92, 200], by decide⟩ visDq) = ⟨[97, 34, 92, 200], by decide⟩ ↔
        ∀ c ∈ ([97, 34, 92, 200] : List UInt8), VisPlain visDq c) :=
  strunvis_strvis_iff ⟨[97, 34, 92, 200], by decide⟩ visDq (by decide)

/-- A newline comes back as a backslash and a letter. -/
theorem strunvis_strvis_newline : strunvis (strvis (.char 10) 0) ≠ .char 10 := by
  decide

/-!
## The room that visible strings take

A character takes one byte, two or four (`visCost`). `stravis` makes room for four of each, as long
as an `int` holds that many; the variants with a length count characters and not bytes, and store a
terminator besides.
-/

section VisBuffers

/-- The bytes that a character takes: one if it stands for itself, two with a letter behind the
backslash, four with digits. -/
def visCost (flag : BitVec 32) (c : UInt8) : ℕ :=
  match if flag &&& visNoslash = 0 then visSwitch c flag else none with
  | some _ => 2
  | none =>
    if flag &&& visAll = 0 ∧ isprint c = true ∧
        ¬ (flag &&& visWhite ≠ 0 ∧ (c = ' '.toUInt8 ∨ c = '\t'.toUInt8 ∨ c = '\n'.toUInt8)) then 1
    else if flag &&& visCstyle ≠ 0 ∧ (c < 0x20 ∨ c = 0x7f) then 2
    else 4

/-- The bytes that a string takes, without the terminator. -/
def visRoom (flag : BitVec 32) (src : List UInt8) : ℕ := (src.map (visCost flag)).sum

section Room

variable (flag : BitVec 32)

theorem length_vis (c : UInt8) : (vis c flag).length = visCost flag c := by
  unfold vis visCost
  cases if flag &&& visNoslash = 0 then visSwitch c flag else none with
  | some letter => rfl
  | none =>
    dsimp only
    split
    · rfl
    · split
      · split
        · rfl
        · rfl
      · rfl

theorem visCost_range (c : UInt8) : 1 ≤ visCost flag c ∧ visCost flag c ≤ 4 := by
  unfold visCost
  split
  · decide
  · split
    · decide
    · split
      · decide
      · decide

theorem visRoom_cons (c : UInt8) (src : List UInt8) :
    visRoom flag (c :: src) = visCost flag c + visRoom flag src := List.sum_cons

theorem visRoom_range (src : List UInt8) :
    src.length ≤ visRoom flag src ∧ visRoom flag src ≤ 4 * src.length := by
  induction src with
  | nil => exact ⟨Nat.le_refl 0, Nat.le_refl 0⟩
  | cons c src ih =>
    have cost := visCost_range flag c
    rw [visRoom_cons, List.length_cons]
    omega

/-- `strvis` stores what its characters take and a terminator. -/
theorem length_strvisStores (src : CString) :
    (strvisStores src flag).length = visRoom flag src.bytes + 1 := by
  have flat : ((strvis src flag).bytes).length = visRoom flag src.bytes := by
    show (src.bytes.flatMap fun c => vis c flag).length = _
    rw [List.length_flatMap]
    exact congrArg List.sum (List.map_congr_left fun c _ => length_vis flag c)
  rw [strvisStores, List.length_append, flat]
  rfl

theorem length_strnvisLoop (n : ℕ) (src : List UInt8) :
    (strnvisLoop flag n src).length = visRoom flag (src.take n) := by
  induction n generalizing src with
  | zero => rfl
  | succ n ih =>
    cases src with
    | nil => rfl
    | cons c src =>
      rw [strnvisLoop, List.length_append, ih, length_vis, List.take_succ_cons, visRoom_cons]

theorem length_strnvis (src : CString) (n : SizeT) :
    (strnvis src n flag).length = visRoom flag (src.bytes.take n.toNat) + 1 := by
  rw [strnvis, List.length_append, length_strnvisLoop]
  rfl

end Room

theorem strnunvisLoop_eq (n : ℕ) (src : List UInt8) : strnunvisLoop n src = src.take n := by
  induction n generalizing src with
  | zero => rfl
  | succ n ih =>
    cases src with
    | nil => rfl
    | cons c src => rw [strnunvisLoop, ih, List.take_succ_cons]

/-! ### What fits -/

theorem stravisMaxlen_toNat (src : CString) :
    (stravisMaxlen src).toNat = 4 * (src.strlen % 2 ^ 30) + 1 := by
  have one : (1 : BitVec 32).toNat = 1 := rfl
  have four : (4 : BitVec 32).toNat = 4 := rfl
  rw [stravisMaxlen, BitVec.toNat_add, BitVec.toNat_mul, BitVec.toNat_ofNat, one, four]
  omega

variable (src : CString) (flag : BitVec 32) (n : SizeT)

/-- Four bytes for each character are enough, if there are as many. -/
theorem strvis_fits_iff :
    (strvisStores src flag).length ≤ (stravisMaxlen src).toNat ↔
      src.strlen < 2 ^ 30 ∨ visRoom flag src.bytes ≤ 4 * (src.strlen % 2 ^ 30) := by
  have range := visRoom_range flag src.bytes
  have length : src.strlen = src.bytes.length := rfl
  rw [length_strvisStores, stravisMaxlen_toNat]
  omega

/-- The length that `strnvis` is given bounds the characters it reads. -/
theorem strnvis_fits_iff :
    (strnvis src n flag).length ≤ n.toNat ↔ visRoom flag src.bytes < n.toNat := by
  rw [length_strnvis]
  rcases Nat.lt_or_ge n.toNat src.bytes.length with short | whole
  · have taken := (visRoom_range flag (src.bytes.take n.toNat)).1
    have all := (visRoom_range flag src.bytes).1
    rw [List.length_take] at taken
    omega
  · rw [List.take_of_length_le whole]
    omega

theorem strnunvis_fits_iff : (strnunvis src n).length ≤ n.toNat ↔ src.strlen < n.toNat := by
  have length : src.strlen = src.bytes.length := rfl
  rw [strnunvis, strnunvisLoop_eq, List.length_append, List.length_take, length]
  show min n.toNat src.bytes.length + 1 ≤ n.toNat ↔ _
  omega

/-- Each of the three functions stays within its buffer exactly under a condition of its own. -/
theorem vis_buffers_iff :
    ((strvisStores src flag).length ≤ (stravisMaxlen src).toNat ↔
        src.strlen < 2 ^ 30 ∨ visRoom flag src.bytes ≤ 4 * (src.strlen % 2 ^ 30)) ∧
      ((strnvis src n flag).length ≤ n.toNat ↔ visRoom flag src.bytes < n.toNat) ∧
        ((strnunvis src n).length ≤ n.toNat ↔ src.strlen < n.toNat) :=
  ⟨strvis_fits_iff src flag, strnvis_fits_iff src flag n, strnunvis_fits_iff src n⟩

/-- One byte of room for one character. -/
theorem strnvis_overruns :
    ¬ (strnvis (.char 97) 1 0).length ≤ (1 : SizeT).toNat ∧
      ¬ (strnunvis (.char 97) 1).length ≤ (1 : SizeT).toNat := by
  decide

end VisBuffers

end Unics
