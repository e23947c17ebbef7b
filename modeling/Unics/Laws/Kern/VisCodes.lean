import Unics.Lib.Numerals
import Unics.Lib.PrefixCode
import Unics.Kern.Vis

/-!
# What can be told from a visible string

A character is written as itself, as a backslash and a character that is no octal digit, or as a
backslash and three octal digits. None of these begins another, so that a visible string can be told
apart into its characters' code words. The letters for control characters under `VIS_CSTYLE` are
those that `ctl` has, where the first and the last but one are the same.
-/

namespace Unics

open Unics.Lib

def isOctal (c : UInt8) : Bool := 48 ≤ c && c ≤ 55

/-! ## Code words -/

/-- The letters of the switch. -/
def visLetters : List (UInt8 × UInt8) :=
  [('\n'.toUInt8, 'n'.toUInt8), ('\r'.toUInt8, 'r'.toUInt8), ('\x08'.toUInt8, 'b'.toUInt8),
    ('\x07'.toUInt8, 'a'.toUInt8), ('\x0b'.toUInt8, 'v'.toUInt8), ('\t'.toUInt8, 't'.toUInt8),
    ('\x0c'.toUInt8, 'f'.toUInt8), (' '.toUInt8, 's'.toUInt8), ('"'.toUInt8, '"'.toUInt8),
    ('\\'.toUInt8, '\\'.toUInt8)]

theorem visSwitch_mem {c letter : UInt8} {flag : BitVec 32} (h : visSwitch c flag = some letter) :
    (c, letter) ∈ visLetters := by
  have stored (k l : UInt8) (hk : (k, l) ∈ visLetters) (h : some l = some letter) :
      (k, letter) ∈ visLetters := Option.some.inj h ▸ hk
  have nothing (k : UInt8) (h : none = some letter) : (k, letter) ∈ visLetters :=
    absurd h (Option.some_ne_none letter).symm
  have step {k : UInt8} {x y : Option UInt8} (hx : x = some letter → (k, letter) ∈ visLetters)
      (hy : y = some letter → (c, letter) ∈ visLetters) :
      (if c = k then x else y) = some letter → (c, letter) ∈ visLetters := by
    intro h
    split at h
    · next hc => exact hc ▸ hx h
    · exact hy h
  revert h
  unfold visSwitch
  refine step (of_ite_eq_some (stored _ _ (by decide)) (nothing _)) ?_
  refine step (stored _ _ (by decide)) ?_
  refine step (stored _ _ (by decide)) ?_
  refine step (stored _ _ (by decide)) ?_
  refine step (stored _ _ (by decide)) ?_
  refine step (of_ite_eq_some (stored _ _ (by decide)) (nothing _)) ?_
  refine step (stored _ _ (by decide)) ?_
  refine step (of_ite_eq_some (stored _ _ (by decide)) (nothing _)) ?_
  refine step (of_ite_eq_some (stored _ _ (by decide)) (nothing _)) ?_
  exact step (stored _ _ (by decide)) (nothing c)

/-- The letter of a control character. -/
def ctlLetter (c : UInt8) : UInt8 := if c = 0x7f then '?'.toUInt8 else ctlChar c

/-- What `vis` writes, by the branch it takes. -/
inductive VisForm (flag : BitVec 32) (c : UInt8) : List UInt8 → Prop
  | letter {l : UInt8} : (c, l) ∈ visLetters → VisForm flag c ['\\'.toUInt8, l]
  | plain : c ≠ '\\'.toUInt8 → VisForm flag c [c]
  | control : flag &&& visCstyle ≠ 0 → c < 0x20 ∨ c = 0x7f →
      VisForm flag c ['\\'.toUInt8, ctlLetter c]
  | digits : VisForm flag c (visDigits c)

theorem vis_form {flag : BitVec 32} (hflag : flag &&& visNoslash = 0) (c : UInt8) :
    VisForm flag c (vis c flag) := by
  unfold vis
  rw [if_pos hflag]
  cases hswitch : visSwitch c flag with
  | some l => exact .letter (visSwitch_mem hswitch)
  | none =>
    dsimp only
    split
    · refine .plain ?_
      rintro rfl
      exact absurd hswitch (Option.some_ne_none _)
    · split
      · next hctl =>
        have letter :
            (if c = 0x7f then ['\\'.toUInt8, '?'.toUInt8] else ['\\'.toUInt8, ctlChar c]) =
              ['\\'.toUInt8, ctlLetter c] := by
          unfold ctlLetter
          split
          · rfl
          · rfl
        rw [letter]
        exact .control hctl.1 hctl.2
      · exact .digits

theorem isOctal_ctlLetter {c : UInt8} (h : c < 0x20 ∨ c = 0x7f) :
    isOctal (ctlLetter c) = false := by
  rcases h with h | rfl
  · exact forall_byte (P := fun c => isOctal (ctlLetter c) = false) (by decide) h
  · decide

/-- The first of the three digits. -/
theorem isOctal_digit (c : UInt8) : isOctal (((c >>> 6) &&& 7) + '0'.toUInt8) = true :=
  forall_byte (P := fun c => isOctal (((c >>> 6) &&& 7) + '0'.toUInt8) = true)
    (by decide +kernel) c.toNat_lt

/-- The three digits tell the character. -/
theorem visDigits_injective : Function.Injective visDigits := by
  have decode : ∀ c : UInt8, ((visDigits c).getD 1 0 - 48) * 64 +
      ((visDigits c).getD 2 0 - 48) * 8 + ((visDigits c).getD 3 0 - 48) = c := fun c =>
    forall_byte (P := fun c => ((visDigits c).getD 1 0 - 48) * 64 +
      ((visDigits c).getD 2 0 - 48) * 8 + ((visDigits c).getD 3 0 - 48) = c) (b := 256)
      (by decide +kernel) c.toNat_lt
  intro c d h
  rw [← decode c, ← decode d, h]

/-! ## Telling the code words apart -/

/-- A code word by its shape: the escapes with one character and those with three digits differ in
the second character. -/
theorem VisForm.shape {flag : BitVec 32} {c : UInt8} {code : List UInt8} (h : VisForm flag c code) :
    (∃ k, k ≠ '\\'.toUInt8 ∧ code = [k]) ∨ (∃ l, isOctal l = false ∧ code = ['\\'.toUInt8, l]) ∨
      ∃ k, code = visDigits k := by
  cases h with
  | @letter l hl =>
    have table : (visLetters.all fun p => !isOctal p.2) = true := rfl
    have digit := List.all_eq_true.mp table (c, l) hl
    exact .inr (.inl ⟨l, (Bool.not_eq_true' _).mp digit, rfl⟩)
  | plain hc => exact .inl ⟨c, hc, rfl⟩
  | control _ hc => exact .inr (.inl ⟨ctlLetter c, isOctal_ctlLetter hc, rfl⟩)
  | digits => exact .inr (.inr ⟨c, rfl⟩)

section Codes

variable {flag : BitVec 32}

theorem vis_prefixFree (hflag : flag &&& visNoslash = 0) : PrefixFree fun c => vis c flag := by
  have slash {k : UInt8} {code : List UInt8} (hk : k ≠ '\\'.toUInt8) :
      ¬ [k] <+: '\\'.toUInt8 :: code := fun h => hk (List.cons_prefix_cons.mp h).1
  have short {code code' : List UInt8} (hlength : code'.length < code.length) : ¬ code <+: code' :=
    fun h => absurd h.length_le (Nat.not_le.mpr hlength)
  have octal {l k : UInt8} (hl : isOctal l = false) : ¬ ['\\'.toUInt8, l] <+: visDigits k := by
    intro h
    rw [(List.cons_prefix_cons.mp (List.cons_prefix_cons.mp h).2).1, isOctal_digit] at hl
    exact Bool.false_ne_true hl.symm
  intro c d
  show vis c flag <+: vis d flag → vis c flag = vis d flag
  rcases (vis_form hflag c).shape with ⟨k, hk, hc⟩ | ⟨l, hl, hc⟩ | ⟨k, hc⟩
  · rw [hc]
    rcases (vis_form hflag d).shape with ⟨k', -, hd⟩ | ⟨l', -, hd⟩ | ⟨k', hd⟩
    · rw [hd]
      exact fun h => h.eq_of_length rfl
    · rw [hd]
      exact fun h => absurd h (slash hk)
    · rw [hd]
      exact fun h => absurd h (slash hk)
  · rw [hc]
    rcases (vis_form hflag d).shape with ⟨k', -, hd⟩ | ⟨l', -, hd⟩ | ⟨k', hd⟩
    · rw [hd]
      exact fun h => absurd h (short (Nat.lt_succ_self 1))
    · rw [hd]
      exact fun h => h.eq_of_length rfl
    · rw [hd]
      exact fun h => absurd h (octal hl)
  · rw [hc]
    rcases (vis_form hflag d).shape with ⟨k', -, hd⟩ | ⟨l', -, hd⟩ | ⟨k', hd⟩
    · rw [hd]
      exact fun h => absurd h (short (by decide : 1 < 4))
    · rw [hd]
      exact fun h => absurd h (short (by decide : 2 < 4))
    · rw [hd]
      exact fun h => h.eq_of_length rfl

/-- Without the letters for control characters no two characters have one code word. -/
theorem vis_injective (hflag : flag &&& visNoslash = 0) (hctl : flag &&& visCstyle = 0) :
    Function.Injective fun c => vis c flag := by
  intro c d h
  have hcode : vis c flag = vis d flag := h
  have formC := vis_form hflag c
  have formD := vis_form hflag d
  rw [hcode] at formC
  generalize vis d flag = code at formC formD
  cases formC with
  | @letter l hl =>
    cases formD with
    | letter hl' =>
      have table : (visLetters.all fun p =>
          visLetters.all fun q => p.2 != q.2 || p.1 == q.1) = true := rfl
      have same := List.all_eq_true.mp (List.all_eq_true.mp table (c, l) hl) (d, l) hl'
      rw [bne_self_eq_false, Bool.false_or] at same
      exact eq_of_beq same
    | control hne _ => exact absurd hctl hne
  | plain hc =>
    cases formD with
    | plain _ => rfl
  | control hne _ => exact absurd hctl hne
  | digits =>
    generalize hdigits : visDigits c = code at formD
    cases formD with
    | letter _ => exact absurd (congrArg List.length hdigits) (by decide : ¬ 4 = 2)
    | plain _ => exact absurd (congrArg List.length hdigits) (by decide : ¬ 4 = 1)
    | control hne _ => exact absurd hctl hne
    | digits => exact visDigits_injective hdigits

/-- A control character that the switch lets through gets the letter of `ctl`. -/
theorem vis_control {c : UInt8} (hctl : flag &&& visCstyle ≠ 0) (hswitch : visSwitch c flag = none)
    (hprint : isprint c = false) (hc : c < 0x20) :
    vis c flag = ['\\'.toUInt8, ctlChar c] := by
  have hdel : c ≠ 0x7f := by
    rintro rfl
    exact absurd hc (by decide)
  have through : (if flag &&& visNoslash = 0 then visSwitch c flag else none) = none := by
    rw [hswitch, ite_self]
  unfold vis
  rw [through]
  dsimp only
  rw [if_neg fun h => Bool.false_ne_true (hprint.symm.trans h.2.1), if_pos ⟨hctl, .inl hc⟩,
    if_neg hdel]

/-- The characters 0 and 30 have one letter. -/
theorem vis_cstyle (hctl : flag &&& visCstyle ≠ 0) : vis 0 flag = vis 30 flag := by
  rw [vis_control hctl rfl rfl (by decide), vis_control hctl rfl rfl (by decide)]
  rfl

/-- Without `VIS_NOSLASH`: what is encoded can be told exactly if control characters do not have
letters. -/
theorem strvisx_injective_iff (hflag : flag &&& visNoslash = 0) :
    (∀ s t, strvisx s flag = strvisx t flag → s = t) ↔ flag &&& visCstyle = 0 := by
  have nonempty (c : UInt8) : vis c flag ≠ [] := by
    rcases (vis_form hflag c).shape with ⟨k, -, hc⟩ | ⟨l, -, hc⟩ | ⟨k, hc⟩
    all_goals
      rw [hc]
      exact List.cons_ne_nil _ _
  refine ((vis_prefixFree hflag).flatMap_injective_iff nonempty).trans
    ⟨fun h => ?_, vis_injective hflag⟩
  by_contra hctl
  exact absurd (h (vis_cstyle hctl)) (by decide)

/-- With the flags for quotation marks and for white space. -/
theorem strvisx_injective_iff_white :
    (∀ s t, strvisx s (visDq ||| visWhite) = strvisx t (visDq ||| visWhite) → s = t) ↔
      (visDq ||| visWhite) &&& visCstyle = 0 :=
  strvisx_injective_iff (by decide)

/-- The bytes 0 and 30 under `VIS_CSTYLE`. -/
theorem strvisx_cstyle :
    visCstyle &&& visNoslash = 0 ∧ strvisx [0] visCstyle = strvisx [30] visCstyle ∧
      ([0] : List UInt8) ≠ [30] := by
  decide

end Codes

end Unics
