import Unics.Lib.EditLine
import Unics.Sbin.Login

/-!
# Who gets in

The keys cut into attempts: a name that is typed and edited, and then a password, unless the name
is cancelled or empty. The code does the same in two arrays, which hold the line that is being typed
and zeros behind it, and lets the user in at the first attempt with the right name and password
among the first `MAX_LOGIN_ATTEMPTS`.

`loginAuthenticate_right` is the result, for every stream of keys.
-/

namespace Unics

open Unics.Lib

/-! ## Attempts -/

def isDelete (c : UInt8) : Bool := c == 8 || c == 127

/-- A key on a line that takes `room` characters. -/
def fieldKey (room : Nat) (line : List UInt8) (c : UInt8) : List UInt8 :=
  typeKey isDelete isValidInputChar (fun n => decide (n < room)) line c

/-- The line that is typed: nothing when it is cancelled. -/
def typedField (room : Nat) : List UInt8 → List UInt8 → Input (Option (List UInt8))
  | _, [] => .waiting
  | line, c :: keys =>
    if c = 10 ∨ c = 13 then .returned (some line) keys
    else if c = 3 ∨ c = 27 then .returned none keys
    else typedField room (fieldKey room line c) keys

inductive LoginAttempt where
  | cancelledName
  | emptyName
  | cancelledPassword (name : List UInt8)
  | entered (name password : List UInt8)
  deriving DecidableEq

/-- The first attempt that the keys make. -/
def loginAttempt (keys : List UInt8) : Input LoginAttempt :=
  match typedField (usernameMaxLen - 1) [] keys with
  | .waiting => .waiting
  | .returned none keys => .returned .cancelledName keys
  | .returned (some name) keys =>
    if name = [] then .returned .emptyName keys
    else
      match typedField (passwordMaxLen - 1) [] keys with
      | .waiting => .waiting
      | .returned none keys => .returned (.cancelledPassword name) keys
      | .returned (some password) keys => .returned (.entered name password) keys

/-- The attempt that succeeds. -/
def rightLogin : LoginAttempt := .entered loginUsername.bytes loginPassword.bytes

/-- The keys start with `n` attempts that fail, and the rest of them is behind these. -/
inductive FailedLogins : Nat → List UInt8 → List UInt8 → Prop
  | none (keys : List UInt8) : FailedLogins 0 keys keys
  | next {n : Nat} {keys mid rest : List UInt8} {a : LoginAttempt} :
      loginAttempt keys = .returned a mid → a ≠ rightLogin → FailedLogins n mid rest →
      FailedLogins (n + 1) keys rest

/-- What the attempts come to, at most `n` of them. -/
def loginOutcome : Nat → List UInt8 → Input Bool
  | 0, keys => .returned false keys
  | n + 1, keys =>
    match loginAttempt keys with
    | .waiting => .waiting
    | .returned a keys => if a = rightLogin then .returned true keys else loginOutcome n keys

theorem loginOutcome_true_iff {n : Nat} {keys rest : List UInt8} :
    loginOutcome n keys = .returned true rest ↔
      ∃ k mid, k < n ∧ FailedLogins k keys mid ∧ loginAttempt mid = .returned rightLogin rest := by
  induction n generalizing keys with
  | zero =>
    refine iff_of_false (fun h => ?_) fun ⟨k, _, hk, _⟩ => absurd hk (Nat.not_lt_zero k)
    rw [loginOutcome] at h
    cases h
  | succ n ih =>
    rw [loginOutcome]
    cases hattempt : loginAttempt keys with
    | waiting =>
      refine iff_of_false (fun h => by cases h) ?_
      rintro ⟨k, mid, -, hfailed, hright⟩
      cases hfailed with
      | none => cases hattempt.symm.trans hright
      | next h => cases hattempt.symm.trans h
    | returned a next =>
      dsimp only
      by_cases ha : a = rightLogin
      · subst ha
        rw [if_pos rfl]
        constructor
        · intro h
          obtain ⟨-, rfl⟩ := Input.returned.inj h
          exact ⟨0, keys, Nat.succ_pos n, .none keys, hattempt⟩
        · rintro ⟨k, mid, -, hfailed, hright⟩
          cases hfailed with
          | none =>
            obtain ⟨-, rfl⟩ := Input.returned.inj (hattempt.symm.trans hright)
            rfl
          | next h hne =>
            obtain ⟨rfl, -⟩ := Input.returned.inj (hattempt.symm.trans h)
            exact absurd rfl hne
      · rw [if_neg ha, ih]
        constructor
        · rintro ⟨k, mid, hk, hfailed, hright⟩
          exact ⟨k + 1, mid, Nat.succ_lt_succ hk, .next hattempt ha hfailed, hright⟩
        · rintro ⟨k, mid, hk, hfailed, hright⟩
          cases hfailed with
          | none =>
            obtain ⟨rfl, -⟩ := Input.returned.inj (hattempt.symm.trans hright)
            exact absurd rfl ha
          | next h hne hfailed =>
            obtain ⟨rfl, rfl⟩ := Input.returned.inj (hattempt.symm.trans h)
            exact ⟨_, mid, Nat.lt_of_succ_lt_succ hk, hfailed, hright⟩

theorem loginOutcome_false_iff {n : Nat} {keys rest : List UInt8} :
    loginOutcome n keys = .returned false rest ↔ FailedLogins n keys rest := by
  induction n generalizing keys with
  | zero =>
    rw [loginOutcome]
    constructor
    · intro h
      obtain ⟨-, rfl⟩ := Input.returned.inj h
      exact .none keys
    · intro h
      cases h
      rfl
  | succ n ih =>
    rw [loginOutcome]
    cases hattempt : loginAttempt keys with
    | waiting =>
      refine iff_of_false (fun h => by cases h) fun h => ?_
      cases h with
      | next h => cases hattempt.symm.trans h
    | returned a next =>
      dsimp only
      by_cases ha : a = rightLogin
      · subst ha
        rw [if_pos rfl]
        refine iff_of_false (fun h => ?_) fun h => ?_
        · exact Bool.noConfusion (Input.returned.inj h).1
        · cases h with
          | next h hne =>
            obtain ⟨rfl, -⟩ := Input.returned.inj (hattempt.symm.trans h)
            exact hne rfl
      · rw [if_neg ha, ih]
        constructor
        · intro h
          exact .next hattempt ha h
        · intro h
          cases h with
          | next h hne hfailed =>
            obtain ⟨rfl, rfl⟩ := Input.returned.inj (hattempt.symm.trans h)
            exact hfailed

/-! ## The arrays -/

/-- The array holds the line and zeros behind it. -/
structure HoldsLine (size : Nat) (buffer : Buffer) (line : List UInt8) : Prop where
  fits : line.length < size
  bytes : bytesAt buffer 0 line.length = line
  zeros : ∀ i, line.length ≤ i → i < size → buffer i = 0
  noNul : (0 : UInt8) ∉ line

theorem secureClearBuffer_ends (size : Nat) (buffer : Buffer) :
    Ends (secureClearBuffer size buffer) fun buffer => ∀ i < size, buffer i = 0 := by
  have loop : Ends (secureClearBuffer size buffer) fun b => ∀ i < 0 + size, b i = 0 := by
    refine Ends.range' (I := fun n (b : Buffer) => ∀ i < n, b i = 0) ?_
      fun i hi => absurd hi (Nat.not_lt_zero i)
    intro n _ hn b hb
    rw [Nat.zero_add] at hn
    rw [storeChar_of_lt b 0 hn]
    refine ends_some.mpr fun i hi => ?_
    by_cases here : i = n
    · rw [here, Function.update_self]
    · rw [Function.update_of_ne here, hb i (by omega)]
  rw [Nat.zero_add] at loop
  exact loop

theorem holdsLine_nil {size : Nat} (hsize : 0 < size) {buffer : Buffer}
    (h : ∀ i < size, buffer i = 0) : HoldsLine size buffer [] :=
  ⟨hsize, rfl, fun i _ hi => h i hi, List.not_mem_nil⟩

/-- A terminator where there is one. -/
theorem HoldsLine.terminate {size : Nat} {buffer : Buffer} {line : List UInt8}
    (h : HoldsLine size buffer line) :
    HoldsLine size (Function.update buffer line.length 0) line := by
  have same : Function.update buffer line.length 0 = buffer := by
    rw [← h.zeros line.length (Nat.le_refl _) h.fits, Function.update_eq_self]
  rw [same]
  exact h

theorem HoldsLine.push {size : Nat} {buffer : Buffer} {line : List UInt8}
    (h : HoldsLine size buffer line) {c : UInt8} (hc : c ≠ 0) (hroom : line.length < size - 1) :
    HoldsLine size (Function.update buffer line.length c) (line ++ [c]) where
  fits := by
    rw [List.length_append]
    exact Nat.add_lt_of_lt_sub hroom
  bytes := by
    have push := bytesAt_push buffer 0 line.length c
    rw [Nat.zero_add, h.bytes] at push
    rw [List.length_append]
    exact push
  zeros i hle hlt := by
    rw [List.length_append, List.length_singleton] at hle
    rw [Function.update_of_ne (by omega), h.zeros i (by omega) hlt]
  noNul hmem := by
    rcases List.mem_append.mp hmem with hmem | hmem
    · exact h.noNul hmem
    · exact hc (List.mem_singleton.mp hmem).symm

theorem HoldsLine.pop {size : Nat} {buffer : Buffer} {line : List UInt8}
    (h : HoldsLine size buffer line) :
    HoldsLine size (Function.update buffer (line.length - 1) 0) line.dropLast where
  fits := by
    rw [List.length_dropLast]
    exact Nat.lt_of_le_of_lt (Nat.sub_le _ _) h.fits
  bytes := by
    rw [List.length_dropLast, bytesAt_update (.inr (by omega)), bytesAt_pop, h.bytes]
  zeros i hle hlt := by
    rw [List.length_dropLast] at hle
    by_cases here : i = line.length - 1
    · rw [here, Function.update_self]
    · rw [Function.update_of_ne here, h.zeros i (by omega) hlt]
  noNul hmem := h.noNul (List.dropLast_subset line hmem)

/-- The line as a string. -/
def HoldsLine.string {size : Nat} {buffer : Buffer} {line : List UInt8}
    (h : HoldsLine size buffer line) : CString := ⟨line, h.noNul⟩

theorem HoldsLine.ofBuffer {size : Nat} {buffer : Buffer} {line : List UInt8}
    (h : HoldsLine size buffer line) : CString.ofBuffer size buffer = some h.string :=
  CString.ofBuffer_eq h.fits h.bytes (h.zeros _ (Nat.le_refl _) h.fits)

/-! ## Reading a field -/

/-- What the array of a field holds when it has been read, beside what was typed. -/
inductive FieldRead (size : Nat) : Input (Option (List UInt8)) → Input (Int × Buffer) → Prop
  | waiting : FieldRead size .waiting .waiting
  | line {line rest : List UInt8} {buffer : Buffer} (h : HoldsLine size buffer line) :
      FieldRead size (.returned (some line) rest) (.returned (0, buffer) rest)
  | cancelled {rest : List UInt8} {buffer : Buffer} (h : ∀ i < size, buffer i = 0) :
      FieldRead size (.returned none rest) (.returned (-2, buffer) rest)

theorem isDelete_iff (c : UInt8) : isDelete c = true ↔ c = 8 ∨ c = 127 := by
  rw [isDelete, Bool.or_eq_true, beq_iff_eq, beq_iff_eq]

/-- The loop edits its array as the keys edit the line. -/
theorem getInputLoop_ends {size : Nat} {buffer : Buffer} {line : List UInt8}
    (h : HoldsLine size buffer line) (keys : List UInt8) :
    Ends (getInputLoop size keys buffer line.length)
      (FieldRead size (typedField (size - 1) line keys)) := by
  induction keys generalizing buffer line with
  | nil => exact ends_some.mpr .waiting
  | cons c keys ih =>
    have top : line.length - 1 < size := Nat.lt_of_le_of_lt (Nat.sub_le _ _) h.fits
    rw [getInputLoop, typedField]
    split
    · rw [storeChar_of_lt _ _ h.fits]
      exact ends_some.mpr (.line h.terminate)
    · next hend =>
      by_cases hdelete : c = 8 ∨ c = 127
      · have other : ¬ (c = 3 ∨ c = 27) := by
          rcases hdelete with rfl | rfl
          · decide
          · decide
        have typed : fieldKey (size - 1) line c = line.dropLast :=
          typeKey_erase ((isDelete_iff c).mpr hdelete) line
        rw [if_pos hdelete, if_neg other, typed]
        split
        · rw [storeChar_of_lt _ _ top]
          have count := ih h.pop
          rw [List.length_dropLast] at count
          exact count
        · next hzero =>
          obtain rfl := List.eq_nil_of_length_eq_zero (Nat.eq_zero_of_not_pos hzero)
          exact ih h
      · have notDelete : isDelete c = false :=
          Bool.eq_false_iff.mpr fun h => hdelete ((isDelete_iff c).mp h)
        rw [if_neg hdelete]
        split
        · exact (secureClearBuffer_ends size buffer).bind fun b hb =>
            ends_some.mpr (.cancelled hb)
        · split
          · next hkeep =>
            obtain ⟨hroom, hvalid⟩ := hkeep
            have hc : c ≠ 0 := bne_iff_ne.mp (Bool.and_eq_true_iff.mp hvalid).2
            have typed : fieldKey (size - 1) line c = line ++ [c] :=
              typeKey_keep notDelete hvalid (decide_eq_true hroom)
            rw [storeChar_of_lt _ _ h.fits, typed]
            have count := ih (h.push hc hroom)
            rw [List.length_append] at count
            exact count
          · next hskip =>
            have typed : fieldKey (size - 1) line c = line :=
              typeKey_skip notDelete fun hvalid =>
                decide_eq_false fun hroom => hskip ⟨hroom, hvalid⟩
            rw [typed]
            exact ih h

theorem getInputSecure_ends {size : Nat} (hsize : 0 < size) (buffer : Buffer) (keys : List UInt8) :
    Ends (getInputSecure size buffer keys) (FieldRead size (typedField (size - 1) [] keys)) := by
  rw [getInputSecure, if_neg (Nat.ne_of_gt hsize)]
  exact (secureClearBuffer_ends size buffer).bind fun b hb =>
    getInputLoop_ends (holdsLine_nil hsize hb) keys

/-- What a field comes to: a line that is there, one that is empty and may not be, or none. -/
inductive FieldGot (size : Nat) (mayBeEmpty : Prop) :
    Input (Option (List UInt8)) → Input (Bool × Buffer) → Prop
  | waiting : FieldGot size mayBeEmpty .waiting .waiting
  | line {line rest : List UInt8} {buffer : Buffer} (h : HoldsLine size buffer line)
      (hline : mayBeEmpty ∨ line ≠ []) :
      FieldGot size mayBeEmpty (.returned (some line) rest) (.returned (true, buffer) rest)
  | empty {rest : List UInt8} {buffer : Buffer} (h : ¬ mayBeEmpty) :
      FieldGot size mayBeEmpty (.returned (some []) rest) (.returned (false, buffer) rest)
  | cancelled {rest : List UInt8} {buffer : Buffer} :
      FieldGot size mayBeEmpty (.returned none rest) (.returned (false, buffer) rest)

theorem loginGetUsername_ends {size : Nat} (hsize : 0 < size) (buffer : Buffer)
    (keys : List UInt8) :
    Ends (loginGetUsername size buffer keys)
      (FieldGot size False (typedField (size - 1) [] keys)) := by
  rw [loginGetUsername, if_neg (Nat.ne_of_gt hsize)]
  refine (getInputSecure_ends hsize buffer keys).bind fun r hr => ?_
  generalize typedField (size - 1) [] keys = field at hr ⊢
  cases hr with
  | waiting => exact ends_some.mpr .waiting
  | @line line rest buffer h =>
    dsimp only
    rw [if_neg (not_not.mpr rfl), h.ofBuffer]
    by_cases hempty : line = []
    · subst hempty
      exact ends_some.mpr (.empty id)
    · have some : ¬ h.string.strlen = 0 := fun hzero =>
        hempty (List.eq_nil_of_length_eq_zero hzero)
      dsimp only [Option.bind_eq_bind, Option.bind_some]
      rw [if_neg some]
      exact ends_some.mpr (.line h (.inr hempty))
  | cancelled =>
    dsimp only
    rw [if_pos (by decide)]
    exact (secureClearBuffer_ends size _).bind fun b _ => ends_some.mpr .cancelled

theorem loginGetPassword_ends {size : Nat} (hsize : 0 < size) (buffer : Buffer)
    (keys : List UInt8) :
    Ends (loginGetPassword size buffer keys)
      (FieldGot size True (typedField (size - 1) [] keys)) := by
  rw [loginGetPassword, if_neg (Nat.ne_of_gt hsize)]
  refine (getInputSecure_ends hsize buffer keys).bind fun r hr => ?_
  generalize typedField (size - 1) [] keys = field at hr ⊢
  cases hr with
  | waiting => exact ends_some.mpr .waiting
  | line h =>
    dsimp only
    rw [if_neg (not_not.mpr rfl)]
    exact ends_some.mpr (.line h (.inl trivial))
  | cancelled =>
    dsimp only
    rw [if_pos (by decide)]
    exact (secureClearBuffer_ends size _).bind fun b _ => ends_some.mpr .cancelled

/-! ## The attempts -/

/-- The answer without the arrays. -/
def Input.success : Input (Bool × Buffer × Buffer) → Input Bool
  | .waiting => .waiting
  | .returned (success, _) rest => .returned success rest

/-- The two comparisons. -/
theorem rightLogin_iff {name password : List UInt8} {u p : Buffer}
    (hn : HoldsLine usernameMaxLen u name) (hp : HoldsLine passwordMaxLen p password) :
    strcmp hn.string loginUsername = 0 ∧ strcmp hp.string loginPassword = 0 ↔
      LoginAttempt.entered name password = rightLogin := by
  rw [strcmp_eq_zero_iff, strcmp_eq_zero_iff, CString.ext_iff, CString.ext_iff, rightLogin,
    LoginAttempt.entered.injEq]
  rfl

/-- The loop comes to what the attempts come to. -/
theorem loginLoop_ends (n : Nat) (u p : Buffer) (keys : List UInt8) :
    Ends (loginLoop n u p keys) fun r => r.success = loginOutcome n keys := by
  induction n generalizing u p keys with
  | zero => exact ends_some.mpr rfl
  | succ n ih =>
    rw [loginLoop]
    refine (secureClearBuffer_ends usernameMaxLen u).bind fun u _ => ?_
    refine (secureClearBuffer_ends passwordMaxLen p).bind fun p _ => ?_
    refine (loginGetUsername_ends (Nat.succ_pos 31) u keys).bind fun r hr => ?_
    rw [loginOutcome, loginAttempt]
    generalize typedField (usernameMaxLen - 1) [] keys = field at hr
    cases hr with
    | waiting => exact ends_some.mpr rfl
    | empty | cancelled => exact ih ..
    | @line name rest u hname hsome =>
      dsimp only
      rw [if_neg (hsome.resolve_left id)]
      refine (loginGetPassword_ends (Nat.succ_pos 31) p rest).bind fun r hr => ?_
      generalize typedField (passwordMaxLen - 1) [] rest = field at hr
      cases hr with
      | waiting => exact ends_some.mpr rfl
      | empty h => exact absurd trivial h
      | cancelled => exact ih ..
      | @line password rest p hpassword =>
        dsimp only
        rw [hname.ofBuffer, hpassword.ofBuffer]
        dsimp only [Option.bind_eq_bind, Option.bind_some]
        by_cases hright : LoginAttempt.entered name password = rightLogin
        · rw [if_pos ((rightLogin_iff hname hpassword).mpr hright), if_pos hright]
          exact ends_some.mpr rfl
        · rw [if_neg fun h => hright ((rightLogin_iff hname hpassword).mp h), if_neg hright]
          exact ih ..

/-- What `login_authenticate` comes to. -/
structure LoginRight (keys : List UInt8) (r : Input (Bool × Buffer × Buffer)) : Prop where
  /-- It lets the user in at an attempt that is right and comes after fewer than
  `MAX_LOGIN_ATTEMPTS` that fail, and has taken no key behind it. -/
  accepted : ∀ rest, (∃ u p, r = .returned (true, u, p) rest) ↔
    ∃ n mid, n < maxLoginAttempts ∧ FailedLogins n keys mid ∧
      loginAttempt mid = .returned rightLogin rest
  /-- It refuses after as many attempts, which all fail. -/
  refused : ∀ rest, (∃ u p, r = .returned (false, u, p) rest) ↔
    FailedLogins maxLoginAttempts keys rest
  cleared : ∀ success u p rest, r = .returned (success, u, p) rest →
    (∀ i < usernameMaxLen, u i = 0) ∧ ∀ i < passwordMaxLen, p i = 0

/-- For every stream of keys, and whatever the arrays held before: no access is outside them, and
the answer is right. -/
theorem loginAuthenticate_right (u p : Buffer) (keys : List UInt8) :
    Ends (loginAuthenticate u p keys) (LoginRight keys) := by
  refine (loginLoop_ends maxLoginAttempts u p keys).bind fun r hr => ?_
  cases r with
  | waiting =>
    have outcome : loginOutcome maxLoginAttempts keys = .waiting := hr.symm
    refine ends_some.mpr ⟨fun rest => ?_, fun rest => ?_, fun _ _ _ _ h => by cases h⟩
    · rw [← loginOutcome_true_iff, outcome]
      exact iff_of_false (fun ⟨_, _, h⟩ => by cases h) fun h => by cases h
    · rw [← loginOutcome_false_iff, outcome]
      exact iff_of_false (fun ⟨_, _, h⟩ => by cases h) fun h => by cases h
  | returned a rest =>
    obtain ⟨success, u, p⟩ := a
    have outcome : loginOutcome maxLoginAttempts keys = .returned success rest := hr.symm
    refine (secureClearBuffer_ends usernameMaxLen u).bind fun u hu => ?_
    refine (secureClearBuffer_ends passwordMaxLen p).bind fun p hp => ?_
    have answer : ∀ (b : Bool) (rest' : List UInt8),
        (∃ u' p', Input.returned (success, u, p) rest = .returned (b, u', p') rest') ↔
          loginOutcome maxLoginAttempts keys = .returned b rest' := by
      intro b rest'
      rw [outcome]
      constructor
      · rintro ⟨u', p', h⟩
        cases h
        rfl
      · intro h
        cases h
        exact ⟨u, p, rfl⟩
    refine ends_some.mpr ⟨fun rest' => ?_, fun rest' => ?_, fun _ _ _ _ h => ?_⟩
    · rw [answer, loginOutcome_true_iff]
    · rw [answer, loginOutcome_false_iff]
    · cases h
      exact ⟨hu, hp⟩

end Unics
