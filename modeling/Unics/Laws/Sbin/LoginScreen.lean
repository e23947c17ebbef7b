import Unics.Laws.Sbin.Login
import Unics.Laws.Vga.Typing
import Unics.Sbin.LoginScreen

/-!
# What is seen of a login

The functions of the login print while they read keys, so what they have passed to `vga_putchar` is
a function of the keys, whether they have returned or wait (`loginLoop_shown`). On the screen, where
characters are taken back, a name is there as it is typed, and of a password its length
(`login_shows`). What is printed does not depend on the characters of a password, but for the answer
to it (`login_hides`).
-/

namespace Unics

open Unics.Lib

/-! ## What is printed -/

/-- The fields of the first attempt, by what is printed for them. -/
def attemptText (name password : List UInt8 → List UInt8) (keys : List UInt8) : List UInt8 :=
  name keys ++
    match typedField (usernameMaxLen - 1) [] keys with
    | .waiting => []
    | .returned none _ => []
    | .returned (some line) rest => if line = [] then [] else password rest

/-- The message for an attempt, with so many left. -/
def answerText (attempts : ℕ) : LoginAttempt → List UInt8
  | .cancelledName => text "Invalid username input\n"
  | .emptyName => text "Invalid username input\n"
  | .cancelledPassword _ => text "Invalid password input\n"
  | .entered name password =>
    if .entered name password = rightLogin then []
    else if 0 < attempts then text "Login incorrect\n" else []

/-- All attempts. -/
def loginText (name password : List UInt8 → List UInt8) : ℕ → List UInt8 → List UInt8
  | 0, _ => []
  | attempts + 1, keys =>
    attemptText name password keys ++
      match loginAttempt keys with
      | .waiting => []
      | .returned a rest =>
        answerText attempts a ++
          if a = rightLogin then [] else loginText name password attempts rest

/-- All that is printed, with the answer. -/
def promptText (name password : List UInt8 → List UInt8) (keys : List UInt8) : List UInt8 :=
  loginText name password maxLoginAttempts keys ++
    match loginOutcome maxLoginAttempts keys with
    | .waiting => []
    | .returned true _ => text "Login successful. Welcome!\n"
    | .returned false _ =>
      text "Maximum login attempts reached.\n" ++ text "System access denied.\n" ++
        text "System halted. Please restart.\n"

/-- The newline behind a field that has ended. -/
def endOfField {α : Type} : Input α → List UInt8
  | .waiting => []
  | .returned _ _ => [10]

/-- What is printed for a password. -/
def passwordPrinted (keys : List UInt8) : List UInt8 :=
  text "password: " ++ getInputShown true passwordMaxLen keys 0 ++
    endOfField (typedField (passwordMaxLen - 1) [] keys)

theorem loginGetPasswordShown_eq (p : Buffer) (keys : List UInt8) :
    loginGetPasswordShown passwordMaxLen p keys = some (passwordPrinted keys) := by
  have newline : text "\n" = [10] := by decide +kernel
  obtain ⟨r, hr, hread⟩ := getInputSecure_ends (Nat.succ_pos 31) p keys
  rw [loginGetPasswordShown, passwordPrinted, hr]
  generalize typedField (passwordMaxLen - 1) [] keys = field at hread ⊢
  cases hread with
  | waiting => exact congrArg some (List.append_nil _).symm
  | line | cancelled => exact congrArg (fun behind => some (_ ++ behind)) newline

/-- The loop prints the attempts, whatever the arrays hold. -/
theorem loginLoop_shown (n : ℕ) (u p : Buffer) (keys : List UInt8) :
    loginLoopShown n u p keys =
      some (loginText (loginGetUsernameShown usernameMaxLen) passwordPrinted n keys) := by
  induction n generalizing u p keys with
  | zero => rfl
  | succ n ih =>
    rw [loginLoopShown, loginText, attemptText, loginAttempt]
    have wrong : LoginAttempt.emptyName ≠ rightLogin ∧ LoginAttempt.cancelledName ≠ rightLogin ∧
        ∀ name, LoginAttempt.cancelledPassword name ≠ rightLogin :=
      ⟨LoginAttempt.noConfusion, LoginAttempt.noConfusion, fun _ => LoginAttempt.noConfusion⟩
    obtain ⟨u', hu, -⟩ := secureClearBuffer_ends usernameMaxLen u
    obtain ⟨p', hp, -⟩ := secureClearBuffer_ends passwordMaxLen p
    obtain ⟨r, hr, hgot⟩ := loginGetUsername_ends (Nat.succ_pos 31) u' keys
    rw [hu, hp]
    dsimp only [Option.bind_eq_bind, Option.bind_some]
    rw [hr]
    dsimp only [Option.bind_some]
    generalize typedField (usernameMaxLen - 1) [] keys = field at hgot ⊢
    cases hgot with
    | waiting => exact congrArg some (by rw [List.append_nil, List.append_nil])
    | empty =>
      dsimp only
      rw [ih, if_pos rfl, if_pos rfl]
      dsimp only
      rw [if_neg wrong.1, List.append_nil]
      exact congrArg some (List.append_assoc ..)
    | cancelled =>
      dsimp only
      rw [ih, if_neg wrong.2.1, List.append_nil]
      exact congrArg some (List.append_assoc ..)
    | @line name rest u hname hsome =>
      have there : name ≠ [] := hsome.resolve_left id
      dsimp only
      rw [if_neg there, if_neg there, loginGetPasswordShown_eq]
      obtain ⟨r, hr, hgot⟩ := loginGetPassword_ends (Nat.succ_pos 31) p' rest
      dsimp only [Option.bind_some]
      rw [hr]
      dsimp only [Option.bind_some]
      generalize typedField (passwordMaxLen - 1) [] rest = field at hgot ⊢
      cases hgot with
      | waiting => exact congrArg some (List.append_nil _).symm
      | empty h => exact absurd trivial h
      | cancelled =>
        dsimp only
        rw [ih, if_neg (wrong.2.2 name)]
        exact congrArg some (List.append_assoc ..)
      | @line word rest p hword =>
        dsimp only
        rw [hname.ofBuffer, hword.ofBuffer, answerText]
        dsimp only [Option.bind_some]
        by_cases hright : LoginAttempt.entered name word = rightLogin
        · rw [if_pos ((rightLogin_iff hname hword).mpr hright), if_pos hright, if_pos hright,
            List.append_nil, List.append_nil]
        · rw [if_neg fun h => hright ((rightLogin_iff hname hword).mp h), if_neg hright,
            if_neg hright, ih]
          exact congrArg some (List.append_assoc ..)

theorem loginAuthenticate_success (u p : Buffer) (keys : List UInt8) :
    Ends (loginAuthenticate u p keys) fun r => r.success = loginOutcome maxLoginAttempts keys := by
  refine (loginLoop_ends maxLoginAttempts u p keys).bind fun r hr => ?_
  cases r with
  | waiting => exact ends_some.mpr hr
  | returned a rest =>
    refine (secureClearBuffer_ends usernameMaxLen _).bind fun u _ => ?_
    refine (secureClearBuffer_ends passwordMaxLen _).bind fun p _ => ?_
    exact ends_some.mpr hr

theorem loginPrompt_shown (u p : Buffer) (keys : List UInt8) :
    loginPromptShown u p keys =
      some (promptText (loginGetUsernameShown usernameMaxLen) passwordPrinted keys) := by
  obtain ⟨r, hr, hsuccess⟩ := loginAuthenticate_success u p keys
  rw [loginPromptShown, loginLoop_shown, promptText, ← hsuccess]
  dsimp only [Option.bind_eq_bind, Option.bind_some]
  rw [hr]
  cases r with
  | waiting => exact congrArg some (List.append_nil _).symm
  | returned a rest =>
    obtain ⟨success, u, p⟩ := a
    cases success with
    | true => rfl
    | false =>
      refine congrArg some ?_
      show _ = _ ++ (_ ++ _ ++ _)
      rw [← List.append_assoc, ← List.append_assoc]

/-! ## Key by key -/

section Keys

variable {isPassword : Bool} {size room : ℕ} {line line' keys rest : List UInt8} {c d : UInt8}

/-- Enter, or a key that cancels. -/
abbrev EndsField (c : UInt8) : Prop := (c = 10 ∨ c = 13) ∨ c = 3 ∨ c = 27

/-- What is printed for a key that does not end the field. -/
def fieldEcho (isPassword : Bool) (size pos : ℕ) (c : UInt8) : List UInt8 :=
  if isDelete c then if 0 < pos then [8, 32, 8] else []
  else if pos < size - 1 ∧ isValidInputChar c then [if isPassword then passwordMask else c]
  else []

/-- A character is no other key. -/
theorem isValidInputChar_plain (h : isValidInputChar c = true) :
    ¬ EndsField c ∧ isDelete c = false := by
  refine ⟨?_, Bool.eq_false_iff.mpr fun hdelete => ?_⟩
  · rintro ((rfl | rfl) | rfl | rfl)
    all_goals exact absurd h (by decide)
  · rcases (isDelete_iff c).mp hdelete with rfl | rfl
    all_goals exact absurd h (by decide)

theorem typedField_ends (hc : EndsField c) (line keys : List UInt8) :
    typedField room line (c :: keys) =
      .returned (if c = 10 ∨ c = 13 then some line else none) keys := by
  rw [typedField]
  by_cases hend : c = 10 ∨ c = 13
  · rw [if_pos hend, if_pos hend]
  · rw [if_neg hend, if_neg hend, if_pos (hc.resolve_left hend)]

theorem typedField_key (hc : ¬ EndsField c) (line keys : List UInt8) :
    typedField room line (c :: keys) = typedField room (fieldKey room line c) keys := by
  obtain ⟨hend, hcancel⟩ := not_or.mp hc
  rw [typedField, if_neg hend, if_neg hcancel]

theorem getInputShown_ends (hc : EndsField c) (keys : List UInt8) (pos : ℕ) :
    getInputShown isPassword size (c :: keys) pos =
      if c = 10 ∨ c = 13 then if isPassword then [] else [10] else [] := by
  rw [getInputShown]
  rcases hc with hend | hcancel
  · rw [if_pos hend, if_pos hend]
  · have other : ¬ (c = 10 ∨ c = 13) ∧ ¬ (c = 8 ∨ c = 127) := by
      rcases hcancel with rfl | rfl
      · decide
      · decide
    rw [if_neg other.1, if_neg other.1, if_neg other.2, if_pos hcancel]

/-- How many characters the line has behind a key. -/
theorem length_fieldKey (room : ℕ) (line : List UInt8) (c : UInt8) :
    (fieldKey room line c).length =
      if isDelete c then line.length - 1
      else if line.length < room ∧ isValidInputChar c then line.length + 1
      else line.length := by
  unfold fieldKey typeKey
  rw [apply_ite List.length, apply_ite List.length, List.length_dropLast, List.length_append]
  have same : (isValidInputChar c && decide (line.length < room)) = true ↔
      line.length < room ∧ isValidInputChar c = true := by
    rw [Bool.and_eq_true, decide_eq_true_eq, and_comm]
  rw [if_congr same rfl rfl]
  rfl

theorem getInputShown_key (hc : ¬ EndsField c) (line keys : List UInt8) :
    getInputShown isPassword size (c :: keys) line.length =
      fieldEcho isPassword size line.length c ++
        getInputShown isPassword size keys (fieldKey (size - 1) line c).length := by
  obtain ⟨hend, hcancel⟩ := not_or.mp hc
  rw [getInputShown, if_neg hend, if_neg hcancel, length_fieldKey, fieldEcho,
    if_congr (isDelete_iff c).symm rfl rfl]
  split
  · split
    · rfl
    · next hzero =>
      rw [Nat.eq_zero_of_not_pos hzero]
      rfl
  · split
    · rfl
    · rfl

end Keys

/-! ## What is seen -/

/-- The line of a field when it ends, or when the keys do. -/
def fieldLine (room : ℕ) : List UInt8 → List UInt8 → List UInt8
  | line, [] => line
  | line, c :: keys => if EndsField c then line else fieldLine room (fieldKey room line c) keys

/-- The newline behind a name, which is there only if the name has been entered. -/
def endOfName : Input (Option (List UInt8)) → List UInt8
  | .waiting => []
  | .returned none _ => []
  | .returned (some _) _ => [10]

/-- A name as it is typed. -/
def nameSeen (keys : List UInt8) : List UInt8 :=
  text "login: " ++ fieldLine (usernameMaxLen - 1) [] keys ++
    endOfName (typedField (usernameMaxLen - 1) [] keys)

/-- Of a password a mask for every character. -/
def passwordSeen (keys : List UInt8) : List UInt8 :=
  text "password: " ++
    List.replicate (fieldLine (passwordMaxLen - 1) [] keys).length passwordMask ++
    endOfField (typedField (passwordMaxLen - 1) [] keys)

/-! ### A field on the screen -/

section Field

variable {isPassword : Bool} {size : ℕ} {line shown : List UInt8} {vga : Vga} {color : UInt8}

/-- A line as it is shown. -/
def shownLine (isPassword : Bool) (line : List UInt8) : List UInt8 :=
  line.map fun c => if isPassword then passwordMask else c

theorem isValidInputChar_printable {c : UInt8} (h : isValidInputChar c = true) : Printable c := by
  obtain ⟨range, -⟩ := Bool.and_eq_true_iff.mp h
  obtain ⟨low, high⟩ := Bool.and_eq_true_iff.mp range
  exact ⟨of_decide_eq_true low, of_decide_eq_true high⟩

theorem shownLine_printable (hline : ∀ c ∈ line, Printable c) :
    ∀ c ∈ shownLine isPassword line, Printable c := by
  intro c hc
  obtain ⟨d, hd, rfl⟩ := List.mem_map.mp hc
  split
  · exact ⟨by decide, by decide⟩
  · exact hline d hd

theorem shownLine_dropLast (isPassword : Bool) (line : List UInt8) :
    shownLine isPassword line.dropLast = (shownLine isPassword line).dropLast :=
  List.map_dropLast ..

/-- A key shows the line as it edits it. -/
theorem fieldEcho_shows (hline : ∀ c ∈ line, Printable c) (hlen : line.length < size)
    (hsize : size ≤ 80) (h : vga.ShowsLine color shown (shownLine isPassword line)) (c : UInt8) :
    Ends ((fieldEcho isPassword size line.length c).foldlM vgaPutchar vga)
      (Vga.ShowsLine · color shown (shownLine isPassword (fieldKey (size - 1) line c))) := by
  rw [fieldEcho]
  cases hdelete : isDelete c with
  | true =>
    have typed : fieldKey (size - 1) line c = line.dropLast := typeKey_erase hdelete line
    rw [if_pos rfl, typed]
    split
    · next hpos =>
      have some : shownLine isPassword line ≠ [] := by
        rw [Ne, shownLine, List.map_eq_nil_iff]
        exact List.ne_nil_of_length_pos hpos
      have short : (shownLine isPassword line).length ≤ 80 * 22 := by
        rw [shownLine, List.length_map]
        omega
      rw [shownLine_dropLast]
      exact h.erase some (shownLine_printable hline) short
    · next hzero =>
      obtain rfl := List.eq_nil_of_length_eq_zero (Nat.eq_zero_of_not_pos hzero)
      exact ends_some.mpr h
  | false =>
    rw [if_neg Bool.false_ne_true]
    split
    · next hkeep =>
      obtain ⟨hroom, hvalid⟩ := hkeep
      have typed : fieldKey (size - 1) line c = line ++ [c] :=
        typeKey_keep hdelete hvalid (decide_eq_true hroom)
      have put : shownLine isPassword (line ++ [c]) =
          shownLine isPassword line ++ [if isPassword then passwordMask else c] :=
        List.map_append
      have printable : ∀ d ∈ shownLine isPassword [c], Printable d :=
        shownLine_printable fun d hd =>
          List.mem_singleton.mp hd ▸ isValidInputChar_printable hvalid
      rw [typed, put]
      exact h.puts fun d hd => .inl (printable d hd)
    · next hskip =>
      have typed : fieldKey (size - 1) line c = line :=
        typeKey_skip hdelete fun hvalid => decide_eq_false fun hroom => hskip ⟨hroom, hvalid⟩
      rw [typed]
      exact ends_some.mpr h

/-- The line stays one that can be shown. -/
theorem fieldKey_fits (hline : ∀ c ∈ line, Printable c) (hlen : line.length < size) (c : UInt8) :
    (∀ d ∈ fieldKey (size - 1) line c, Printable d) ∧
      (fieldKey (size - 1) line c).length < size := by
  refine ⟨fun d hd => ?_, ?_⟩
  · unfold fieldKey typeKey at hd
    split at hd
    · exact hline d (List.dropLast_subset line hd)
    · split at hd
      · next hkeep =>
        rcases List.mem_append.mp hd with hd | hd
        · exact hline d hd
        · exact List.mem_singleton.mp hd ▸
            isValidInputChar_printable (Bool.and_eq_true_iff.mp hkeep).1
      · exact hline d hd
  · rw [length_fieldKey]
    split_ifs
    all_goals omega

/-- The loop shows the line as the keys edit it. -/
theorem getInputShown_shows (hline : ∀ c ∈ line, Printable c) (hlen : line.length < size)
    (hsize : size ≤ 80) (h : vga.ShowsLine color shown (shownLine isPassword line))
    (keys : List UInt8) :
    Ends ((getInputShown isPassword size keys line.length).foldlM vgaPutchar vga)
      (Vga.ShowsLine · color shown (shownLine isPassword (fieldLine (size - 1) line keys) ++
        if isPassword then [] else endOfName (typedField (size - 1) line keys))) := by
  induction keys generalizing line vga with
  | nil =>
    refine ends_some.mpr ?_
    rw [fieldLine, typedField, endOfName, ite_self, List.append_nil]
    exact h
  | cons c keys ih =>
    by_cases hc : EndsField c
    · rw [getInputShown_ends hc, typedField_ends hc, fieldLine, if_pos hc]
      by_cases hend : c = 10 ∨ c = 13
      · rw [if_pos hend, if_pos hend]
        refine h.puts fun d hd => ?_
        split at hd
        · exact absurd hd List.not_mem_nil
        · exact .inr (.inl (List.mem_singleton.mp hd))
      · rw [if_neg hend, if_neg hend, endOfName, ite_self, List.append_nil]
        exact ends_some.mpr h
    · rw [getInputShown_key hc, typedField_key hc, fieldLine, if_neg hc]
      obtain ⟨kept, short⟩ := fieldKey_fits hline hlen c
      exact Ends.append (fieldEcho_shows hline hlen hsize h c) fun vga' h' => ih kept short h'

end Field

/-! ### The attempts on the screen -/

/-- A literal is drawn as it is. -/
theorem draws_literal (s : String)
    (h : ((text s).all fun c => isValidInputChar c || c = 10 || c = 9) = true) :
    Draws (text s) (text s) := by
  refine draws_plain fun c hc => ?_
  have plain := List.all_eq_true.mp h c hc
  rw [Bool.or_eq_true, Bool.or_eq_true, decide_eq_true_eq, decide_eq_true_eq, or_assoc] at plain
  exact plain.imp_left isValidInputChar_printable

section Attempts

variable {name password name' password' : List UInt8 → List UInt8}

theorem draws_nil : Draws [] [] := draws_plain fun _ hc => absurd hc List.not_mem_nil

theorem draws_newline : Draws [10] [10] :=
  draws_plain fun _ hc => .inr (.inl (List.mem_singleton.mp hc))

theorem getInputShown_draws (isPassword : Bool) {size : ℕ} (hpos : 0 < size) (hsize : size ≤ 80)
    (keys : List UInt8) :
    Draws (getInputShown isPassword size keys 0)
      (shownLine isPassword (fieldLine (size - 1) [] keys) ++
        if isPassword then [] else endOfName (typedField (size - 1) [] keys)) :=
  fun _ _ _ h => (getInputShown_shows (fun _ hc => absurd hc List.not_mem_nil) hpos hsize
    h.showsLine keys).mono fun _ h' => h'.showsText

theorem name_draws (keys : List UInt8) :
    Draws (loginGetUsernameShown usernameMaxLen keys) (nameSeen keys) := by
  have field := getInputShown_draws false (by decide : 0 < usernameMaxLen) (by decide) keys
  have plain : shownLine false (fieldLine (usernameMaxLen - 1) [] keys) = _ := List.map_id _
  rw [plain] at field
  rw [nameSeen, List.append_assoc]
  exact (draws_literal _ (by decide +kernel)).append field

theorem password_draws (keys : List UInt8) : Draws (passwordPrinted keys) (passwordSeen keys) := by
  have field := getInputShown_draws true (by decide : 0 < passwordMaxLen) (by decide) keys
  have masked : shownLine true (fieldLine (passwordMaxLen - 1) [] keys) = _ :=
    List.map_const'
  rw [masked, if_pos rfl, List.append_nil] at field
  refine ((draws_literal _ (by decide +kernel)).append field).append ?_
  cases typedField (passwordMaxLen - 1) [] keys with
  | waiting => exact draws_nil
  | returned r rest => exact draws_newline

theorem attemptText_draws (hname : ∀ keys, Draws (name keys) (name' keys))
    (hpassword : ∀ keys, Draws (password keys) (password' keys)) (keys : List UInt8) :
    Draws (attemptText name password keys) (attemptText name' password' keys) := by
  refine (hname keys).append ?_
  cases typedField (usernameMaxLen - 1) [] keys with
  | waiting => exact draws_nil
  | returned line rest =>
    cases line with
    | none => exact draws_nil
    | some line =>
      dsimp only
      split
      · exact draws_nil
      · exact hpassword rest

theorem answerText_draws (n : ℕ) (a : LoginAttempt) : Draws (answerText n a) (answerText n a) := by
  cases a with
  | cancelledName | emptyName | cancelledPassword => exact draws_literal _ (by decide +kernel)
  | entered name password =>
    rw [answerText]
    split
    · exact draws_nil
    · split
      · exact draws_literal _ (by decide +kernel)
      · exact draws_nil

theorem loginText_draws (hname : ∀ keys, Draws (name keys) (name' keys))
    (hpassword : ∀ keys, Draws (password keys) (password' keys)) (n : ℕ) (keys : List UInt8) :
    Draws (loginText name password n keys) (loginText name' password' n keys) := by
  induction n generalizing keys with
  | zero => exact draws_nil
  | succ n ih =>
    refine (attemptText_draws hname hpassword keys).append ?_
    cases loginAttempt keys with
    | waiting => exact draws_nil
    | returned a rest =>
      refine (answerText_draws n a).append ?_
      split
      · exact draws_nil
      · exact ih rest

theorem promptText_draws (hname : ∀ keys, Draws (name keys) (name' keys))
    (hpassword : ∀ keys, Draws (password keys) (password' keys)) (keys : List UInt8) :
    Draws (promptText name password keys) (promptText name' password' keys) := by
  refine (loginText_draws hname hpassword _ keys).append ?_
  cases loginOutcome maxLoginAttempts keys with
  | waiting => exact draws_nil
  | returned success rest =>
    cases success with
    | true => exact draws_literal _ (by decide +kernel)
    | false =>
      exact ((draws_literal _ (by decide +kernel)).append
        (draws_literal _ (by decide +kernel))).append (draws_literal _ (by decide +kernel))

end Attempts

/-- After any keys, whether the login waits, lets the user in or has halted, the screen shows the
attempts behind what it showed before: every name as far as it has been typed and corrected, and of
every password as many masks as it has characters. No access is outside the arrays. -/
theorem login_shows (u p : Buffer) (keys : List UInt8) {vga : Vga} {color : UInt8}
    {shown : List UInt8} (hscreen : vga.ShowsText color shown) :
    Ends (loginPromptShown u p keys) fun out =>
      Ends (out.foldlM vgaPutchar vga)
        (Vga.ShowsText · color (shown ++ promptText nameSeen passwordSeen keys)) := by
  rw [loginPrompt_shown]
  exact ends_some.mpr (promptText_draws name_draws password_draws keys vga color shown hscreen)

theorem login_shows_cleared :
    Ends (loginPromptShown (fun _ => 1) (fun _ => 1) (loginUsername.bytes ++ [10, 97, 98, 8]))
      fun out => Ends (out.foldlM vgaPutchar (clearedScreen vgaColorDefault))
        (Vga.ShowsText · vgaColorDefault ([] ++ promptText nameSeen passwordSeen
          (loginUsername.bytes ++ [10, 97, 98, 8]))) :=
  login_shows _ _ _ (clearedScreen_shows vgaColorDefault)

/-! ## What is not seen -/

/-- Two streams of keys that are the same but for the characters of a field at their start. -/
inductive SameButField : List UInt8 → List UInt8 → Prop
  | nil : SameButField [] []
  | ends {c : UInt8} (keys : List UInt8) : EndsField c → SameButField (c :: keys) (c :: keys)
  | key {c : UInt8} {keys keys' : List UInt8} : ¬ EndsField c → SameButField keys keys' →
      SameButField (c :: keys) (c :: keys')
  | char {c d : UInt8} {keys keys' : List UInt8} : isValidInputChar c = true →
      isValidInputChar d = true → SameButField keys keys' → SameButField (c :: keys) (d :: keys')

/-- The password that the keys enter is the right one. -/
def RightPassword (keys : List UInt8) : Prop :=
  ∃ rest, typedField (passwordMaxLen - 1) [] keys = .returned (some loginPassword.bytes) rest

section Hidden

variable {keys keys' rest line line' : List UInt8} {c d : UInt8} {room size : ℕ}

/-- The mask is the same for every character. -/
theorem fieldEcho_char (hc : isValidInputChar c = true) (hd : isValidInputChar d = true)
    (size pos : ℕ) : fieldEcho true size pos c = fieldEcho true size pos d := by
  unfold fieldEcho
  rw [(isValidInputChar_plain hc).2, (isValidInputChar_plain hd).2, hc, hd]
  rfl

theorem length_fieldKey_char (hc : isValidInputChar c = true) (hd : isValidInputChar d = true)
    (hlen : line.length = line'.length) :
    (fieldKey room line c).length = (fieldKey room line' d).length := by
  rw [length_fieldKey, length_fieldKey, (isValidInputChar_plain hc).2,
    (isValidInputChar_plain hd).2, hc, hd, hlen]

theorem length_fieldKey_key (hlen : line.length = line'.length) (c : UInt8) :
    (fieldKey room line c).length = (fieldKey room line' c).length := by
  rw [length_fieldKey, length_fieldKey, hlen]

theorem SameButField.shown (h : SameButField keys keys') (hlen : line.length = line'.length) :
    getInputShown true size keys line.length = getInputShown true size keys' line'.length := by
  induction h generalizing line line' with
  | nil => rfl
  | ends keys hc => rw [getInputShown_ends hc, getInputShown_ends hc]
  | @key c keys keys' hc _ ih =>
    rw [getInputShown_key hc, getInputShown_key hc, ih (length_fieldKey_key hlen c), hlen]
  | char hc hd _ ih =>
    rw [getInputShown_key (isValidInputChar_plain hc).1,
      getInputShown_key (isValidInputChar_plain hd).1, ih (length_fieldKey_char hc hd hlen), hlen,
      fieldEcho_char hc hd]

/-- Fields that come to the same, whatever their lines are. -/
inductive SameField : Input (Option (List UInt8)) → Input (Option (List UInt8)) → Prop
  | waiting : SameField .waiting .waiting
  | cancelled (rest : List UInt8) : SameField (.returned none rest) (.returned none rest)
  | line (line line' rest : List UInt8) :
      SameField (.returned (some line) rest) (.returned (some line') rest)

theorem SameButField.field (h : SameButField keys keys') (hlen : line.length = line'.length) :
    SameField (typedField room line keys) (typedField room line' keys') := by
  induction h generalizing line line' with
  | nil => exact .waiting
  | ends keys hc =>
    rw [typedField_ends hc, typedField_ends hc]
    split
    · exact .line line line' keys
    · exact .cancelled keys
  | @key c keys keys' hc _ ih =>
    rw [typedField_key hc, typedField_key hc]
    exact ih (length_fieldKey_key hlen c)
  | char hc hd _ ih =>
    rw [typedField_key (isValidInputChar_plain hc).1, typedField_key (isValidInputChar_plain hd).1]
    exact ih (length_fieldKey_char hc hd hlen)

/-! ### More keys -/

theorem typedField_append {r : Option (List UInt8)}
    (h : typedField room line keys = .returned r rest) (more : List UInt8) :
    typedField room line (keys ++ more) = .returned r (rest ++ more) := by
  induction keys generalizing line with
  | nil => cases h
  | cons c keys ih =>
    by_cases hc : EndsField c
    · rw [typedField_ends hc] at h
      obtain ⟨rfl, rfl⟩ := Input.returned.inj h
      exact typedField_ends hc line (keys ++ more)
    · rw [typedField_key hc] at h
      exact (typedField_key hc line (keys ++ more)).trans (ih h)

/-- Keys behind a field are not shown in it. -/
theorem getInputShown_append {isPassword : Bool} {r : Option (List UInt8)}
    (h : typedField (size - 1) line keys = .returned r rest) (more : List UInt8) :
    getInputShown isPassword size (keys ++ more) line.length =
      getInputShown isPassword size keys line.length := by
  induction keys generalizing line with
  | nil => cases h
  | cons c keys ih =>
    rw [List.cons_append]
    by_cases hc : EndsField c
    · rw [getInputShown_ends hc, getInputShown_ends hc]
    · rw [typedField_key hc] at h
      rw [getInputShown_key hc, getInputShown_key hc, ih h]

/-! ### The attempts -/

theorem nameShown_append {r : Option (List UInt8)}
    (h : typedField (usernameMaxLen - 1) [] keys = .returned r rest) (more : List UInt8) :
    loginGetUsernameShown usernameMaxLen (keys ++ more) =
      loginGetUsernameShown usernameMaxLen keys :=
  congrArg (text "login: " ++ ·) (getInputShown_append h more)

theorem passwordPrinted_append {r : Option (List UInt8)}
    (h : typedField (passwordMaxLen - 1) [] keys = .returned r rest) (more : List UInt8) :
    passwordPrinted (keys ++ more) = passwordPrinted keys := by
  have shown : getInputShown true passwordMaxLen (keys ++ more) 0 = _ := getInputShown_append h more
  rw [passwordPrinted, passwordPrinted, shown, typedField_append h, h]
  rfl

/-- What an attempt is and what it prints does not depend on the keys behind it. -/
theorem loginAttempt_append {a : LoginAttempt} (h : loginAttempt keys = .returned a rest)
    (more : List UInt8) :
    loginAttempt (keys ++ more) = .returned a (rest ++ more) ∧
      attemptText (loginGetUsernameShown usernameMaxLen) passwordPrinted (keys ++ more) =
        attemptText (loginGetUsernameShown usernameMaxLen) passwordPrinted keys := by
  unfold loginAttempt attemptText at *
  cases hname : typedField (usernameMaxLen - 1) [] keys with
  | waiting =>
    rw [hname] at h
    cases h
  | returned line mid =>
    rw [hname] at h
    rw [typedField_append hname, nameShown_append hname]
    cases line with
    | none =>
      obtain ⟨rfl, rfl⟩ := Input.returned.inj h
      exact ⟨rfl, rfl⟩
    | some line =>
      dsimp only at h ⊢
      by_cases hline : line = []
      · rw [if_pos hline] at h
        obtain ⟨rfl, rfl⟩ := Input.returned.inj h
        rw [if_pos hline, if_pos hline, if_pos hline]
        exact ⟨rfl, rfl⟩
      · rw [if_neg hline] at h
        rw [if_neg hline, if_neg hline, if_neg hline]
        cases hword : typedField (passwordMaxLen - 1) [] mid with
        | waiting =>
          rw [hword] at h
          cases h
        | returned word rest' =>
          rw [hword] at h
          rw [typedField_append hword, passwordPrinted_append hword]
          cases word with
          | none | some word =>
            obtain ⟨rfl, rfl⟩ := Input.returned.inj h
            exact ⟨rfl, rfl⟩

/-- What is printed for a login, and the answer. -/
def loginSeen (n : ℕ) (keys : List UInt8) : List UInt8 × Input Bool :=
  (loginText (loginGetUsernameShown usernameMaxLen) passwordPrinted n keys, loginOutcome n keys)

/-- Behind attempts that fail the login goes on as from its start. -/
theorem FailedLogins.seen {k : ℕ} {front mid : List UInt8} (h : FailedLogins k front mid) (n : ℕ)
    {more more' : List UInt8} (hmore : loginSeen n (mid ++ more) = loginSeen n (mid ++ more')) :
    loginSeen (n + k) (front ++ more) = loginSeen (n + k) (front ++ more') := by
  induction h with
  | none keys => exact hmore
  | @next k keys mid rest a hattempt hwrong _ ih =>
    have step : ∀ more, loginSeen (n + (k + 1)) (keys ++ more) =
        (attemptText (loginGetUsernameShown usernameMaxLen) passwordPrinted keys ++
          (answerText (n + k) a ++ (loginSeen (n + k) (mid ++ more)).1),
          (loginSeen (n + k) (mid ++ more)).2) := by
      intro more
      obtain ⟨again, shown⟩ := loginAttempt_append hattempt more
      rw [loginSeen, ← Nat.add_assoc, loginText, loginOutcome, shown, again]
      dsimp only
      rw [if_neg hwrong, if_neg hwrong]
      rfl
    rw [step, step, ih hmore]

/-- A password that is typed behind its prompt. -/
theorem SameButField.seen {mid name : List UInt8} (h : SameButField keys keys')
    (hname : typedField (usernameMaxLen - 1) [] mid = .returned (some name) []) (hne : name ≠ [])
    (hright : RightPassword keys ↔ RightPassword keys') (n : ℕ) :
    loginSeen (n + 1) (mid ++ keys) = loginSeen (n + 1) (mid ++ keys') := by
  have empty : ([] : List UInt8).length = ([] : List UInt8).length := rfl
  have shown : getInputShown true passwordMaxLen keys 0 = _ := h.shown empty
  have field : SameField (typedField (passwordMaxLen - 1) [] keys)
      (typedField (passwordMaxLen - 1) [] keys') :=
    h.field empty
  unfold loginSeen
  rw [loginText, loginText, loginOutcome, loginOutcome]
  unfold attemptText loginAttempt
  rw [typedField_append hname, typedField_append hname, nameShown_append hname,
    nameShown_append hname]
  dsimp only [List.nil_append]
  rw [if_neg hne, if_neg hne, if_neg hne, if_neg hne]
  unfold passwordPrinted
  unfold RightPassword at hright
  rw [shown]
  generalize typedField (passwordMaxLen - 1) [] keys = x at *
  generalize typedField (passwordMaxLen - 1) [] keys' = y at *
  cases field with
  | waiting => rfl
  | cancelled rest => rfl
  | line word word' rest =>
    have entered : ∀ word : List UInt8, (∃ r, Input.returned (some word) rest =
        .returned (some loginPassword.bytes) r) ↔ word = loginPassword.bytes := by
      intro word
      constructor
      · rintro ⟨r, h⟩
        exact Option.some.inj (Input.returned.inj h).1
      · rintro rfl
        exact ⟨rest, rfl⟩
    have answer : LoginAttempt.entered name word = rightLogin ↔
        LoginAttempt.entered name word' = rightLogin := by
      rw [rightLogin, LoginAttempt.entered.injEq, LoginAttempt.entered.injEq, ← entered word,
        ← entered word', hright]
    dsimp only
    rw [answerText, answerText, if_congr answer rfl rfl, if_congr answer rfl rfl,
      if_congr answer rfl rfl]
    rfl

end Hidden

/-- Two passwords that are typed with the same keys but for their characters print the same, and so
does all that comes behind them, unless one is right and the other is not. -/
theorem login_hides (u p : Buffer) {front mid name : List UInt8} {k : ℕ} (hk : k < maxLoginAttempts)
    (hfailed : FailedLogins k front mid)
    (hname : typedField (usernameMaxLen - 1) [] mid = .returned (some name) []) (hne : name ≠ [])
    {keys keys' : List UInt8} (hkeys : SameButField keys keys')
    (hright : RightPassword keys ↔ RightPassword keys') :
    loginPromptShown u p (front ++ keys) = loginPromptShown u p (front ++ keys') := by
  obtain ⟨n, hn⟩ : ∃ n, maxLoginAttempts = n + 1 + k := ⟨maxLoginAttempts - 1 - k, by omega⟩
  have seen := hfailed.seen (n + 1) (hkeys.seen hname hne hright n)
  rw [← hn] at seen
  rw [loginPrompt_shown, loginPrompt_shown, promptText, promptText]
  obtain ⟨text, outcome⟩ := Prod.mk.inj seen
  rw [text, outcome]

/-- A wrong attempt with an empty password, and then "ab" and "xy" with a backspace between. -/
theorem login_hides_two :
    loginPromptShown (fun _ => 0) (fun _ => 0) ([97, 10, 10, 98, 10] ++ [97, 8, 98, 10]) =
      loginPromptShown (fun _ => 0) (fun _ => 0) ([97, 10, 10, 98, 10] ++ [120, 8, 121, 10]) := by
  have attempt : loginAttempt [97, 10, 10, 98, 10] = .returned (.entered [97] []) [98, 10] := rfl
  have keys : SameButField [97, 8, 98, 10] [120, 8, 121, 10] :=
    .char rfl rfl (.key (by decide) (.char rfl rfl (.ends [] (by decide))))
  have name : typedField (usernameMaxLen - 1) [] [98, 10] = .returned (some [98]) [] := rfl
  refine login_hides _ _ (by decide) (.next attempt (by decide) (.none _)) name (by decide) keys
    (iff_of_false ?_ ?_)
  all_goals
    rintro ⟨rest, h⟩
    cases h

end Unics
