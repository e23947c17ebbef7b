import Unics.Bin.Files
import Unics.Sbin.Login

/-!
# What the login shows

`usr/sbin/login/login.c` again, with what its functions pass to `vga_putchar`, one after the other;
`printf` passes its text there too. What they do beside is in `Sbin/Login`. The delay after a failed
attempt and the cursor that is switched on and off are left out.
-/

namespace Unics

/-- `PASSWORD_MASK`. -/
def passwordMask : UInt8 := 42

/-- The loop of `get_input_secure`. -/
def getInputShown (isPassword : Bool) (size : Nat) : List UInt8 → Nat → List UInt8
  | [], _ => []
  | c :: keys, pos =>
    if c = 10 ∨ c = 13 then if isPassword then [] else [10]
    else if c = 8 ∨ c = 127 then
      if 0 < pos then [8, 32, 8] ++ getInputShown isPassword size keys (pos - 1)
      else getInputShown isPassword size keys pos
    else if c = 3 ∨ c = 27 then []
    else if pos < size - 1 ∧ isValidInputChar c then
      (if isPassword then passwordMask else c) :: getInputShown isPassword size keys (pos + 1)
    else getInputShown isPassword size keys pos

/-- `login_get_username`, of a buffer that is there. -/
def loginGetUsernameShown (size : Nat) (keys : List UInt8) : List UInt8 :=
  text "login: " ++ getInputShown false size keys 0

/-- `login_get_password`, of a buffer that is there. It adds a newline when the input has ended. -/
def loginGetPasswordShown (size : Nat) (buffer : Buffer) (keys : List UInt8) :
    Option (List UInt8) := do
  let shown := text "password: " ++ getInputShown true size keys 0
  match ← getInputSecure size buffer keys with
  | .waiting => some shown
  | .returned _ _ => some (shown ++ text "\n")

/-- The loop of `login_authenticate`, with the attempts that are left. -/
def loginLoopShown : Nat → Buffer → Buffer → List UInt8 → Option (List UInt8)
  | 0, _, _, _ => some []
  | attempts + 1, username, password, keys => do
    let username ← secureClearBuffer usernameMaxLen username
    let password ← secureClearBuffer passwordMaxLen password
    let asked := loginGetUsernameShown usernameMaxLen keys
    match ← loginGetUsername usernameMaxLen username keys with
    | .waiting => some asked
    | .returned (false, username) keys => do
      let shown ← loginLoopShown attempts username password keys
      some (asked ++ text "Invalid username input\n" ++ shown)
    | .returned (true, username) keys => do
      let asked := asked ++ (← loginGetPasswordShown passwordMaxLen password keys)
      match ← loginGetPassword passwordMaxLen password keys with
      | .waiting => some asked
      | .returned (false, password) keys => do
        let shown ← loginLoopShown attempts username password keys
        some (asked ++ text "Invalid password input\n" ++ shown)
      | .returned (true, password) keys => do
        let name ← CString.ofBuffer usernameMaxLen username
        let word ← CString.ofBuffer passwordMaxLen password
        if strcmp name loginUsername = 0 ∧ strcmp word loginPassword = 0 then some asked
        else do
          let shown ← loginLoopShown attempts username password keys
          some (asked ++ (if 0 < attempts then text "Login incorrect\n" else []) ++ shown)

/-- `login_prompt`, which halts when the login is refused. -/
def loginPromptShown (username password : Buffer) (keys : List UInt8) : Option (List UInt8) := do
  let shown ← loginLoopShown maxLoginAttempts username password keys
  match ← loginAuthenticate username password keys with
  | .waiting => some shown
  | .returned (true, _) _ => some (shown ++ text "Login successful. Welcome!\n")
  | .returned (false, _) _ =>
    some (shown ++ text "Maximum login attempts reached.\n" ++ text "System access denied.\n" ++
      text "System halted. Please restart.\n")

end Unics
