import Unics.Libc.String

/-!
# The login

`usr/sbin/login/login.c`. The characters that `kb_getchar` returns are a list that may end, and a
function that needs one more then waits. Stores to the two buffers are checked: one outside answers
`none`. What is shown on the screen is in `Sbin/LoginScreen`. The delay after a failed attempt is
left out.
-/

namespace Unics

def maxLoginAttempts : Nat := 3

abbrev usernameMaxLen : Nat := 32

abbrev passwordMaxLen : Nat := 32

/-- `"root"` -/
def loginUsername : CString := ⟨[114, 111, 111, 116], by decide⟩

/-- `"welcome"` -/
def loginPassword : CString := ⟨[119, 101, 108, 99, 111, 109, 101], by decide⟩

/-- What a function that reads keys comes to: it waits for another key, or has returned and left the
rest of them. -/
inductive Input (α : Type) where
  | waiting
  | returned (a : α) (rest : List UInt8)

/-- `secure_clear_buffer`. -/
def secureClearBuffer (size : Nat) (buffer : Buffer) : Option Buffer :=
  (List.range' 0 size).foldlM (fun buffer i => storeChar size buffer i 0) buffer

def isValidInputChar (c : UInt8) : Bool := 32 ≤ c && c ≤ 126 && c != 0

/-- The loop of `get_input_secure`. -/
def getInputLoop (size : Nat) : List UInt8 → Buffer → Nat → Option (Input (Int × Buffer))
  | [], _, _ => some .waiting
  | c :: keys, buffer, pos =>
    if c = 10 ∨ c = 13 then do
      let buffer ← storeChar size buffer pos 0
      some (.returned (0, buffer) keys)
    else if c = 8 ∨ c = 127 then
      if 0 < pos then do
        let buffer ← storeChar size buffer (pos - 1) 0
        getInputLoop size keys buffer (pos - 1)
      else getInputLoop size keys buffer pos
    else if c = 3 ∨ c = 27 then do
      let buffer ← secureClearBuffer size buffer
      some (.returned (-2, buffer) keys)
    else if pos < size - 1 ∧ isValidInputChar c then do
      let buffer ← storeChar size buffer pos c
      getInputLoop size keys buffer (pos + 1)
    else getInputLoop size keys buffer pos

/-- `get_input_secure`, of a buffer of `size` bytes that is there. -/
def getInputSecure (size : Nat) (buffer : Buffer) (keys : List UInt8) :
    Option (Input (Int × Buffer)) :=
  if size = 0 then some (.returned (-1, buffer) keys)
  else do
    let buffer ← secureClearBuffer size buffer
    getInputLoop size keys buffer 0

/-- `login_get_username`: whether it returns the buffer and not null, and what the buffer holds. -/
def loginGetUsername (size : Nat) (buffer : Buffer) (keys : List UInt8) :
    Option (Input (Bool × Buffer)) :=
  if size = 0 then some (.returned (false, buffer) keys)
  else do
    match ← getInputSecure size buffer keys with
    | .waiting => some .waiting
    | .returned (result, buffer) keys =>
      if result ≠ 0 then do
        let buffer ← secureClearBuffer size buffer
        some (.returned (false, buffer) keys)
      else do
        let name ← CString.ofBuffer size buffer
        if name.strlen = 0 then some (.returned (false, buffer) keys)
        else some (.returned (true, buffer) keys)

def loginGetPassword (size : Nat) (buffer : Buffer) (keys : List UInt8) :
    Option (Input (Bool × Buffer)) :=
  if size = 0 then some (.returned (false, buffer) keys)
  else do
    match ← getInputSecure size buffer keys with
    | .waiting => some .waiting
    | .returned (result, buffer) keys =>
      if result ≠ 0 then do
        let buffer ← secureClearBuffer size buffer
        some (.returned (false, buffer) keys)
      else some (.returned (true, buffer) keys)

/-- The loop of `login_authenticate`, with the attempts that are left: `auth_success` and the two
buffers. -/
def loginLoop : Nat → Buffer → Buffer → List UInt8 → Option (Input (Bool × Buffer × Buffer))
  | 0, username, password, keys => some (.returned (false, username, password) keys)
  | attempts + 1, username, password, keys => do
    let username ← secureClearBuffer usernameMaxLen username
    let password ← secureClearBuffer passwordMaxLen password
    match ← loginGetUsername usernameMaxLen username keys with
    | .waiting => some .waiting
    | .returned (false, username) keys => loginLoop attempts username password keys
    | .returned (true, username) keys =>
      match ← loginGetPassword passwordMaxLen password keys with
      | .waiting => some .waiting
      | .returned (false, password) keys => loginLoop attempts username password keys
      | .returned (true, password) keys => do
        let name ← CString.ofBuffer usernameMaxLen username
        let word ← CString.ofBuffer passwordMaxLen password
        if strcmp name loginUsername = 0 ∧ strcmp word loginPassword = 0 then
          some (.returned (true, username, password) keys)
        else loginLoop attempts username password keys

/-- `login_authenticate`, with whatever its two arrays hold when it is called. -/
def loginAuthenticate (username password : Buffer) (keys : List UInt8) :
    Option (Input (Bool × Buffer × Buffer)) := do
  match ← loginLoop maxLoginAttempts username password keys with
  | .waiting => some .waiting
  | .returned (authSuccess, username, password) keys => do
    let username ← secureClearBuffer usernameMaxLen username
    let password ← secureClearBuffer passwordMaxLen password
    some (.returned (authSuccess, username, password) keys)

end Unics
