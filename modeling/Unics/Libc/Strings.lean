import Unics.Libc.String

/-!
# Tokens, substrings and copies
-/

namespace Unics

open Unics.Lib

/-!
## Taking a string apart

`strchr` and `strtok` of `lib/libc/string.c`. A pointer into an array is a place in it. The pointer
that `strtok` keeps from call to call is an argument, and goes into what the call comes to.
-/

/-- `while (test(*p)) p++;` -/
def skipWhile (size : Nat) (buf : Buffer) (test : UInt8 → Bool) (p : Nat) : Option Nat :=
  if p < size then
    if test (buf p) then skipWhile size buf test (p + 1) else some p
  else none
termination_by size - p

/-- `strchr`: how far the character is from the start. The terminator can be found too. -/
def strchrLoop : List UInt8 → UInt8 → Nat → Option Nat
  | [], c, i => if c = 0 then some i else none
  | d :: s, c, i => if d = c then some i else strchrLoop s c (i + 1)

def strchr (s : CString) (c : UInt8) : Option Nat := strchrLoop s.bytes c 0

/-- What a call of `strtok` comes to. -/
structure Strtok where
  buf : Buffer
  /-- `last_token`. -/
  last : Option Nat
  token : Option Nat

/-- `strtok` from `last_token` on, which is not null. -/
def strtokFrom (size : Nat) (buf : Buffer) (last : Nat) (delim : CString) : Option Strtok := do
  let c ← loadChar size buf last
  if c = 0 then some { buf, last := some last, token := none }
  else do
    let start ← skipWhile size buf (fun c => c ≠ 0 && (strchr delim c).isSome) last
    let c ← loadChar size buf start
    if c = 0 then some { buf, last := none, token := none }
    else do
      let stop ← skipWhile size buf (fun c => c ≠ 0 && (strchr delim c).isNone) start
      let c ← loadChar size buf stop
      if c = 0 then some { buf, last := none, token := some start }
      else do
        let buf ← storeChar size buf stop 0
        some { buf, last := some (stop + 1), token := some start }

/-- `strtok`. -/
def strtok (size : Nat) (buf : Buffer) (last str : Option Nat) (delim : CString) :
    Option Strtok :=
  match str.or last with
  | none => some { buf, last := none, token := none }
  | some last => strtokFrom size buf last delim

/-!
## Searching a string

`strlen`, `strncmp` and `strstr` of `lib/libc/string.c`, on arrays of given sizes. Accesses are
checked, so a read behind the array answers `none`. A pointer into an array is a place in it.
-/

/-- `strlen` of the string at `p`. -/
def strlen (size : Nat) (buf : Buffer) (p : Nat) : Option Nat := do
  let s ← skipWhile size buf (· ≠ 0) p
  some (s - p)

section Strncmp

variable (size1 : Nat) (buf1 : Buffer) (size2 : Nat) (buf2 : Buffer)

/-- `*(const unsigned char *)s1 - *(const unsigned char *)s2`. -/
def charDifference (s1 s2 : Nat) : Option Int := do
  let c ← loadChar size1 buf1 s1
  let d ← loadChar size2 buf2 s2
  some (c.toNat - d.toNat)

/-- The loop of `strncmp` and what comes behind it, for a count that `--n` takes to `n`. -/
def strncmpLoop : Nat → Nat → Nat → Option Int
  | 0, s1, s2 => charDifference size1 buf1 size2 buf2 s1 s2
  | n + 1, s1, s2 => do
    let c ← loadChar size1 buf1 s1
    if c = 0 then charDifference size1 buf1 size2 buf2 s1 s2
    else do
      let d ← loadChar size2 buf2 s2
      if c = d then strncmpLoop n (s1 + 1) (s2 + 1)
      else charDifference size1 buf1 size2 buf2 s1 s2

/-- `strncmp`. -/
def strncmp (s1 s2 n : Nat) : Option Int :=
  match n with
  | 0 => some 0
  | n + 1 => strncmpLoop size1 buf1 size2 buf2 n s1 s2

end Strncmp

/-- The loop of `strstr`. The answer is a pointer into `haystack`, or null. -/
def strstrLoop (hsize : Nat) (haystack : Buffer) (nsize : Nat) (needle : Buffer) (needleLen : Nat)
    (p : Nat) : Option (Option Nat) :=
  if _h : p < hsize then
    if haystack p = 0 then some none
    else do
      let d ← loadChar nsize needle 0
      if haystack p = d then do
        let order ← strncmp hsize haystack nsize needle p 0 needleLen
        if order = 0 then some (some p)
        else strstrLoop hsize haystack nsize needle needleLen (p + 1)
      else strstrLoop hsize haystack nsize needle needleLen (p + 1)
  else none
termination_by hsize - p

def strstr (hsize : Nat) (haystack : Buffer) (nsize : Nat) (needle : Buffer) :
    Option (Option Nat) := do
  let needleLen ← strlen nsize needle 0
  if needleLen = 0 then some (some 0)
  else strstrLoop hsize haystack nsize needle needleLen 0

/-!
## Copying into arrays

`strncat` and `memmove` of `lib/libc/string.c`, on arrays of given sizes whose accesses are checked.
`strncat` is for two arrays, and `memmove` for two places in one.
-/

/-- `while (n-- && (*dest++ = *src++));` from the two places on. The answer is the array and the
place where the loop stops: behind a terminator that was copied. -/
def strncatLoop (dsize ssize : Nat) (src : Buffer) :
    Nat → Nat → Nat → Buffer → Option (Buffer × Nat)
  | 0, d, _, dest => some (dest, d)
  | n + 1, d, s, dest => do
    let c ← loadChar ssize src s
    let dest ← storeChar dsize dest d c
    if c ≠ 0 then strncatLoop dsize ssize src n (d + 1) (s + 1) dest else some (dest, d + 1)

/-- `strncat`, for arrays of `dsize` and of `ssize` bytes. -/
def strncat (dsize ssize : Nat) (dest src : Buffer) (n : Nat) : Option Buffer := do
  let d ← skipWhile dsize dest (· ≠ 0) 0
  let (dest, d) ← strncatLoop dsize ssize src n d 0 dest
  storeChar dsize dest d 0

/-- `while (n--) *d++ = *s++;` -/
def copyUp (size : Nat) : Nat → Nat → Nat → Buffer → Option Buffer
  | 0, _, _, buf => some buf
  | n + 1, d, s, buf => do
    let c ← loadChar size buf s
    let buf ← storeChar size buf d c
    copyUp size n (d + 1) (s + 1) buf

/-- `while (n--) *--d = *--s;` -/
def copyDown (size : Nat) : Nat → Nat → Nat → Buffer → Option Buffer
  | 0, _, _, buf => some buf
  | n + 1, d, s, buf => do
    let c ← loadChar size buf (s - 1)
    let buf ← storeChar size buf (d - 1) c
    copyDown size n (d - 1) (s - 1) buf

/-- `memmove`, for two places in one array. -/
def memmove (size : Nat) (buf : Buffer) (dest src n : Nat) : Option Buffer :=
  if dest < src then copyUp size n dest src buf else copyDown size n (dest + n) (src + n) buf

end Unics
