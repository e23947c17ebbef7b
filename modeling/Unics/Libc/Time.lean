import Unics.Lib.Turns
import Unics.Libc.Numbers

/-!
# Time

`lib/libc/time.c`. A `time_t` is a signed number of 64 bits; the fields of a `struct tm` are `int`s
and `long`s of 32, whose arithmetic wraps. `delay` counts in a `uint32_t` up to a bound of 64 bits.
-/

namespace Unics

open Unics.Lib

structure Tm where
  tmSec : BitVec 32
  tmMin : BitVec 32
  tmHour : BitVec 32
  tmMday : BitVec 32
  tmMon : BitVec 32
  tmYear : BitVec 32
  tmWday : BitVec 32
  tmYday : BitVec 32
  tmIsdst : BitVec 32
  tmNsec : BitVec 32
  deriving DecidableEq

/-- `time`: the static clock after the call, which is also the answer. -/
def time (currentTime : BitVec 64) : BitVec 64 := currentTime + 1

/-- The conversion of `gmtime`. Each field is computed in a `time_t` and stored in an `int`. -/
def breakDown (t : BitVec 64) : Tm where
  tmSec := (t.srem 60).setWidth 32
  tmMin := ((t.sdiv 60).srem 60).setWidth 32
  tmHour := ((t.sdiv 3600).srem 24).setWidth 32
  tmMday := ((t.sdiv 86400).srem 31 + 1).setWidth 32
  tmMon := ((t.sdiv 2678400).srem 12).setWidth 32
  tmYear := (t.sdiv 32140800 + 70).setWidth 32
  tmWday := ((t.sdiv 86400).srem 7).setWidth 32
  tmYday := ((t.sdiv 86400).srem 365).setWidth 32
  tmIsdst := -1
  tmNsec := 0

/-- `gmtime`: the clock and the result. The clock is asked when `timer` is null. -/
def gmtime (currentTime : BitVec 64) : Option (BitVec 64) → BitVec 64 × Tm
  | some t => (currentTime, breakDown t)
  | none => (time currentTime, breakDown (time currentTime))

/-- `mktime`: the sum is an `int`. -/
def mktime (tm : Tm) : BitVec 64 :=
  (tm.tmSec + tm.tmMin * 60 + tm.tmHour * 3600 + tm.tmMday * 86400 + tm.tmMon * 2678400 +
    (tm.tmYear - 70) * 32140800).signExtend 64

/-! ## Text -/

/-- `"Sun"`, `"Mon"` and so on. -/
def wdayNames : List (List UInt8) :=
  [[83, 117, 110], [77, 111, 110], [84, 117, 101], [87, 101, 100], [84, 104, 117], [70, 114, 105],
    [83, 97, 116]]

/-- `"Jan"`, `"Feb"` and so on. -/
def monNames : List (List UInt8) :=
  [[74, 97, 110], [70, 101, 98], [77, 97, 114], [65, 112, 114], [77, 97, 121], [74, 117, 110],
    [74, 117, 108], [65, 117, 103], [83, 101, 112], [79, 99, 116], [78, 111, 118], [68, 101, 99]]

/-- A table of names at an `int`: `none` outside the table. -/
def nameAt (names : List (List UInt8)) (i : BitVec 32) : Option (List UInt8) :=
  if 0 ≤ i.toInt then names[i.toNat]? else none

/-- `"%.3s %.3s%3d %.2d:%.2d:%.2d %d\n"` -/
def asctimeFormat : CString where
  bytes := [37, 46, 51, 115, 32, 37, 46, 51, 115, 37, 51, 100, 32, 37, 46, 50, 100, 58, 37, 46, 50,
    100, 58, 37, 46, 50, 100, 32, 37, 100, 10]
  noNul := by decide

/-- `asctime`: what is in the buffer, `none` where a lookup leaves its table. -/
def asctime (tm : Tm) : Option Printed := do
  let wday ← nameAt wdayNames tm.tmWday
  let mon ← nameAt monNames tm.tmMon
  vsnprintf 26 asctimeFormat
    [.str (some (CString.ofBytes wday)), .str (some (CString.ofBytes mon)), .int tm.tmMday,
      .int tm.tmHour, .int tm.tmMin, .int tm.tmSec, .int (1900 + tm.tmYear)]

def ctime (currentTime : BitVec 64) (timer : Option (BitVec 64)) : Option Printed :=
  asctime (gmtime currentTime timer).2

/-! ## Sleeping -/

structure Timespec where
  tvSec : BitVec 64
  tvNsec : BitVec 32
  deriving DecidableEq

/-- A turn of the loop of `delay`: `none` when the loop is over. -/
def delayTurn (ms : BitVec 64) (i : BitVec 32) : Option (BitVec 32) :=
  if i.setWidth 64 < ms * 10000 then some (i + 1) else none

/-- The milliseconds that `nanosleep` passes on, in 32 bits. -/
def nanosleepMs (req : Timespec) : BitVec 32 :=
  (req.tvSec * 1000).setWidth 32 + req.tvNsec.sdiv 1000000

/-- `nanosleep` returns after so many turns of the loop, with this value and this at `rem`. -/
def NanosleepReturns (req : Timespec) (rem : Option Timespec) (n : ℕ)
    (ret : Int × Option Timespec) : Prop :=
  EndsAfter (delayTurn ((nanosleepMs req).setWidth 64)) n 0 ∧
    ret = (0, rem.map fun _ => { tvSec := 0, tvNsec := 0 })

end Unics
