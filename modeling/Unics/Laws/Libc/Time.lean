import Unics.Lib.Words
import Unics.Libc.Time

/-!
# Broken-down time

A C division cuts towards zero, and its remainder has the sign of the dividend. The parts that
`gmtime` breaks a time into add up to it, whatever its sign, so that `mktime` is off by the day that
`tm_mday` starts from. They are in range for a time that is not negative, and for a negative one
only where no remainder is left.
-/

namespace Unics

open Unics.Lib

/-! ## Division towards zero -/

/-- Two divisions are one. -/
theorem tdiv_tdiv (x : Int) (a b : ℕ) : (x.tdiv a).tdiv b = x.tdiv (a * b : ℕ) := by
  have natural (n : ℕ) : ((n : Int).tdiv a).tdiv b = (n : Int).tdiv (a * b : ℕ) := by
    rw [← Int.ofNat_tdiv, ← Int.ofNat_tdiv, ← Int.ofNat_tdiv, Nat.div_div_eq_div_mul]
  rcases Int.natAbs_eq x with h | h
  · rw [h]
    exact natural x.natAbs
  · rw [h, Int.neg_tdiv, Int.neg_tdiv, Int.neg_tdiv, natural]

/-- The remainder of a negative number is not negative only if there is none. -/
theorem tmod_nonneg_iff {x : Int} (hx : x ≤ 0) (m : Int) : 0 ≤ x.tmod m ↔ m ∣ x := by
  have opposite := Int.tmod_nonneg m (Int.neg_nonneg_of_nonpos hx)
  rw [Int.neg_tmod] at opposite
  constructor
  · intro h
    exact Int.dvd_of_tmod_eq_zero (by omega)
  · intro h
    exact Int.le_of_eq (Int.tmod_eq_zero_of_dvd h).symm

section Words

variable {t m k : BitVec 64}

theorem toInt_quot (hk : 1 < k.toInt) : (t.sdiv k).toInt = t.toInt.tdiv k.toInt := by
  refine BitVec.toInt_sdiv_of_ne_or_ne t k (.inr ?_)
  rintro rfl
  exact absurd hk (by decide)

/-- A number that fits in an `int` goes into one as it is. -/
theorem toInt_toInt32 (low : -2 ^ 31 ≤ t.toInt) (high : t.toInt < 2 ^ 31) :
    (t.setWidth 32).toInt = t.toInt := by
  have dvd : 2 ^ 32 ∣ 2 ^ 64 := by decide
  rw [BitVec.toInt_setWidth, ← Int.bmod_bmod_of_dvd dvd, ← BitVec.toInt_eq_toNat_bmod]
  exact Int.bmod_eq_of_le low high

theorem toInt_rem (pos : 0 < m.toInt) (fits : m.toInt ≤ 2 ^ 31) :
    ((t.srem m).setWidth 32).toInt = t.toInt.tmod m.toInt := by
  have low := Int.lt_tmod_of_pos t.toInt pos
  have high := Int.tmod_lt_of_pos t.toInt pos
  rw [toInt_toInt32, BitVec.toInt_srem]
  all_goals
    rw [BitVec.toInt_srem]
    omega

theorem toInt_part (hk : 1 < k.toInt) (pos : 0 < m.toInt) (fits : m.toInt ≤ 2 ^ 31) :
    (((t.sdiv k).srem m).setWidth 32).toInt = (t.toInt.tdiv k.toInt).tmod m.toInt := by
  rw [toInt_rem pos fits, toInt_quot hk]

end Words

/-! ## The fields -/

section Fields

variable (t : BitVec 64)

theorem tmSec_toInt : (breakDown t).tmSec.toInt = t.toInt.tmod 60 :=
  toInt_rem (by decide) (by decide)

theorem tmMin_toInt : (breakDown t).tmMin.toInt = (t.toInt.tdiv 60).tmod 60 :=
  toInt_part (by decide) (by decide) (by decide)

theorem tmHour_toInt : (breakDown t).tmHour.toInt = (t.toInt.tdiv 3600).tmod 24 :=
  toInt_part (by decide) (by decide) (by decide)

theorem tmMday_toInt : (breakDown t).tmMday.toInt = (t.toInt.tdiv 86400).tmod 31 + 1 := by
  have low := Int.lt_tmod_of_pos (t.toInt.tdiv 86400) (b := 31) (by decide)
  have high := Int.tmod_lt_of_pos (t.toInt.tdiv 86400) (b := 31) (by decide)
  have day : ((t.sdiv 86400).srem 31).toInt = (t.toInt.tdiv 86400).tmod 31 := by
    rw [BitVec.toInt_srem, toInt_quot (by decide)]
    rfl
  have next : ((t.sdiv 86400).srem 31 + 1).toInt = (t.toInt.tdiv 86400).tmod 31 + 1 := by
    have one : (1 : BitVec 64).toInt = 1 := rfl
    rw [BitVec.toInt_add, day, one]
    exact Int.bmod_eq_of_le (by omega) (by omega)
  have field := toInt_toInt32 (t := (t.sdiv 86400).srem 31 + 1) (by omega) (by omega)
  exact field.trans next

theorem tmMon_toInt : (breakDown t).tmMon.toInt = (t.toInt.tdiv 2678400).tmod 12 :=
  toInt_part (by decide) (by decide) (by decide)

theorem tmWday_toInt : (breakDown t).tmWday.toInt = (t.toInt.tdiv 86400).tmod 7 :=
  toInt_part (by decide) (by decide) (by decide)

theorem tmYday_toInt : (breakDown t).tmYday.toInt = (t.toInt.tdiv 86400).tmod 365 :=
  toInt_part (by decide) (by decide) (by decide)

/-- The year may not fit, but it is the quotient modulo 2³². -/
theorem tmYear_sub : (breakDown t).tmYear - 70 = BitVec.ofInt 32 (t.toInt.tdiv 32140800) := by
  have quot : (t.sdiv 32140800).toInt = t.toInt.tdiv 32140800 := toInt_quot (by decide)
  have year : (breakDown t).tmYear = (t.sdiv 32140800).setWidth 32 + 70 :=
    BitVec.setWidth_add (t.sdiv 32140800) 70 (by decide)
  rw [year, BitVec.add_sub_cancel, ← quot, ← setWidth_ofInt (w := 64) (by decide),
    BitVec.ofInt_toInt]

/-- The parts add up to the time, with a day too many. -/
theorem parts_sum (x : Int) :
    x.tmod 60 + (x.tdiv 60).tmod 60 * 60 + (x.tdiv 3600).tmod 24 * 3600 +
        ((x.tdiv 86400).tmod 31 + 1) * 86400 + (x.tdiv 2678400).tmod 12 * 2678400 +
        x.tdiv 32140800 * 32140800 = x + 86400 := by
  have seconds := Int.tdiv_mul_add_tmod x 60
  have minutes := Int.tdiv_mul_add_tmod (x.tdiv 60) 60
  have hours := Int.tdiv_mul_add_tmod (x.tdiv 3600) 24
  have days := Int.tdiv_mul_add_tmod (x.tdiv 86400) 31
  have months := Int.tdiv_mul_add_tmod (x.tdiv 2678400) 12
  have hour : (x.tdiv 60).tdiv 60 = x.tdiv 3600 := tdiv_tdiv x 60 60
  have day : (x.tdiv 3600).tdiv 24 = x.tdiv 86400 := tdiv_tdiv x 3600 24
  have month : (x.tdiv 86400).tdiv 31 = x.tdiv 2678400 := tdiv_tdiv x 86400 31
  have year : (x.tdiv 2678400).tdiv 12 = x.tdiv 32140800 := tdiv_tdiv x 2678400 12
  omega

end Fields

/-- What `mktime` makes of a time that was broken down. -/
theorem mktime_breakDown (t : BitVec 64) :
    mktime (breakDown t) = (BitVec.ofInt 32 (t.toInt + 86400)).signExtend 64 := by
  refine congrArg (BitVec.signExtend 64) ?_
  rw [tmYear_sub, ← parts_sum t.toInt, ← tmSec_toInt, ← tmMin_toInt, ← tmHour_toInt,
    ← tmMday_toInt, ← tmMon_toInt]
  simp only [BitVec.ofInt_add, BitVec.ofInt_mul, BitVec.ofInt_toInt]
  rfl

/-- The day too many never cancels, however the sum wraps. -/
theorem mktime_gmtime_ne (currentTime t : BitVec 64) :
    mktime (gmtime currentTime (some t)).2 ≠ t := by
  intro h
  have value := congrArg BitVec.toInt ((mktime_breakDown t).symm.trans h)
  rw [BitVec.toInt_signExtend_of_le (by decide), BitVec.toInt_ofInt, Int.bmod_def] at value
  omega

/-- The beginning of time comes back as the second day. -/
theorem mktime_gmtime_zero :
    0 ≤ (0 : BitVec 64).toInt ∧ mktime (gmtime 0 (some 0)).2 = 86400 ∧ (86400 : BitVec 64) ≠ 0 := by
  decide

/-! ## Ranges -/

/-- The ranges that `time.h` documents. -/
structure Tm.InRange (tm : Tm) : Prop where
  sec : 0 ≤ tm.tmSec.toInt ∧ tm.tmSec.toInt ≤ 60
  min : 0 ≤ tm.tmMin.toInt ∧ tm.tmMin.toInt ≤ 59
  hour : 0 ≤ tm.tmHour.toInt ∧ tm.tmHour.toInt ≤ 23
  mday : 1 ≤ tm.tmMday.toInt ∧ tm.tmMday.toInt ≤ 31
  mon : 0 ≤ tm.tmMon.toInt ∧ tm.tmMon.toInt ≤ 11
  wday : 0 ≤ tm.tmWday.toInt ∧ tm.tmWday.toInt ≤ 6
  yday : 0 ≤ tm.tmYday.toInt ∧ tm.tmYday.toInt ≤ 365

/-- A remainder that is not negative is below the modulus. -/
theorem tmod_range {x m : Int} (pos : 0 < m) (h : 0 ≤ x.tmod m) : 0 ≤ x.tmod m ∧ x.tmod m ≤ m - 1 :=
  ⟨h, Int.le_sub_one_of_lt (Int.tmod_lt_of_pos x pos)⟩

/-- The upper ends are never passed, so that the signs of the remainders decide. -/
theorem breakDown_inRange_iff_signs (t : BitVec 64) :
    (breakDown t).InRange ↔
      0 ≤ t.toInt.tmod 60 ∧ 0 ≤ (t.toInt.tdiv 60).tmod 60 ∧ 0 ≤ (t.toInt.tdiv 3600).tmod 24 ∧
        0 ≤ (t.toInt.tdiv 86400).tmod 31 ∧ 0 ≤ (t.toInt.tdiv 2678400).tmod 12 ∧
        0 ≤ (t.toInt.tdiv 86400).tmod 7 ∧ 0 ≤ (t.toInt.tdiv 86400).tmod 365 := by
  constructor
  · rintro ⟨sec, min, hour, mday, mon, wday, yday⟩
    rw [tmMday_toInt] at mday
    refine ⟨tmSec_toInt t ▸ sec.1, tmMin_toInt t ▸ min.1, tmHour_toInt t ▸ hour.1, by omega,
      tmMon_toInt t ▸ mon.1, tmWday_toInt t ▸ wday.1, tmYday_toInt t ▸ yday.1⟩
  · rintro ⟨sec, min, hour, mday, mon, wday, yday⟩
    have sec := tmod_range (by decide) sec
    have day := tmod_range (by decide) mday
    have yday := tmod_range (by decide) yday
    refine
      { sec := ?_
        min := (tmMin_toInt t).symm ▸ tmod_range (by decide) min
        hour := (tmHour_toInt t).symm ▸ tmod_range (by decide) hour
        mday := ?_
        mon := (tmMon_toInt t).symm ▸ tmod_range (by decide) mon
        wday := (tmWday_toInt t).symm ▸ tmod_range (by decide) wday
        yday := ?_ }
    · rw [tmSec_toInt]
      omega
    · rw [tmMday_toInt]
      omega
    · rw [tmYday_toInt]
      omega

/-- Without a remainder anywhere, the time is a number of whole cycles of months, weeks and years:
82119744000 seconds is the least common multiple of all of them. -/
theorem cycle_dvd_iff (x : Int) :
    (60 ∣ x ∧ 60 ∣ x.tdiv 60 ∧ 24 ∣ x.tdiv 3600 ∧ 31 ∣ x.tdiv 86400 ∧ 12 ∣ x.tdiv 2678400 ∧
      7 ∣ x.tdiv 86400 ∧ 365 ∣ x.tdiv 86400) ↔ 82119744000 ∣ x := by
  have day : (x.tdiv 3600).tdiv 24 = x.tdiv 86400 := tdiv_tdiv x 3600 24
  have hour : (x.tdiv 60).tdiv 60 = x.tdiv 3600 := tdiv_tdiv x 60 60
  have month : (x.tdiv 86400).tdiv 31 = x.tdiv 2678400 := tdiv_tdiv x 86400 31
  constructor
  · rintro ⟨⟨a, ha⟩, ⟨b, hb⟩, ⟨c, hc⟩, ⟨d, hd⟩, ⟨e, he⟩, hweek, hyear⟩
    rw [hb, Int.mul_tdiv_cancel_left b (by decide)] at hour
    rw [hc, Int.mul_tdiv_cancel_left c (by decide)] at day
    rw [hd, Int.mul_tdiv_cancel_left d (by decide)] at month
    rw [ha, Int.mul_tdiv_cancel_left a (by decide)] at hb
    omega
  · intro h
    have minutes := Int.tdiv_mul_cancel (show 60 ∣ x by omega)
    have hours := Int.tdiv_mul_cancel (show 3600 ∣ x by omega)
    have days := Int.tdiv_mul_cancel (show 86400 ∣ x by omega)
    have months := Int.tdiv_mul_cancel (show 2678400 ∣ x by omega)
    refine ⟨?_, ?_, ?_, ?_, ?_, ?_, ?_⟩
    all_goals omega

theorem breakDown_inRange_iff (t : BitVec 64) :
    (breakDown t).InRange ↔ 0 ≤ t.toInt ∨ 82119744000 ∣ t.toInt := by
  rw [breakDown_inRange_iff_signs]
  rcases Int.le_total 0 t.toInt with hpos | hneg
  · have quot (k : Int) (hk : 0 ≤ k) : 0 ≤ t.toInt.tdiv k := Int.tdiv_nonneg hpos hk
    have rem (k m : Int) (hk : 0 ≤ k) : 0 ≤ (t.toInt.tdiv k).tmod m := Int.tmod_nonneg m (quot k hk)
    refine iff_of_true ⟨Int.tmod_nonneg 60 hpos, ?_, ?_, ?_, ?_, ?_, ?_⟩ (.inl hpos)
    all_goals exact rem _ _ (by decide)
  · have quot (k : Int) (hk : 0 ≤ k) : t.toInt.tdiv k ≤ 0 := by
      have opposite := Int.tdiv_nonneg (Int.neg_nonneg_of_nonpos hneg) hk
      rw [Int.neg_tdiv] at opposite
      omega
    rw [tmod_nonneg_iff hneg, tmod_nonneg_iff (quot 60 (by decide)),
      tmod_nonneg_iff (quot 3600 (by decide)), tmod_nonneg_iff (quot 86400 (by decide)),
      tmod_nonneg_iff (quot 2678400 (by decide)), tmod_nonneg_iff (quot 86400 (by decide)),
      tmod_nonneg_iff (quot 86400 (by decide)), cycle_dvd_iff]
    constructor
    · exact .inr
    · rintro (hzero | h)
      · rw [Int.le_antisymm hneg hzero]
        exact Int.dvd_zero _
      · exact h

/-! ## Text -/

theorem nameAt_isSome (names : List (List UInt8)) {i : BitVec 32} (low : 0 ≤ i.toInt)
    (high : i.toInt < names.length) : (nameAt names i).isSome := by
  rw [nameAt, if_pos low]
  have value := toInt_eq_toNat_of_nonneg low
  rw [List.getElem?_eq_getElem (by omega)]
  rfl

/-- No directive of the format is one that `vsnprintf` knows, so that it copies the format. -/
theorem asctime_text (args : List Arg) :
    vsnprintf 26 asctimeFormat args =
      some { bytes := asctimeFormat.bytes.take 25, ret := 25, args } := rfl

/-- Where the fields are in range, both names are found. -/
theorem asctime_isSome {tm : Tm} (h : tm.InRange) : (asctime tm).isSome := by
  have days : (wdayNames.length : Int) = 7 := rfl
  have months : (monNames.length : Int) = 12 := rfl
  obtain ⟨wday, hwday⟩ := Option.isSome_iff_exists.mp
    (nameAt_isSome wdayNames h.wday.1 (by have := h.wday.2; omega))
  obtain ⟨mon, hmon⟩ := Option.isSome_iff_exists.mp
    (nameAt_isSome monNames h.mon.1 (by have := h.mon.2; omega))
  rw [asctime, hwday, hmon]
  rfl

/-- The fields are in range, and the lookups of `ctime` within their tables, for the times from 0 on
and for whole cycles before. -/
theorem gmtime_inRange_iff (currentTime t : BitVec 64) :
    (gmtime currentTime (some t)).2.InRange ∧ (ctime currentTime (some t)).isSome ↔
      0 ≤ t.toInt ∨ 82119744000 ∣ t.toInt := by
  rw [← breakDown_inRange_iff]
  exact and_iff_left_of_imp asctime_isSome

/-- The day before the beginning is the day -1 of the week, for which there is no name. -/
theorem ctime_before :
    (gmtime 0 (some (-86400))).2.tmWday.toInt = -1 ∧ ctime 0 (some (-86400)) = none := by
  decide

end Unics
