import ZephyrSiot.Theory.CString
import ZephyrSiot.Theory.Gregorian

/-!
# Timestamps

`lib/timeconv.c`: 64-bit epoch nanoseconds to and from RFC 3339 text. `timeutil_timegm64`, which is
Zephyr's, is the parameter `timegm`; `IsTimegm` says that it counts days by the proleptic Gregorian
calendar.
-/

namespace ZephyrSiot
open CStr

def rfc3339MaxLen : Nat := 31

def nsPerSec : Nat := 1000000000

/-- `civil_from_days`: year, month and day. A 64-bit day number whose year fits in an `int` does
not overflow, what is `unsigned` in the source is a `UInt32` here. -/
def civilFromDays (z : Int) : Int × UInt32 × UInt32 :=
  let z := z + 719468
  let era := (if z ≥ 0 then z else z - 146096).tdiv 146097
  let doe := UInt32.ofInt (z - era * 146097)
  let yoe := (doe - doe / 1460 + doe / 36524 - doe / 146096) / 365
  let y := yoe.toNat + era * 400
  let doy := doe - (365 * yoe + yoe / 4 - yoe / 100)
  let mp := (5 * doy + 2) / 153
  let d := doy - (153 * mp + 2) / 5 + 1
  let m := if mp < 10 then mp + 3 else mp - 9
  (y + (if m ≤ 2 then 1 else 0), m, d)

/-- The value of a 64-bit signed operation. To overflow is undefined. -/
def int64 (v : Int) : Option Int := if -2 ^ 63 ≤ v ∧ v < 2 ^ 63 then some v else none

/-- The variables of `civil_from_days` that are `unsigned`. -/
structure civilFromDays.Unsigned where
  doe : UInt32
  yoe : UInt32
  doy : UInt32
  mp : UInt32
  d : UInt32
  m : UInt32

def civilFromDays.unsigned (doe : UInt32) : Unsigned :=
  let yoe := (doe - doe / 1460 + doe / 36524 - doe / 146096) / 365
  let doy := doe - (365 * yoe + yoe / 4 - yoe / 100)
  let mp := (5 * doy + 2) / 153
  let d := doy - (153 * mp + 2) / 5 + 1
  let m := if mp < 10 then mp + 3 else mp - 9
  { doe, yoe, doy, mp, d, m }

/-- `civilFromDays` with its operations on 64 bits and the cast to `int`: what is stored for the
year, and the variables that month and day are two of. -/
def civilFromDays.run (z : Int) : Option (Int32 × Unsigned) := do
  let z ← int64 (z + 719468)
  let dividend ← int64 (if z ≥ 0 then z else z - 146096)
  let era := dividend.tdiv 146097
  let difference ← int64 (z - (← int64 (era * 146097)))
  let u := unsigned (.ofInt difference)
  let y ← int64 (u.yoe.toNat + (← int64 (era * 400)))
  let year ← int64 (y + (if u.m ≤ 2 then 1 else 0))
  some (.ofInt year, u)

/-! ## Formatting -/

/-- `'0' + n % 10` -/
def digit (n : Nat) : UInt8 := .ofNat (0x30 + n % 10)

/-- The loop over the last nine places, from `i` of them down to the first, in front of `text`. -/
def timeconvRfc3339.nanos : (i nsec : Nat) → (text : Bytes) → Bytes
  | 0, _, text => text
  | i + 1, nsec, text => nanos i (nsec / 10) (digit nsec :: text)

abbrev minus : UInt8 := 0x2d
abbrev period : UInt8 := 0x2e
abbrev colon : UInt8 := 0x3a
abbrev letterT : UInt8 := 0x54
abbrev letterZ : UInt8 := 0x5a

/-- What is written for the fields of a time. -/
def timeconvRfc3339.text (year month day hour min sec nsec : Nat) : Bytes :=
  [digit (year / 1000), digit (year / 100), digit (year / 10), digit year, minus,
    digit (month / 10), digit month, minus, digit (day / 10), digit day, letterT,
    digit (hour / 10), digit hour, colon, digit (min / 10), digit min, colon,
    digit (sec / 10), digit sec, period] ++ nanos 9 nsec [letterZ]

/-- The result, and the run stored at `buf`. -/
def timeconvRfc3339FromEpochNsUtc (epochNs : UInt64) (bufLen : Nat) : Int × Bytes :=
  if bufLen < rfc3339MaxLen then (-1, [])
  else
    let secs := epochNs.toNat / nsPerSec
    let nsec := epochNs.toNat % nsPerSec
    let days := secs / 86400
    let rem := secs % 86400
    let (year, month, day) := civilFromDays days
    let hour := rem / 3600
    let min := rem % 3600 / 60
    let sec := rem % 60
    -- a time since 1970 has a year that is not negative
    (0, timeconvRfc3339.text year.toNat month.toNat day.toNat hour min sec nsec ++ [nul])

/-! ## Parsing -/

/-- `struct tm`. The year counts from 1900 and the month from 0. -/
structure Tm where
  year : Int
  mon : Int
  mday : Int
  hour : Int
  min : Int
  sec : Int

/-- `timeutil_timegm64`: seconds since 1970 by the proleptic Gregorian calendar. -/
def IsTimegm (timegm : Tm → Int) : Prop :=
  ∀ tm : Tm, 0 ≤ tm.mon → tm.mon ≤ 11 → timegm tm =
    86400 * (Gregorian.dayNumber (tm.year + 1900) (tm.mon + 1).toNat 1 + tm.mday - 1) +
      3600 * tm.hour + 60 * tm.min + tm.sec

def gregorianTimegm (tm : Tm) : Int :=
  86400 * (Gregorian.dayNumber (tm.year + 1900) (tm.mon + 1).toNat 1 + tm.mday - 1) +
    3600 * tm.hour + 60 * tm.min + tm.sec

theorem isTimegm_gregorian : IsTimegm gregorianTimegm := fun _ _ _ => rfl

/-- The loop over the digits of the fraction: the nanoseconds, and the rest of the text. -/
def timeconvEpochNs.fraction : Bytes → (scale nsec : UInt32) → UInt32 × Bytes
  | [], _, nsec => (nsec, [])
  | c :: tmp, scale, nsec =>
    if ¬ IsDigit c then (nsec, c :: tmp)
    else if scale > 0 then fraction tmp (scale / 10) (nsec + .ofNat (c.toNat - 0x30) * scale)
    else fraction tmp scale nsec

def timeconvEpochNsFromRfc3339 (timegm : Tm → Int) (buf : Bytes) (bufLen : Nat) : UInt64 :=
  if bufLen = 0 then 0
  else
    -- what follows the terminator of `tmp` is not read
    let tmp := cstr (buf.take (min bufLen (rfc3339MaxLen + 8 - 1)))
    let char (i : Nat) : UInt8 := tmp.getD i nul
    let num (i : Nat) : Int := (char i).toNat - 0x30
    if tmp.length < 20 then 0
    else if char 4 ≠ minus ∨ char 7 ≠ minus ∨ char 10 ≠ letterT ∨ char 13 ≠ colon ∨
        char 16 ≠ colon then 0
    else if ¬ ∀ i < 19, i ∈ [4, 7, 10, 13, 16] ∨ IsDigit (char i) then 0
    else
      let year := num 0 * 1000 + num 1 * 100 + num 2 * 10 + num 3
      let mon := num 5 * 10 + num 6
      let mday := num 8 * 10 + num 9
      let hour := num 11 * 10 + num 12
      let min := num 14 * 10 + num 15
      let sec := num 17 * 10 + num 18
      if mon < 1 ∨ mon > 12 ∨ mday < 1 ∨ mday > 31 ∨ hour > 23 ∨ min > 59 ∨ sec > 60 then 0
      else
        let (nsec, rest) :=
          if char 19 = period then timeconvEpochNs.fraction (tmp.drop 20) 100000000 0
          else (0, tmp.drop 19)
        if rest.headD nul ≠ letterZ ∨ rest.tail.headD nul ≠ nul then 0
        else
          let epoch := timegm ⟨year - 1900, mon - 1, mday, hour, min, sec⟩
          if epoch < 0 then 0
          else .ofInt epoch * .ofNat nsPerSec + nsec.toUInt64

end ZephyrSiot
