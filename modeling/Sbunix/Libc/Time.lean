import Mathlib.Data.Int.Basic
import Mathlib.Tactic.IntervalCases
import Mathlib.Tactic.Linarith
import Mathlib.Tactic.Ring

/-!
# The calendar

`gmtime_r` and `timegm` of `libc/time.c`, with `civil_from_days`, `days_from_civil`
and `day_of_year`. Values of type `int` wrap at 32 bits; nothing of type `long`
leaves 64 bits for a `time_t` and for fields that are ints, and the unsigned
values stay small, so these are integers.

A date of the proleptic Gregorian calendar has a number, counted from 1 January
1970, and the day after it has the next number. `civil_from_days` finds the date
of a number, and everything else follows.
-/

namespace Sbunix.Libc

def INT_MAX : ℤ := 2 ^ 31 - 1
def toInt (x : ℤ) : ℤ := x.bmod (2 ^ 32)

structure Date where
  year : ℤ
  month : ℤ
  day : ℤ
  deriving DecidableEq

def civilFromDays (z : ℤ) : Date :=
  let z := z + 719468
  let era := (if 0 ≤ z then z else z - 146096).tdiv 146097
  let doe := z - era * 146097
  let yoe := (doe - doe / 1460 + doe / 36524 - doe / 146096) / 365
  let yr := yoe + era * 400
  let doy := doe - (365 * yoe + yoe / 4 - yoe / 100)
  let mp := (5 * doy + 2) / 153
  let dd := doy - (153 * mp + 2) / 5 + 1
  let mm := if mp < 10 then mp + 3 else mp - 9
  ⟨toInt (yr + if mm ≤ 2 then 1 else 0), mm, dd⟩

def daysFromCivil (y m d : ℤ) : ℤ :=
  let y := toInt (y - if m ≤ 2 then 1 else 0)
  let era := (if 0 ≤ y then y else toInt (y - 399)).tdiv 400
  let yoe := y - era * 400
  let doy := (153 * (if 2 < m then m - 3 else m + 9) + 2) / 5 + d - 1
  let doe := yoe * 365 + yoe / 4 - yoe / 100 + doy
  era * 146097 + doe - 719468

structure Tm where
  sec : ℤ
  min : ℤ
  hour : ℤ
  mday : ℤ
  mon : ℤ
  year : ℤ
  wday : ℤ
  yday : ℤ
  isdst : ℤ
  deriving DecidableEq

def dayOfYear (y m d : ℤ) : ℤ :=
  let cum := [0, 31, 59, 90, 120, 151, 181, 212, 243, 273, 304, 334]
  let leap := if (y.tmod 4 = 0 ∧ y.tmod 100 ≠ 0) ∨ y.tmod 400 = 0 then 1 else 0
  let yday := cum.getD (m - 1).toNat 0 + d - 1
  if 2 < m then yday + leap else yday

def gmtimeR (secs : ℤ) : Tm :=
  let days := secs.tdiv 86400
  let sod := secs.tmod 86400
  let (sod, days) := if sod < 0 then (sod + 86400, days - 1) else (sod, days)
  let x := civilFromDays days
  let w := (days.tmod 7 + 4).tmod 7
  { sec := sod % 60, min := sod / 60 % 60, hour := sod / 3600, mday := x.day, mon := x.month - 1
    year := toInt (x.year - 1900), wday := if w < 0 then w + 7 else w
    yday := dayOfYear x.year x.month x.day, isdst := 0 }

/-- `while (mo > 12) { mo -= 12; y++; }` -/
def carryUp (y mo : ℤ) : ℤ × ℤ :=
  if 12 < mo then carryUp (toInt (y + 1)) (mo - 12) else (y, mo)
termination_by mo.toNat
decreasing_by omega

/-- `while (mo < 1) { mo += 12; y--; }` -/
def carryDown (y mo : ℤ) : ℤ × ℤ :=
  if mo < 1 then carryDown (toInt (y - 1)) (mo + 12) else (y, mo)
termination_by (1 - mo).toNat
decreasing_by omega

/-- `timegm`: the time, and the structure it leaves. -/
def timegm (tm : Tm) : ℤ × Tm :=
  let (y, mo) := carryUp (toInt (tm.year + 1900)) (toInt (tm.mon + 1))
  let (y, mo) := carryDown y mo
  let days := daysFromCivil y mo 1 + tm.mday - 1
  let secs := days * 86400 + tm.hour * 3600 + tm.min * 60 + tm.sec
  (secs, gmtimeR secs)

/-! ### Dates -/

def isLeap (y : ℤ) : Bool := 4 ∣ y ∧ (¬100 ∣ y ∨ 400 ∣ y)

def monthLength (leap : Bool) (m : ℤ) : ℤ :=
  if m = 2 then if leap then 29 else 28
  else if m = 4 ∨ m = 6 ∨ m = 9 ∨ m = 11 then 30 else 31

namespace Date

def Valid (x : Date) : Prop :=
  1 ≤ x.month ∧ x.month ≤ 12 ∧ 1 ≤ x.day ∧ x.day ≤ monthLength (isLeap x.year) x.month

instance (x : Date) : Decidable x.Valid := by
  unfold Valid
  infer_instance

def next (x : Date) : Date :=
  if x.day < monthLength (isLeap x.year) x.month then { x with day := x.day + 1 }
  else if x.month < 12 then ⟨x.year, x.month + 1, 1⟩
  else ⟨x.year + 1, 1, 1⟩

/-- The days since 1 January 1970; years are counted from March on. -/
def number (x : Date) : ℤ :=
  let y := x.year - if x.month ≤ 2 then 1 else 0
  365 * y + y / 4 - y / 100 + y / 400 +
    (153 * (if 2 < x.month then x.month - 3 else x.month + 9) + 2) / 5 +
    x.day - 1 - 719468

end Date

variable {d y : ℤ} {x : Date}

variable {n m mo t : ℤ}

section

variable (hy : 0 ≤ y ∧ y < 400) (hd : 0 ≤ d ∧ d ≤ 365) (hlast : d = 365 → y % 4 = 3 ∧
    (y % 100 = 99 → y = 399))

include hy hd hlast

end

def Tm.anchor (tm : Tm) : Date := ⟨tm.year + 1900 + tm.mon / 12, tm.mon % 12 + 1, 1⟩

def Tm.instant (tm : Tm) : ℤ :=
  (tm.anchor.number + tm.mday - 1) * 86400 + tm.hour * 3600 + tm.min * 60 + tm.sec

example : gmtimeR (-1) = ⟨59, 59, 23, 31, 11, 69, 3, 364, 0⟩ := by decide +kernel

end Sbunix.Libc
