import InfotmUboot.Lib.Word

/-!
# Dates

`GregorianDay`, `to_tm` and `mktime` of `rtc/date.c`, where a `long` has 32 bits.
-/

namespace InfotmUboot

open Lib

def STARTOFTIME : ℕ := 1970

def SECDAY : ℤ := 86400

/-- `days_in_year` -/
def daysInYear (a : ℕ) : ℕ := if a % 4 = 0 then 366 else 365

/-- `month_days` -/
def monthDays : List ℕ := [31, 28, 31, 30, 31, 30, 31, 31, 30, 31, 30, 31]

structure RtcTime where
  tmSec : ℤ
  tmMin : ℤ
  tmHour : ℤ
  tmMday : ℤ
  tmMon : ℤ
  tmYear : ℤ
  tmWday : ℤ
  deriving DecidableEq, Repr

def monthOffset : List ℤ := [0, 31, 59, 90, 120, 151, 181, 212, 243, 273, 304, 334]

/-- A month that is none has no result. -/
def gregorianDay (tm : RtcTime) : Option RtcTime := do
  let lastYear := tm.tmYear - 1
  let leapsToDate := lastYear.tdiv 4 - lastYear.tdiv 100 + lastYear.tdiv 400
  let day : ℤ := if tm.tmYear.tmod 4 = 0 ∧ (tm.tmYear.tmod 100 ≠ 0 ∨ tm.tmYear.tmod 400 = 0) ∧
    tm.tmMon > 2 then 1 else 0
  let offset ← (if 1 ≤ tm.tmMon then monthOffset[(tm.tmMon - 1).toNat]? else none : Option ℤ)
  let day := day + (lastYear * 365 + leapsToDate + offset + tm.tmMday)
  some { tm with tmWday := day.tmod 7 }

/-- `for (; day >= len(i); i++) day -= len(i);` in at most so many rounds. -/
def passDays (len : ℕ → Option ℕ) : ℕ → ℕ → ℤ → Option (ℕ × ℤ)
  | 0, _, _ => none
  | n + 1, i, day => do
    let l ← len i
    if day ≥ l then passDays len n (i + 1) (day - l) else some (i, day)

/-- `days_in_month`, of a table whose February is set for the year. -/
def daysInMonth (year a : ℕ) : Option ℕ :=
  (if year % 4 = 0 then monthDays.set 1 29 else monthDays)[a - 1]?

/-- Each round of a loop takes at least one day. -/
def toTm (tim : ℤ) : Option RtcTime := do
  let day := tim.tdiv SECDAY
  let hms := tim.tmod SECDAY
  let (year, day) ← passDays (fun i => some (daysInYear i)) (day.toNat + 1) STARTOFTIME day
  let (mon, day) ← passDays (daysInMonth year) (day.toNat + 1) 1 day
  gregorianDay
    { tmHour := hms.tdiv 3600, tmMin := (hms.tmod 3600).tdiv 60, tmSec := (hms.tmod 3600).tmod 60
      tmYear := year, tmMon := mon, tmMday := day + 1, tmWday := 0 }

/-- The days, where the year begins with March. -/
def mktimeDays (year mon day : ℕ) : ℕ :=
  toU32 ((toU32 ((year / 4 : ℕ) - (year / 100 : ℕ) + (year / 400 : ℕ) + (u32 (367 * mon) / 12 : ℕ) +
    day) + u32 (year * 365) : ℤ) - 719499)

/-- January and February are in the year before. -/
def mktime (year mon day hour min sec : ℕ) : ℕ :=
  let mon := toU32 ((mon : ℤ) - 2)
  let days := if 0 ≥ s32 mon then mktimeDays (toU32 ((year : ℤ) - 1)) (u32 (mon + 12)) day
    else mktimeDays year mon day
  u32 (((days * 24 + hour) * 60 + min) * 60 + sec)

end InfotmUboot
