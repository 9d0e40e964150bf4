import InfotmUboot.Date
import InfotmUboot.Lib.Calendar

/-!
# Dates and seconds

`mktime` counts the seconds from the epoch on as long as a word holds them. `to_tm` passes the years
and the months of the calendar again (`passDays_reaches`), but takes a signed number of seconds, so
it is its inverse through 2038-01-19 03:14:07.
-/

namespace InfotmUboot

open Lib

section Mktime

variable {year mon day hour min sec : ℕ}

theorem mktimeDays_eq {y m n : ℕ} (hy : y < 3000) (hm : m ≤ 12) (hday : day ≤ 31)
    (hn : n + 719499 = y / 4 - y / 100 + y / 400 + 367 * m / 12 + day + y * 365) :
    mktimeDays y m day = n := by
  have hsum : toU32 ((y / 4 : ℕ) - (y / 100 : ℕ) + (y / 400 : ℕ) + (367 * m / 12 : ℕ) + day) =
      y / 4 - y / 100 + y / 400 + 367 * m / 12 + day := by
    unfold toU32
    omega
  rw [mktimeDays, u32_of_lt (by omega), u32_of_lt (by omega), hsum]
  unfold toU32
  omega

/-- The days before a month, counted from March on. -/
theorem monthOffset_late {m : ℕ} (h3 : 2 < m) (h12 : m ≤ 12) :
    [0, 31, 59, 90, 120, 151, 181, 212, 243, 273, 304, 334].getD (m - 1) 0 =
      367 * (m - 2) / 12 + 29 := by
  interval_cases m <;> rfl

theorem monthOffset_early {m : ℕ} (h1 : 0 < m) (h2 : m ≤ 2) :
    [0, 31, 59, 90, 120, 151, 181, 212, 243, 273, 304, 334].getD (m - 1) 0 + 336 =
      367 * (m + 10) / 12 := by
  interval_cases m <;> rfl

theorem mktime_early (h1 : 0 < mon) (h2 : mon ≤ 2) (hyear : 0 < year) (hsmall : year < 3000) :
    mktime year mon day hour min sec =
      u32 (((mktimeDays (year - 1) (mon + 10) day * 24 + hour) * 60 + min) * 60 + sec) := by
  have hprev : toU32 ((year : ℤ) - 1) = year - 1 := by
    unfold toU32
    omega
  have hnext : u32 (toU32 ((mon : ℤ) - 2) + 12) = mon + 10 := by
    unfold u32 toU32
    omega
  have hneg : s32 (toU32 ((mon : ℤ) - 2)) ≤ 0 := by
    interval_cases mon <;> decide
  rw [mktime, if_pos hneg, hprev, hnext]

theorem mktime_late (h3 : 2 < mon) (h12 : mon ≤ 12) : mktime year mon day hour min sec =
    u32 (((mktimeDays year (mon - 2) day * 24 + hour) * 60 + min) * 60 + sec) := by
  have hmon : toU32 ((mon : ℤ) - 2) = mon - 2 := by
    unfold toU32
    omega
  have hpos : ¬s32 ((mon - 2 : ℕ) : ℤ) ≤ 0 := by
    rw [s32_of_range (by omega) (by omega)]
    omega
  rw [mktime, hmon, if_neg hpos]

/-- The days that `mktime` counts. -/
theorem mktime_days {n : ℕ} (hmon : 0 < mon) (h12 : mon ≤ 12) (hyear : 0 < year)
    (hsmall : year < 3000) (hpos : 0 < day) (hday : day ≤ 31)
    (hn : n + 719527 = 365 * year + leapsBefore year +
      ∑ m ∈ Finset.Ico 1 mon, monthLength year m + (day - 1)) :
    mktime year mon day hour min sec = u32 (((n * 24 + hour) * 60 + min) * 60 + sec) := by
  rw [monthLength_sum hmon h12] at hn
  by_cases hmon2 : mon ≤ 2
  · rw [if_neg (by omega)] at hn
    have hoffset := monthOffset_early hmon hmon2
    unfold leapsBefore at hn
    rw [mktime_early hmon hmon2 hyear hsmall,
      mktimeDays_eq (n := n) (by omega) (by omega) hday (by omega)]
  · have hlate := Nat.not_le.1 hmon2
    have hoffset := monthOffset_late hlate h12
    have hleap := leapsBefore_succ hyear
    have hafter : leapsBefore (year + 1) = year / 4 - year / 100 + year / 400 := rfl
    have hif : (if Leap year ∧ 2 < mon then 1 else 0) = if Leap year then 1 else 0 := by
      simp [hlate]
    rw [hif] at hn
    rw [mktime_late hlate h12, mktimeDays_eq (n := n) hsmall (by omega) hday (by omega)]

end Mktime

section ToTm

/-- The loop gets to the stretch in which the day is. -/
theorem passDays_reaches {len : ℕ → Option ℕ} {f : ℕ → ℕ} : ∀ {n a b : ℕ} {rest : ℕ},
    (∀ i, a ≤ i → i ≤ b → len i = some (f i)) → a ≤ b → rest < f b → b - a < n →
      passDays len n a ((∑ i ∈ Finset.Ico a b, f i + rest : ℕ) : ℤ) = some (b, (rest : ℤ))
  | 0, a, b, rest, _, _, _, hn => absurd hn (Nat.not_lt_zero _)
  | n + 1, a, b, rest, hlen, hab, hrest, hn => by
    rw [passDays, hlen a le_rfl hab, Option.bind_eq_bind, Option.bind_some]
    by_cases heq : a = b
    · subst heq
      rw [if_neg (by simpa using hrest)]
      simp
    · have hlt : a < b := by omega
      rw [Finset.sum_eq_sum_Ico_succ_bot hlt, if_pos (Nat.cast_le.2 (by omega))]
      have hnext := passDays_reaches (n := n) (fun i hi => hlen i (Nat.le_of_succ_le hi)) hlt hrest
        (by omega)
      rw [← hnext]
      congr 1
      push_cast
      ring

/-- No stretch is empty, so there are no more rounds than days. -/
theorem passDays_stretch (len : ℕ → Option ℕ) {f : ℕ → ℕ} {a b rest : ℕ}
    (hlen : ∀ i, a ≤ i → i ≤ b → len i = some (f i)) (hf : ∀ i, 0 < f i) (hab : a ≤ b)
    (hrest : rest < f b) :
    passDays len (((∑ i ∈ Finset.Ico a b, f i + rest : ℕ) : ℤ).toNat + 1) a
      ((∑ i ∈ Finset.Ico a b, f i + rest : ℕ) : ℤ) = some (b, (rest : ℤ)) := by
  have hcard : (Finset.Ico a b).card • 1 ≤ ∑ i ∈ Finset.Ico a b, f i :=
    Finset.card_nsmul_le_sum _ _ _ fun i _ => hf i
  rw [Nat.card_Ico, nsmul_eq_mul, Nat.cast_id, Nat.mul_one] at hcard
  exact passDays_reaches hlen hab hrest (by rw [Int.toNat_natCast]; omega)

theorem daysInYear_eq {y : ℕ} (h1 : STARTOFTIME ≤ y) (h2 : y < 2100) :
    daysInYear y = yearLength y := by
  have hstart : STARTOFTIME = 1970 := rfl
  have hleap : y % 4 = 0 ↔ Leap y := by
    unfold Leap
    omega
  unfold daysInYear yearLength
  simp only [hleap]

theorem daysInMonth_eq {y m : ℕ} (hy1 : STARTOFTIME ≤ y) (hy2 : y < 2100) (h1 : 0 < m)
    (h12 : m ≤ 12) : daysInMonth y m = some (monthLength y m) := by
  have hstart : STARTOFTIME = 1970 := rfl
  have hleap : y % 4 = 0 ↔ Leap y := by
    unfold Leap
    omega
  unfold daysInMonth monthLength
  simp only [hleap]
  split_ifs with hl <;> interval_cases m <;> simp_all [monthDays]

variable (d : DateTime)

/-- What `to_tm` has to fill in. -/
def dateTm : RtcTime :=
  { tmSec := d.sec, tmMin := d.min, tmHour := d.hour, tmMday := d.day, tmMon := d.month
    tmYear := d.year, tmWday := d.weekday }

/-- The days from the epoch on, by a count from the year 1 on. -/
theorem days_closed (hyear : STARTOFTIME ≤ d.year) :
    d.days STARTOFTIME + 719527 = 365 * d.year + leapsBefore d.year + d.yearDay := by
  have hsum := yearLength_sum (a := STARTOFTIME) (by decide) hyear
  have hleaps : leapsBefore STARTOFTIME = 477 := rfl
  have hstart : STARTOFTIME = 1970 := rfl
  unfold DateTime.days
  omega

theorem monthOffset_get {m : ℕ} (h1 : 0 < m) (h12 : m ≤ 12) : monthOffset[m - 1]? =
    some (([0, 31, 59, 90, 120, 151, 181, 212, 243, 273, 304, 334].getD (m - 1) 0 : ℕ) : ℤ) := by
  interval_cases m <;> rfl

/-- The day of the week does not depend on what is in its place. -/
theorem gregorianDay_eq (hyear : STARTOFTIME ≤ d.year) (wday : ℤ) :
    gregorianDay { dateTm d with tmWday := wday } = some (dateTm d) := by
  have hstart : STARTOFTIME = 1970 := rfl
  have hpos := d.month_pos
  have hday := d.day_pos
  have hyear0 : (0 : ℤ) ≤ d.year := by omega
  have hlast : (0 : ℤ) ≤ (d.year : ℤ) - 1 := by omega
  have hindex : ((d.month : ℤ) - 1).toNat = d.month - 1 := by omega
  have hleap : ((d.year : ℤ) % 4 = 0 ∧ ((d.year : ℤ) % 100 ≠ 0 ∨ (d.year : ℤ) % 400 = 0) ∧
      (d.month : ℤ) > 2) ↔ Leap d.year ∧ 2 < d.month := by
    unfold Leap
    omega
  have hsum := monthLength_sum (y := d.year) hpos d.month_le
  have hclosed := days_closed d hyear
  unfold leapsBefore DateTime.yearDay at hclosed
  rw [hstart] at hclosed
  rw [gregorianDay]
  simp only [dateTm, Int.tdiv_eq_ediv_of_nonneg hlast, Int.tmod_eq_emod_of_nonneg hyear0, hleap,
    hindex, monthOffset_get hpos d.month_le]
  rw [if_pos (by omega), Option.bind_eq_bind, Option.bind_some]
  refine congrArg some ?_
  simp only [DateTime.weekday, RtcTime.mk.injEq, true_and]
  by_cases h : Leap d.year ∧ 2 < d.month
  · rw [if_pos h] at hsum ⊢
    rw [Int.tmod_eq_emod_of_nonneg (by omega)]
    omega
  · rw [if_neg h] at hsum ⊢
    rw [Int.tmod_eq_emod_of_nonneg (by omega)]
    omega

theorem toTm_seconds (hyear : STARTOFTIME ≤ d.year) (hsmall : d.year < 2100) :
    toTm (d.seconds STARTOFTIME) = some (dateTm d) := by
  have hnonneg : (0 : ℤ) ≤ d.seconds STARTOFTIME := Int.natCast_nonneg _
  have hhour := d.hour_lt
  have hmin := d.min_lt
  have hsec := d.sec_lt
  have hday : (d.seconds STARTOFTIME : ℤ).tdiv SECDAY = (d.days STARTOFTIME : ℕ) := by
    rw [Int.tdiv_eq_ediv_of_nonneg hnonneg, SECDAY, DateTime.seconds]
    omega
  have hhms : (d.seconds STARTOFTIME : ℤ).tmod SECDAY =
      (((d.hour * 60 + d.min) * 60 + d.sec : ℕ) : ℤ) := by
    rw [Int.tmod_eq_emod_of_nonneg hnonneg, SECDAY, DateTime.seconds]
    omega
  have hyears := passDays_stretch (fun i => some (daysInYear i)) (f := yearLength)
    (fun i h1 h2 => congrArg some (daysInYear_eq h1 (by omega))) yearLength_pos hyear d.yearDay_lt
  have hrest : d.day - 1 < monthLength d.year d.month := by
    have hday := d.day_le
    have hpos := d.day_pos
    omega
  have hmonths := passDays_stretch (daysInMonth d.year) (f := monthLength d.year)
    (fun i h1 h2 => daysInMonth_eq hyear hsmall h1 (h2.trans d.month_le)) (monthLength_pos d.year)
    d.month_pos hrest
  rw [toTm, hday, hhms]
  dsimp only
  rw [DateTime.days, hyears, Option.bind_eq_bind, Option.bind_some]
  dsimp only
  rw [DateTime.yearDay, hmonths, Option.bind_some, ← gregorianDay_eq d hyear 0]
  have hclock : (0 : ℤ) ≤ ((d.hour * 60 + d.min) * 60 + d.sec : ℕ) := Int.natCast_nonneg _
  have hpart : (0 : ℤ) ≤ ((d.hour * 60 + d.min) * 60 + d.sec : ℕ) % 3600 := by omega
  refine congrArg gregorianDay ?_
  simp only [dateTm, Int.tdiv_eq_ediv_of_nonneg hclock, Int.tmod_eq_emod_of_nonneg hclock,
    Int.tdiv_eq_ediv_of_nonneg hpart, Int.tmod_eq_emod_of_nonneg hpart, RtcTime.mk.injEq]
  have hpos := d.day_pos
  refine ⟨?_, ?_, ?_, ?_, trivial, trivial, trivial⟩ <;> omega

theorem gregorianDay_year {tm tm' : RtcTime} (h : gregorianDay tm = some tm') :
    tm'.tmYear = tm.tmYear := by
  rw [gregorianDay] at h
  obtain ⟨offset, -, hoffset⟩ := Option.bind_eq_some_iff.1 h
  rw [← Option.some.inj hoffset]

/-- Before the epoch no year is passed. -/
theorem toTm_negative {tim : ℤ} {tm : RtcTime} (htim : tim < 0) (h : toTm tim = some tm) :
    tm.tmYear = STARTOFTIME := by
  have hday : tim.tdiv SECDAY ≤ 0 := by
    have hneg := Int.tdiv_nonneg (a := -tim) (b := SECDAY) (by omega) (by decide)
    rw [Int.neg_tdiv] at hneg
    omega
  have hpass : passDays (fun i => some (daysInYear i)) ((tim.tdiv SECDAY).toNat + 1) STARTOFTIME
      (tim.tdiv SECDAY) = some (STARTOFTIME, tim.tdiv SECDAY) := by
    rw [passDays, Option.bind_eq_bind, Option.bind_some, if_neg]
    have hlen : daysInYear STARTOFTIME = 365 := rfl
    omega
  rw [toTm, hpass, Option.bind_eq_bind, Option.bind_some] at h
  obtain ⟨r, -, hr⟩ := Option.bind_eq_some_iff.1 h
  exact gregorianDay_year hr

end ToTm

section Seconds

variable (d : DateTime)

/-- `mktime` gives the seconds since the epoch. -/
def MktimeRight : Prop :=
  mktime d.year d.month d.day d.hour d.min d.sec = d.seconds STARTOFTIME

/-- `to_tm` gives the date back. -/
def ToTmRight : Prop :=
  toTm (s32 (mktime d.year d.month d.day d.hour d.min d.sec : ℕ)) = some (dateTm d)

theorem years_le_seconds (hyear : STARTOFTIME ≤ d.year) :
    (d.year - STARTOFTIME) * 365 * 86400 ≤ d.seconds STARTOFTIME := by
  have hclosed := days_closed d hyear
  have hstart : STARTOFTIME = 1970 := rfl
  unfold leapsBefore at hclosed
  unfold DateTime.seconds
  omega

theorem mktime_right (hyear : STARTOFTIME ≤ d.year) (hsec : d.seconds STARTOFTIME < 2 ^ 32) :
    MktimeRight d := by
  have hyears := years_le_seconds d hyear
  have hstart : STARTOFTIME = 1970 := rfl
  have hday : d.day ≤ 31 := d.day_le.trans (monthLength_le d.year d.month)
  have hn := days_closed d hyear
  rw [DateTime.yearDay, ← Nat.add_assoc] at hn
  rw [MktimeRight, mktime_days d.month_pos d.month_le (by omega) (by omega) d.day_pos hday hn]
  exact u32_of_lt hsec

/-- In the first year of the epoch the seconds are few. -/
theorem seconds_first (hyear : d.year = STARTOFTIME) : d.seconds STARTOFTIME < 2 ^ 31 := by
  have hclosed := days_closed d hyear.ge
  have hlt := d.yearDay_lt
  have hlen : yearLength d.year ≤ 366 := yearLength_le d.year
  have hleaps : leapsBefore d.year = 477 := congrArg leapsBefore hyear
  have hstart : STARTOFTIME = 1970 := rfl
  have hhour := d.hour_lt
  have hmin := d.min_lt
  have hsec := d.sec_lt
  unfold DateTime.seconds
  omega

theorem toTmRight_iff (hyear : STARTOFTIME ≤ d.year) (hsec : d.seconds STARTOFTIME < 2 ^ 32) :
    ToTmRight d ↔ d.seconds STARTOFTIME < 2 ^ 31 := by
  have hright := mktime_right d hyear hsec
  unfold MktimeRight at hright
  rw [ToTmRight, hright, s32_natCast hsec]
  constructor
  · intro h
    by_contra hbig
    rw [if_neg hbig] at h
    have hfirst := toTm_negative (by omega) h
    exact hbig (seconds_first d (Int.ofNat_inj.1 hfirst))
  · intro hsmall
    rw [if_pos hsmall]
    have hyears := years_le_seconds d hyear
    have hstart : STARTOFTIME = 1970 := rfl
    exact toTm_seconds d hyear (by omega)

/-- The seconds are right as long as a word holds them, and come back as long as they have no
sign. -/
theorem mktime_toTm_iff (hyear : STARTOFTIME ≤ d.year) (hsec : d.seconds STARTOFTIME < 2 ^ 32) :
    MktimeRight d ∧ (ToTmRight d ↔ d.seconds STARTOFTIME < 2 ^ 31) :=
  ⟨mktime_right d hyear hsec, toTmRight_iff d hyear hsec⟩

/-- A leap day. -/
theorem mktime_toTm_iff_leap : ∃ d : DateTime, d.year = 2000 ∧ d.month = 2 ∧ d.day = 29 ∧
    MktimeRight d ∧ (ToTmRight d ↔ d.seconds STARTOFTIME < 2 ^ 31) :=
  ⟨⟨2000, 2, 29, 12, 30, 15, by omega, by omega, by omega, by decide, by omega, by omega,
    by omega⟩, rfl, rfl, rfl, mktime_toTm_iff _ (by decide) (by decide +kernel)⟩

/-- The second after 2038-01-19 03:14:07. -/
theorem toTm_not_right : ¬∀ d : DateTime, STARTOFTIME ≤ d.year → d.seconds STARTOFTIME < 2 ^ 32 →
    MktimeRight d ∧ ToTmRight d := by
  intro h
  have hlast := h ⟨2038, 1, 19, 3, 14, 8, by omega, by omega, by omega, by decide, by omega,
    by omega, by omega⟩ (by decide) (by decide +kernel)
  have hsmall := (toTmRight_iff _ (by decide) (by decide +kernel)).1 hlast.2
  exact absurd hsmall (by decide +kernel)

end Seconds

end InfotmUboot
