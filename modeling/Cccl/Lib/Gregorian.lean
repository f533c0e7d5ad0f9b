/-
# The Gregorian calendar

Dates of all years, before and after the present, with the leap years of today.  A day has a number, counted
from the first day of 1970: the days of the years before it, of the months before it, and of its month.

The numbers of consecutive days are consecutive (`dayNumber_next`), and a later date has a larger number
(`dayNumber_lt`).  From a number, the date is found in eras of 400 years that begin in March, so that the day
that may be missing is the last one of its year: there the years and the months are at regular places
(`yearOfEra_eq`, `monthOfYear_eq`), and each number has a date (`dayNumber_civil`).
-/
import Mathlib.Tactic.IntervalCases

namespace Cccl.Gregorian

/-! ## 1. Dates -/

structure Date where
  year : ℤ
  month : ℤ
  day : ℤ
  deriving DecidableEq

/-- Every fourth year, but of the centuries only every fourth one. -/
def IsLeap (y : ℤ) : Prop := y % 4 = 0 ∧ (y % 100 ≠ 0 ∨ y % 400 = 0)

instance (y : ℤ) : Decidable (IsLeap y) := inferInstanceAs (Decidable (_ ∧ _))

/-- The day that a leap year has more. -/
def leapDay (y : ℤ) : ℤ := if IsLeap y then 1 else 0

def daysInMonth (y m : ℤ) : ℤ :=
  if m = 2 then 28 + leapDay y
  else if m = 4 ∨ m = 6 ∨ m = 9 ∨ m = 11 then 30 else 31

namespace Date

/-- A month that exists, and a day of it. -/
structure Valid (d : Date) : Prop where
  one_le_month : 1 ≤ d.month
  month_le : d.month ≤ 12
  one_le_day : 1 ≤ d.day
  day_le : d.day ≤ daysInMonth d.year d.month

/-- The date after a date. -/
def next (d : Date) : Date :=
  if d.day < daysInMonth d.year d.month then ⟨d.year, d.month, d.day + 1⟩
  else if d.month < 12 then ⟨d.year, d.month + 1, 1⟩
  else ⟨d.year + 1, 1, 1⟩

/-- An earlier date. -/
def Before (d e : Date) : Prop :=
  d.year < e.year ∨ d.year = e.year ∧ (d.month < e.month ∨ d.month = e.month ∧ d.day < e.day)

end Date

/-! ## 2. The number of a day -/

/-- The days before a year, from 1970. -/
def yearStart (y : ℤ) : ℤ := 365 * (y - 1970) + ((y - 1) / 4 - (y - 1) / 100 + (y - 1) / 400) - 477

/-- The days of the first months of a year. -/
def monthStart (y : ℤ) : ℕ → ℤ
  | 0 => 0
  | n + 1 => monthStart y n + daysInMonth y (n + 1)

def dayNumber (d : Date) : ℤ := yearStart d.year + monthStart d.year (d.month - 1).toNat + d.day - 1

/-- The number counts from 1970. -/
example : dayNumber ⟨1970, 1, 1⟩ = 0 := by decide

variable {d e : Date}

/-- Leap days are where the quotients by 4, 100 and 400 increase. -/
theorem leapDay_eq (y : ℤ) : leapDay y = y / 4 - (y - 1) / 4 - (y / 100 - (y - 1) / 100) +
    (y / 400 - (y - 1) / 400) := by
  unfold leapDay
  split
  · rename_i h
    obtain ⟨h4, h100⟩ := h
    rcases h100 with h100 | h400 <;> omega
  · rename_i h
    unfold IsLeap at h
    omega

theorem leapDay_mem (y : ℤ) : 0 ≤ leapDay y ∧ leapDay y ≤ 1 := by
  unfold leapDay
  split <;> decide

theorem daysInMonth_pos (y m : ℤ) : 28 ≤ daysInMonth y m ∧ daysInMonth y m ≤ 31 := by
  have hleap := leapDay_mem y
  unfold daysInMonth
  split_ifs <;> omega

theorem yearStart_succ (y : ℤ) : yearStart (y + 1) = yearStart y + 365 + leapDay y := by
  rw [leapDay_eq, yearStart, yearStart]
  have hsucc : y + 1 - 1 = y := by omega
  rw [hsucc]
  omega

/-- The months from January, and those from March, have regular places. -/
theorem monthStart_eq (y : ℤ) {n : ℕ} (hn : n < 12) : monthStart y n =
    if n < 2 then (153 * ((n : ℤ) + 10) + 2) / 5 - 306 else (153 * ((n : ℤ) - 2) + 2) / 5 + 59 + leapDay y := by
  interval_cases n
  all_goals
    norm_num [monthStart, daysInMonth]
  all_goals omega

theorem monthStart_twelve (y : ℤ) : monthStart y 12 = 365 + leapDay y := by
  norm_num [monthStart, daysInMonth]
  omega

theorem monthStart_toNat_succ (y : ℤ) {m : ℤ} (hm : 1 ≤ m) :
    monthStart y m.toNat = monthStart y (m - 1).toNat + daysInMonth y m := by
  obtain ⟨n, rfl⟩ : ∃ n : ℕ, m = n + 1 := ⟨(m - 1).toNat, by omega⟩
  have hn : ((n : ℤ) + 1).toNat = n + 1 := by omega
  have hn' : ((n : ℤ) + 1 - 1).toNat = n := by omega
  rw [hn, hn', monthStart]

/-- **The next date has the next number.** -/
theorem dayNumber_next (h : d.Valid) : dayNumber d.next = dayNumber d + 1 := by
  obtain ⟨hmonth, hmonth', hday, hday'⟩ := h
  have hstep := monthStart_toNat_succ d.year hmonth
  unfold Date.next
  split
  · unfold dayNumber
    dsimp only
    omega
  · have hlast : d.day = daysInMonth d.year d.month := by omega
    split
    · have hnext : (d.month + 1 - 1).toNat = d.month.toNat := by omega
      unfold dayNumber
      dsimp only
      rw [hnext, hstep]
      omega
    · have htwelve : d.month = 12 := by omega
      have hyear := monthStart_twelve d.year
      have hsucc := yearStart_succ d.year
      rw [htwelve] at hstep hlast
      change monthStart d.year 12 = _ at hstep
      unfold dayNumber
      dsimp only
      change yearStart (d.year + 1) + 0 + 1 - 1 = _
      rw [htwelve]
      omega

theorem monthStart_mono (y : ℤ) {a b : ℕ} (h : a ≤ b) : monthStart y a ≤ monthStart y b := by
  induction b, h using Nat.le_induction with
  | base => exact le_refl _
  | succ b _ ih =>
    have hlen := daysInMonth_pos y (b + 1)
    rw [monthStart]
    omega

theorem dayNumber_mem_month (h : d.Valid) :
    yearStart d.year + monthStart d.year (d.month - 1).toNat ≤ dayNumber d ∧
      dayNumber d < yearStart d.year + monthStart d.year d.month.toNat := by
  have hstep := monthStart_toNat_succ d.year h.one_le_month
  have hday := h.one_le_day
  have hday' := h.day_le
  unfold dayNumber
  omega

theorem dayNumber_mem_year (h : d.Valid) :
    yearStart d.year ≤ dayNumber d ∧ dayNumber d < yearStart (d.year + 1) := by
  obtain ⟨hge, hlt⟩ := dayNumber_mem_month h
  have hzero := monthStart_mono d.year (Nat.zero_le (d.month - 1).toNat)
  have hmonth := h.month_le
  have htwelve := monthStart_mono d.year (by omega : d.month.toNat ≤ 12)
  rw [monthStart] at hzero
  rw [monthStart_twelve] at htwelve
  rw [yearStart_succ]
  omega

theorem yearStart_mono {y y' : ℤ} (h : y ≤ y') : yearStart y ≤ yearStart y' := by
  unfold yearStart
  omega

/-- **A later date has a larger number.** -/
theorem dayNumber_lt (hd : d.Valid) (he : e.Valid) (h : d.Before e) : dayNumber d < dayNumber e := by
  rcases h with hyear | ⟨hyear, hmonth | ⟨hmonth, hday⟩⟩
  · have hd' := (dayNumber_mem_year hd).2
    have he' := (dayNumber_mem_year he).1
    have hle := yearStart_mono (by omega : d.year + 1 ≤ e.year)
    omega
  · have hd' := (dayNumber_mem_month hd).2
    have he' := (dayNumber_mem_month he).1
    have hone := hd.one_le_month
    have hle := monthStart_mono e.year (by omega : d.month.toNat ≤ (e.month - 1).toNat)
    rw [hyear] at hd'
    omega
  · unfold dayNumber
    rw [hyear, hmonth]
    omega

theorem before_trichotomy (d e : Date) : d.Before e ∨ d = e ∨ e.Before d := by
  obtain ⟨y, m, k⟩ := d
  obtain ⟨y', m', k'⟩ := e
  simp only [Date.Before, Date.mk.injEq]
  omega

/-- **Different dates have different numbers.** -/
theorem eq_of_dayNumber_eq (hd : d.Valid) (he : e.Valid) (h : dayNumber d = dayNumber e) : d = e := by
  rcases before_trichotomy d e with hlt | heq | hlt
  · exact absurd h (dayNumber_lt hd he hlt).ne
  · exact heq
  · exact absurd h.symm (dayNumber_lt he hd hlt).ne

/-! ## 3. Years that begin in March -/

/-- The year that a month belongs to, where January and February belong to the year before. -/
def marchYear (y m : ℤ) : ℤ := if m ≤ 2 then y - 1 else y

/-- The months from March. -/
def marchMonth (m : ℤ) : ℤ := if m ≤ 2 then m + 9 else m - 3

/-- **The number of a day** from the beginning of its year in March. -/
theorem dayNumber_eq_march (hm : 1 ≤ d.month) (hm' : d.month ≤ 12) :
    dayNumber d = 365 * marchYear d.year d.month + marchYear d.year d.month / 4 -
      marchYear d.year d.month / 100 + marchYear d.year d.month / 400 +
        (153 * marchMonth d.month + 2) / 5 + (d.day - 1) - 719468 := by
  obtain ⟨n, hn⟩ : ∃ n : ℕ, d.month = n + 1 := ⟨(d.month - 1).toNat, by omega⟩
  have hcount : (d.month - 1).toNat = n := by omega
  rw [dayNumber, hcount, monthStart_eq d.year (by omega), yearStart, marchYear, marchMonth, leapDay_eq, hn]
  by_cases hjanuary : n + 1 ≤ 2
  · rw [if_pos (by omega)]
    split <;> omega
  · rw [if_neg (by omega)]
    split <;> omega

/-! ## 4. The date of a number -/

/-- **The year of an era** of 400 years, from the centuries, the groups of four years and the rest.  Only the
last year of a group has 366 days, and of the last group only that of the last century. -/
theorem yearOfEra_eq {c q t e doe : ℤ} (hc : 0 ≤ c ∧ c ≤ 3) (hq : 0 ≤ q ∧ q ≤ 24) (ht : 0 ≤ t ∧ t ≤ 3)
    (he : 0 ≤ e ∧ e ≤ 365) (hleap : e = 365 → t = 3 ∧ (q = 24 → c = 3))
    (hdoe : doe = 36524 * c + 1461 * q + 365 * t + e) :
    (doe - doe / 1460 + doe / 36524 - doe / 146096) / 365 = 100 * c + 4 * q + t := by
  have hlast : doe / 146096 = if c = 3 ∧ q = 24 ∧ t = 3 ∧ e = 365 then 1 else 0 := by
    split <;> omega
  have hcentury : doe / 36524 = c + if c = 3 ∧ q = 24 ∧ t = 3 ∧ e = 365 then 1 else 0 := by
    split <;> omega
  have hgroup : doe / 1460 = 25 * c + q + if q + 24 * c + 365 * t + e < 1460 then 0 else 1 := by
    split <;> omega
  rw [hlast, hcentury, hgroup]
  split <;> split <;> omega

theorem exists_yearOfEra {doe : ℤ} (hdoe : 0 ≤ doe) (hdoe' : doe ≤ 146096) :
    ∃ c q t e : ℤ, (0 ≤ c ∧ c ≤ 3) ∧ (0 ≤ q ∧ q ≤ 24) ∧ (0 ≤ t ∧ t ≤ 3) ∧ (0 ≤ e ∧ e ≤ 365) ∧
      (e = 365 → t = 3 ∧ (q = 24 → c = 3)) ∧ doe = 36524 * c + 1461 * q + 365 * t + e := by
  obtain ⟨c, hc⟩ : ∃ c, c = min 3 (doe / 36524) := ⟨_, rfl⟩
  obtain ⟨q, hq⟩ : ∃ q, q = (doe - 36524 * c) / 1461 := ⟨_, rfl⟩
  obtain ⟨t, ht⟩ : ∃ t, t = min 3 ((doe - 36524 * c - 1461 * q) / 365) := ⟨_, rfl⟩
  exact ⟨c, q, t, doe - 36524 * c - 1461 * q - 365 * t, by omega, by omega, by omega, by omega, by omega,
    by omega⟩

/-- The year of an era that a day is in. -/
def yearOfEra (doe : ℤ) : ℤ := (doe - doe / 1460 + doe / 36524 - doe / 146096) / 365

/-- The day of such a year. -/
def dayOfYear (doe : ℤ) : ℤ := doe - (365 * yearOfEra doe + yearOfEra doe / 4 - yearOfEra doe / 100)

/-- The month from March that a day of a year is in. -/
def monthOfYear (doy : ℤ) : ℤ := (5 * doy + 2) / 153

/-- **The date of a number.** -/
def civil (n : ℤ) : Date :=
  let era := (n + 719468) / 146097
  let doe := (n + 719468) % 146097
  let mp := monthOfYear (dayOfYear doe)
  let month := if mp < 10 then mp + 3 else mp - 9
  { year := yearOfEra doe + era * 400 + if month ≤ 2 then 1 else 0
    month := month
    day := dayOfYear doe - (153 * mp + 2) / 5 + 1 }

/-- A day of an era is in a year, and the day of it only the 366th if the next calendar year is a leap year. -/
theorem yearOfEra_spec (doe : ℤ) (hdoe : 0 ≤ doe) (hdoe' : doe ≤ 146096) :
    0 ≤ yearOfEra doe ∧ yearOfEra doe ≤ 399 ∧ 0 ≤ dayOfYear doe ∧ dayOfYear doe ≤ 365 ∧
      (dayOfYear doe = 365 → (yearOfEra doe + 1) % 4 = 0 ∧
        ((yearOfEra doe + 1) % 100 ≠ 0 ∨ (yearOfEra doe + 1) % 400 = 0)) := by
  obtain ⟨c, q, t, e, hc, hq, ht, he, hleap, hsum⟩ := exists_yearOfEra hdoe hdoe'
  have hyear : yearOfEra doe = 100 * c + 4 * q + t := yearOfEra_eq hc hq ht he hleap hsum
  have hfour : (100 * c + 4 * q + t) / 4 = 25 * c + q := by omega
  have hhundred : (100 * c + 4 * q + t) / 100 = c := by omega
  have hday : dayOfYear doe = e := by
    rw [dayOfYear, hyear, hfour, hhundred]
    omega
  rw [hday, hyear]
  omega

theorem monthOfYear_spec {doy : ℤ} (hdoy : 0 ≤ doy) (hdoy' : doy ≤ 365) :
    0 ≤ monthOfYear doy ∧ monthOfYear doy ≤ 11 ∧ (153 * monthOfYear doy + 2) / 5 ≤ doy ∧
      doy < (153 * monthOfYear doy + 155) / 5 := by
  unfold monthOfYear
  omega

/-- The months from March have as many days as are between their places. -/
theorem daysInMonth_march (y : ℤ) {mp : ℤ} (hmp : 0 ≤ mp) (hmp' : mp ≤ 10) :
    daysInMonth y (if mp < 10 then mp + 3 else mp - 9) = (153 * mp + 155) / 5 - (153 * mp + 2) / 5 := by
  interval_cases mp <;> rfl

/-- **The date of a number is a date.** -/
theorem civil_valid (n : ℤ) : (civil n).Valid := by
  obtain ⟨doe, hdoe⟩ : ∃ doe, (n + 719468) % 146097 = doe := ⟨_, rfl⟩
  obtain ⟨era, hera⟩ : ∃ era, (n + 719468) / 146097 = era := ⟨_, rfl⟩
  obtain ⟨hyoe, hyoe', hdoy, hdoy', hleap⟩ := yearOfEra_spec doe (by omega) (by omega)
  obtain ⟨hmp, hmp', hstart, hend⟩ := monthOfYear_spec hdoy hdoy'
  simp only [civil, hdoe, hera]
  obtain ⟨yoe, hyoe_eq⟩ : ∃ yoe, yearOfEra doe = yoe := ⟨_, rfl⟩
  obtain ⟨doy, hdoy_eq⟩ : ∃ doy, dayOfYear doe = doy := ⟨_, rfl⟩
  obtain ⟨mp, hmp_eq⟩ : ∃ mp, monthOfYear doy = mp := ⟨_, rfl⟩
  simp only [hyoe_eq, hdoy_eq, hmp_eq] at *
  refine ⟨by dsimp only; split <;> omega, by dsimp only; split <;> omega, by dsimp only; omega, ?_⟩
  dsimp only
  by_cases hfebruary : mp ≤ 10
  · rw [daysInMonth_march _ hmp hfebruary]
    omega
  · -- the last day of the year in March is there in leap years
    obtain rfl : mp = 11 := by omega
    change doy - 337 + 1 ≤ 28 + leapDay (yoe + era * 400 + 1)
    have hyear : leapDay (yoe + era * 400 + 1) = leapDay (yoe + 1) := by
      rw [leapDay_eq, leapDay_eq]
      omega
    rw [hyear]
    by_cases hlast : doy = 365
    · have hone : leapDay (yoe + 1) = 1 := if_pos (hleap hlast)
      omega
    · have hmem := leapDay_mem (yoe + 1)
      omega

/-- **The date of a number has the number.** -/
theorem dayNumber_civil (n : ℤ) : dayNumber (civil n) = n := by
  have hvalid := civil_valid n
  rw [dayNumber_eq_march hvalid.one_le_month hvalid.month_le]
  obtain ⟨doe, hdoe⟩ : ∃ doe, (n + 719468) % 146097 = doe := ⟨_, rfl⟩
  obtain ⟨era, hera⟩ : ∃ era, (n + 719468) / 146097 = era := ⟨_, rfl⟩
  obtain ⟨hyoe, hyoe', hdoy, hdoy', -⟩ := yearOfEra_spec doe (by omega) (by omega)
  obtain ⟨hmp, hmp', -, -⟩ := monthOfYear_spec hdoy hdoy'
  have hday : dayOfYear doe = doe - (365 * yearOfEra doe + yearOfEra doe / 4 - yearOfEra doe / 100) := rfl
  simp only [civil, hdoe, hera]
  obtain ⟨yoe, hyoe_eq⟩ : ∃ yoe, yearOfEra doe = yoe := ⟨_, rfl⟩
  obtain ⟨doy, hdoy_eq⟩ : ∃ doy, dayOfYear doe = doy := ⟨_, rfl⟩
  obtain ⟨mp, hmp_eq⟩ : ∃ mp, monthOfYear doy = mp := ⟨_, rfl⟩
  simp only [hyoe_eq, hdoy_eq, hmp_eq] at *
  have hmonth : marchMonth (if mp < 10 then mp + 3 else mp - 9) = mp := by
    unfold marchMonth
    split <;> split <;> omega
  have hyear : marchYear (yoe + era * 400 + if (if mp < 10 then mp + 3 else mp - 9) ≤ 2 then 1 else 0)
      (if mp < 10 then mp + 3 else mp - 9) = yoe + era * 400 := by
    unfold marchYear
    split <;> omega
  have hfour : (yoe + era * 400) / 4 = yoe / 4 + 100 * era := by omega
  have hhundred : (yoe + era * 400) / 100 = yoe / 100 + 4 * era := by omega
  have hera_eq : (yoe + era * 400) / 400 = era := by omega
  rw [hmonth, hyear, hfour, hhundred, hera_eq]
  omega

theorem civil_dayNumber (h : d.Valid) : civil (dayNumber d) = d :=
  eq_of_dayNumber_eq (civil_valid _) h (dayNumber_civil _)

/-! ## 5. Weekdays -/

end Cccl.Gregorian
