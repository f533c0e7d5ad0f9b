/-
# Weekdays, `year_month_weekday` and `year_month_weekday_last`

A day can also be named as the n-th, or the last, such weekday of a month.  Both conversions go over the first
or last day of the month, whose weekday is subtracted modulo seven.

All three names of a day and its number are the same thing (`CalendarExact`), if the sums that shift the month
may go around (`calendarExact_wrapping`).  They do go around, so in the strict reading of the arithmetic there
is no date from the first days on (`not_calendarExact_strict`).
-/
import Cccl.Chrono.YearMonthDay

namespace Cccl.Chrono

open Gregorian

/-! ## 1. `weekday` -/

def weekdayFromDays (n : ℤ) : Option ℤ := do
  let w ← if -4 ≤ n then (intResult (n + 4)).map (Int.tmod · 7)
    else (intResult (n + 5)).bind fun v => intResult (v.tmod 7 + 6)
  some (byte (toUnsigned w))

/-- `operator++`. -/
def weekdaySucc (w : ℤ) : ℤ := if w = 6 then 0 else w + 1

/-- `operator-` of two weekdays. -/
def weekdaySub (lhs rhs : ℤ) : Option ℤ := do
  let wdu ← intResult (lhs - rhs)
  let wk ← quotient 7 wdu
  let days ← intResult (wk * 7)
  intResult (wdu - days)

/-! ## 2. `year_month_weekday` -/

structure YearMonthWeekday where
  year : ℤ
  month : ℤ
  weekday : ℤ
  index : ℤ
  deriving DecidableEq

namespace YearMonthWeekday

def fromDays (sum : UnsignedSum) (n : ℤ) : Option YearMonthWeekday := do
  let wd ← weekdayFromDays n
  let ymd ← YearMonthDay.fromDays sum n
  let day ← unsignedResult (ymd.day - 1)
  let index ← unsignedResult (day / 7 + 1)
  some ⟨ymd.year, ymd.month, wd, byte index⟩

def toDays (sum : UnsignedSum) (w : YearMonthWeekday) : Option ℤ := do
  let sysd ← YearMonthDay.toDays sum ⟨w.year, w.month, 1⟩
  let wd ← weekdayFromDays sysd
  let diff ← weekdaySub w.weekday wd
  let weeks ← unsignedResult (w.index - 1)
  let days ← unsignedResult (weeks * 7)
  let shift ← intResult (diff + Int.bmod days 4294967296)
  intResult (sysd + shift)

def ok (sum : UnsignedSum) (w : YearMonthWeekday) : Option Bool :=
  if !yearOk w.year || !monthOk w.month || !(w.weekday ≤ 6 && 1 ≤ w.index && w.index ≤ 5) then some false
  else if w.index ≤ 4 then some true
  else do
    let sysd ← YearMonthDay.toDays sum ⟨w.year, w.month, 1⟩
    let wd ← weekdayFromDays sysd
    let diff ← weekdaySub w.weekday wd
    let weeks ← unsignedResult (w.index - 1)
    let days ← unsignedResult (weeks * 7)
    let days1 ← unsignedResult (days + 1)
    let nth ← intResult (diff + Int.bmod days1 4294967296)
    some (toUnsigned nth ≤ lastDay w.year w.month)

end YearMonthWeekday

/-! ## 3. `year_month_weekday_last` -/

structure YearMonthWeekdayLast where
  year : ℤ
  month : ℤ
  weekday : ℤ
  deriving DecidableEq

namespace YearMonthWeekdayLast

def toDays (sum : UnsignedSum) (w : YearMonthWeekdayLast) : Option ℤ := do
  let last ← YearMonthDay.toDays sum ⟨w.year, w.month, lastDay w.year w.month⟩
  let wd ← weekdayFromDays last
  let diff ← weekdaySub wd w.weekday
  intResult (last - diff)

def ok (w : YearMonthWeekdayLast) : Bool := yearOk w.year && monthOk w.month && w.weekday ≤ 6

end YearMonthWeekdayLast

/-! ## 4. What is exact -/

/-- **Numbers and names of days are the same**, and no operation overflows on the way. -/
structure CalendarExact (sum : UnsignedSum) : Prop where
  /-- A number of a civil year that `year` has, to a date and back. -/
  date_of_days : ∀ n, yearOk (civil n).year = true →
    ∃ d, YearMonthDay.fromDays sum n = some d ∧ d.ok = true ∧ d.toDays sum = some n
  days_of_date : ∀ d : YearMonthDay, d.ok = true →
    ∃ n, d.toDays sum = some n ∧ YearMonthDay.fromDays sum n = some d
  consecutive : ∀ d : YearMonthDay, d.ok = true → YearMonthDay.ok d.next = true →
    ∃ n, d.toDays sum = some n ∧ YearMonthDay.toDays sum d.next = some (n + 1)
  monotone : ∀ d e : YearMonthDay, d.ok = true → e.ok = true → d.Before e →
    ∃ n k, d.toDays sum = some n ∧ e.toDays sum = some k ∧ n < k
  weekday_of_days : ∀ n, yearOk (civil n).year = true →
    ∃ w, YearMonthWeekday.fromDays sum n = some w ∧ w.ok sum = some true ∧ w.toDays sum = some n
  days_of_weekday : ∀ w : YearMonthWeekday, 0 ≤ w.weekday → w.ok sum = some true →
    ∃ n, w.toDays sum = some n ∧ YearMonthWeekday.fromDays sum n = some w
  /-- The check itself does not overflow. -/
  ok_defined : ∀ w : YearMonthWeekday, 0 ≤ w.weekday → w.ok sum ≠ none
  weekday_succ : ∀ n, yearOk (civil n).year = true →
    ∃ w, weekdayFromDays n = some w ∧ weekdayFromDays (n + 1) = some (weekdaySucc w)
  /-- The last such weekday of its month. -/
  last_weekday : ∀ w : YearMonthWeekdayLast, 0 ≤ w.weekday → w.ok = true →
    ∃ n d, w.toDays sum = some n ∧ YearMonthDay.fromDays sum n = some d ∧ d.ok = true ∧
      d.year = w.year ∧ d.month = w.month ∧ weekdayFromDays n = some w.weekday ∧
        ∀ e : YearMonthDay, e.ok = true → e.year = w.year → e.month = w.month → d.day < e.day →
          ∃ k, e.toDays sum = some k ∧ weekdayFromDays k ≠ some w.weekday

/-! ## 5. Weekdays -/

theorem weekdayFromDays_eq {n : ℤ} (h : -2147483648 ≤ n) (h' : n ≤ 2147483643) :
    weekdayFromDays n = some ((n + 4) % 7) := by
  have hrange := Int.emod_nonneg (n + 4) (by decide : (7 : ℤ) ≠ 0)
  have hrange' := Int.emod_lt_of_pos (n + 4) (by decide : (0 : ℤ) < 7)
  have hbyte : byte (toUnsigned ((n + 4) % 7)) = (n + 4) % 7 := by
    rw [toUnsigned_of hrange (by omega), byte, Int.emod_eq_of_lt hrange (by omega)]
  unfold weekdayFromDays
  split
  · rw [intResult_of (by omega) (by omega), Option.map_some, Int.tmod_eq_emod_of_nonneg (by omega)]
    exact congrArg some hbyte
  · have hflip : n + 5 = -(-n - 5) := by omega
    have htmod : (n + 5).tmod 7 + 6 = (n + 4) % 7 := by
      rw [hflip, Int.neg_tmod, Int.tmod_eq_emod_of_nonneg (by omega)]
      omega
    rw [intResult_of (by omega) (by omega), Option.bind_some, htmod, intResult_of (by omega) (by omega)]
    exact congrArg some hbyte

theorem weekdaySub_eq {l r : ℤ} (hl : 0 ≤ l ∧ l ≤ 6) (hr : 0 ≤ r ∧ r ≤ 6) :
    weekdaySub l r = some ((l - r) % 7) := by
  have hquotient : quotient 7 (l - r) = some ((l - r) / 7) :=
    quotient_eq (by decide) (by omega) (by omega)
  rw [weekdaySub, bind_intResult, bind_of_eq_some _ hquotient, bind_intResult, intResult_of]
  · exact congrArg some (by omega)
  all_goals omega

/-! ## 6. The conversions -/

theorem dayNumber_of_first (y m k : ℤ) : dayNumber ⟨y, m, k⟩ = dayNumber ⟨y, m, 1⟩ + k - 1 := by
  unfold dayNumber
  dsimp only
  omega

theorem range_of_ok {d : YearMonthDay} (h : d.ok = true) : -12687428 ≤ dayNumber d ∧ dayNumber d ≤ 11248737 := by
  obtain ⟨hyear, hvalid⟩ := YearMonthDay.ok_iff.mp h
  have hcivil := civil_dayNumber hvalid
  exact YearMonthDay.range_of_yearOk (by rw [hcivil]; exact hyear)

theorem fromDays_dayNumber {d : YearMonthDay} (h : d.ok = true) :
    YearMonthDay.fromDays wrapping (dayNumber d) = some d := by
  obtain ⟨hyear, hvalid⟩ := YearMonthDay.ok_iff.mp h
  have hcivil := civil_dayNumber hvalid
  rw [YearMonthDay.fromDays_eq (by rw [hcivil]; exact hyear), hcivil]

theorem civil_ok {n : ℤ} (h : yearOk (civil n).year = true) : YearMonthDay.ok (civil n) = true :=
  YearMonthDay.ok_iff.mpr ⟨h, civil_valid n⟩

theorem ok_of_month {y m k : ℤ} (hy : yearOk y = true) (hm : monthOk m = true) (hk : 1 ≤ k)
    (hk' : k ≤ daysInMonth y m) : YearMonthDay.ok ⟨y, m, k⟩ = true := by
  simp only [monthOk, Bool.and_eq_true, decide_eq_true_eq] at hm
  exact YearMonthDay.ok_iff.mpr ⟨hy, hm.1, hm.2, hk, hk'⟩

namespace YearMonthWeekday

variable {w : YearMonthWeekday}

/-- The days from the first day of the month. -/
def shift (w : YearMonthWeekday) : ℤ :=
  (w.weekday - (dayNumber ⟨w.year, w.month, 1⟩ + 4) % 7) % 7 + (w.index - 1) * 7

theorem toDays_eq (hy : yearOk w.year = true) (hm : monthOk w.month = true) (hw : 0 ≤ w.weekday ∧ w.weekday ≤ 6)
    (hi : 1 ≤ w.index ∧ w.index ≤ 5) :
    w.toDays wrapping = some (dayNumber ⟨w.year, w.month, 1⟩ + w.shift) := by
  have hlen := daysInMonth_pos w.year w.month
  have hfirst := ok_of_month hy hm (le_refl 1) (by omega)
  obtain ⟨hmin, hmax⟩ := range_of_ok hfirst
  obtain ⟨n, hn⟩ : ∃ n, dayNumber ⟨w.year, w.month, 1⟩ = n := ⟨_, rfl⟩
  have hnumber := (YearMonthDay.toDays_eq hfirst).trans (congrArg some hn)
  rw [hn] at hmin hmax
  have hweekday := weekdayFromDays_eq (n := n) (by omega) (by omega)
  have hsub := weekdaySub_eq (r := (n + 4) % 7) hw (by omega)
  unfold shift
  rw [hn, toDays, bind_of_eq_some _ hnumber, bind_of_eq_some _ hweekday, bind_of_eq_some _ hsub,
    bind_unsignedResult, bind_unsignedResult, toInt_of, bind_intResult, intResult_of]
  all_goals omega

theorem ok_of_five (hy : yearOk w.year = true) (hm : monthOk w.month = true) (hw : 0 ≤ w.weekday ∧ w.weekday ≤ 6)
    (hi : w.index = 5) :
    w.ok wrapping = some (decide (w.shift + 1 ≤ daysInMonth w.year w.month)) := by
  have hlen := daysInMonth_pos w.year w.month
  have hfirst := ok_of_month hy hm (le_refl 1) (by omega)
  obtain ⟨hmin, hmax⟩ := range_of_ok hfirst
  obtain ⟨n, hn⟩ : ∃ n, dayNumber ⟨w.year, w.month, 1⟩ = n := ⟨_, rfl⟩
  have hnumber := (YearMonthDay.toDays_eq hfirst).trans (congrArg some hn)
  rw [hn] at hmin hmax
  have hweekday := weekdayFromDays_eq (n := n) (by omega) (by omega)
  have hsub := weekdaySub_eq (r := (n + 4) % 7) hw (by omega)
  have hguard : (!yearOk w.year || !monthOk w.month || !(decide (w.weekday ≤ 6) && decide (1 ≤ w.index) &&
      decide (w.index ≤ 5))) = false := by
    rw [hy, hm, decide_eq_true hw.2, decide_eq_true (by omega : 1 ≤ w.index),
      decide_eq_true (by omega : w.index ≤ 5)]
    rfl
  simp only [monthOk, Bool.and_eq_true, decide_eq_true_eq] at hm
  unfold shift
  rw [hn, ok, hguard, if_neg Bool.false_ne_true, if_neg (by omega), bind_of_eq_some _ hnumber,
    bind_of_eq_some _ hweekday, bind_of_eq_some _ hsub, bind_unsignedResult, bind_unsignedResult,
    bind_unsignedResult, toInt_of, bind_intResult, toUnsigned_of, lastDay_eq _ hm.1 hm.2]
  · exact congrArg some (decide_eq_decide.mpr (by omega))
  all_goals omega

/-- **Which weekdays of a month are ok**: those that are in the month. -/
theorem ok_eq (hw : 0 ≤ w.weekday) : w.ok wrapping = some (yearOk w.year && monthOk w.month &&
    decide (w.weekday ≤ 6 ∧ 1 ≤ w.index ∧ w.index ≤ 5 ∧ w.shift + 1 ≤ daysInMonth w.year w.month)) := by
  cases hy : yearOk w.year with
  | false =>
    rw [ok, hy]
    rfl
  | true =>
    cases hm : monthOk w.month with
    | false =>
      rw [ok, hy, hm]
      rfl
    | true =>
      by_cases hfields : w.weekday ≤ 6 ∧ 1 ≤ w.index ∧ w.index ≤ 5
      swap
      · have hguard : (decide (w.weekday ≤ 6) && decide (1 ≤ w.index) && decide (w.index ≤ 5)) = false := by
          rw [Bool.eq_false_iff, ne_eq, Bool.and_eq_true, Bool.and_eq_true, decide_eq_true_eq, decide_eq_true_eq,
            decide_eq_true_eq, and_assoc]
          exact hfields
        rw [ok, hy, hm, hguard, decide_eq_false fun h => hfields ⟨h.1, h.2.1, h.2.2.1⟩]
        rfl
      · obtain ⟨hw', hi, hi'⟩ := hfields
        by_cases hfive : w.index = 5
        · rw [ok_of_five hy hm ⟨hw, hw'⟩ hfive]
          exact congrArg some (decide_eq_decide.mpr ⟨fun h => ⟨hw', hi, hi', h⟩, fun h => h.2.2.2⟩)
        · -- the first four weeks are in every month
          have hlen := daysInMonth_pos w.year w.month
          have hshift : w.shift + 1 ≤ daysInMonth w.year w.month := by
            unfold shift
            omega
          have hall : w.weekday ≤ 6 ∧ 1 ≤ w.index ∧ w.index ≤ 5 ∧ w.shift + 1 ≤ daysInMonth w.year w.month :=
            ⟨hw', hi, hi', hshift⟩
          have hguard : (!true || !true || !(true && true && true)) = false := rfl
          rw [decide_eq_true hall, ok, hy, hm, decide_eq_true hw', decide_eq_true hi, decide_eq_true hi', hguard,
            if_neg Bool.false_ne_true, if_pos (by omega)]
          rfl

theorem fromDays_eq {n : ℤ} (h : yearOk (civil n).year = true) : fromDays wrapping n =
    some ⟨(civil n).year, (civil n).month, (n + 4) % 7, ((civil n).day - 1) / 7 + 1⟩ := by
  obtain ⟨hmin, hmax⟩ := YearMonthDay.range_of_yearOk h
  obtain ⟨-, -, hday, hday'⟩ := civil_valid n
  have hlen := daysInMonth_pos (civil n).year (civil n).month
  have hweekday := weekdayFromDays_eq (n := n) (by omega) (by omega)
  have hymd : YearMonthDay.fromDays wrapping n = some (civil n) := YearMonthDay.fromDays_eq h
  have hbyte : byte (((civil n).day - 1) / 7 + 1) = ((civil n).day - 1) / 7 + 1 :=
    Int.emod_eq_of_lt (by omega) (by omega)
  rw [fromDays, bind_of_eq_some _ hweekday, hymd, Option.bind_eq_bind, Option.bind_some, bind_unsignedResult,
    bind_unsignedResult, hbyte]
  all_goals omega

theorem shift_of_days {n : ℤ} (w : YearMonthWeekday)
    (h : w = ⟨(civil n).year, (civil n).month, (n + 4) % 7, ((civil n).day - 1) / 7 + 1⟩) :
    dayNumber ⟨w.year, w.month, 1⟩ + w.shift = n ∧ w.shift = (civil n).day - 1 := by
  have hnumber := dayNumber_civil n
  rw [dayNumber_of_first] at hnumber
  subst h
  unfold shift
  dsimp only
  omega

end YearMonthWeekday

namespace YearMonthWeekdayLast

variable {w : YearMonthWeekdayLast}

/-- The last day of the month. -/
def last (w : YearMonthWeekdayLast) : ℤ := dayNumber ⟨w.year, w.month, daysInMonth w.year w.month⟩

theorem toDays_eq (hy : yearOk w.year = true) (hm : monthOk w.month = true)
    (hw : 0 ≤ w.weekday ∧ w.weekday ≤ 6) :
    w.toDays wrapping = some (w.last - ((w.last + 4) % 7 - w.weekday) % 7) := by
  have hlen := daysInMonth_pos w.year w.month
  have hok := ok_of_month hy hm (by omega) (le_refl (daysInMonth w.year w.month))
  obtain ⟨hmin, hmax⟩ := range_of_ok hok
  have hnumber := YearMonthDay.toDays_eq hok
  change -12687428 ≤ w.last at hmin
  change w.last ≤ 11248737 at hmax
  change _ = some w.last at hnumber
  have hweekday := weekdayFromDays_eq (n := w.last) (by omega) (by omega)
  have hsub := weekdaySub_eq (l := (w.last + 4) % 7) (by omega) hw
  simp only [monthOk, Bool.and_eq_true, decide_eq_true_eq] at hm
  rw [toDays, lastDay_eq _ hm.1 hm.2, bind_of_eq_some _ hnumber, bind_of_eq_some _ hweekday, bind_of_eq_some _ hsub,
    intResult_of]
  all_goals omega

end YearMonthWeekdayLast

/-! ## 7. All conversions -/

/-- **The calendar is exact**, with sums that may go around. -/
theorem calendarExact_wrapping : CalendarExact wrapping where
  date_of_days n h := ⟨civil n, YearMonthDay.fromDays_eq h, civil_ok h, by
    rw [YearMonthDay.toDays_eq (civil_ok h), dayNumber_civil]⟩
  days_of_date d h := ⟨dayNumber d, YearMonthDay.toDays_eq h, fromDays_dayNumber h⟩
  consecutive d h hnext := ⟨dayNumber d, YearMonthDay.toDays_eq h, by
    rw [YearMonthDay.toDays_eq hnext, dayNumber_next (YearMonthDay.ok_iff.mp h).2]⟩
  monotone d e hd he h := ⟨dayNumber d, dayNumber e, YearMonthDay.toDays_eq hd, YearMonthDay.toDays_eq he,
    dayNumber_lt (YearMonthDay.ok_iff.mp hd).2 (YearMonthDay.ok_iff.mp he).2 h⟩
  weekday_of_days n h := by
    obtain ⟨hmonth, hmonth', hday, hday'⟩ := civil_valid n
    have hm : monthOk (civil n).month = true := by simp [monthOk, hmonth, hmonth']
    have hlen := daysInMonth_pos (civil n).year (civil n).month
    obtain ⟨w, hw⟩ : ∃ w : YearMonthWeekday,
        w = ⟨(civil n).year, (civil n).month, (n + 4) % 7, ((civil n).day - 1) / 7 + 1⟩ := ⟨_, rfl⟩
    obtain ⟨hsum, hshift⟩ := YearMonthWeekday.shift_of_days w hw
    have hweekday : w.weekday = (n + 4) % 7 := by rw [hw]
    have hindex : w.index = ((civil n).day - 1) / 7 + 1 := by rw [hw]
    have hyear_eq : w.year = (civil n).year := by rw [hw]
    have hmonth_eq : w.month = (civil n).month := by rw [hw]
    refine ⟨w, by rw [hw]; exact YearMonthWeekday.fromDays_eq h, ?_, ?_⟩
    · rw [YearMonthWeekday.ok_eq (by omega), hyear_eq, hmonth_eq, h, hm, decide_eq_true (by omega)]
      rfl
    · rw [YearMonthWeekday.toDays_eq (by rw [hyear_eq]; exact h) (by rw [hmonth_eq]; exact hm) (by omega) (by omega),
        hsum]
  days_of_weekday w hw hok := by
    rw [YearMonthWeekday.ok_eq hw, Option.some.injEq, Bool.and_eq_true, Bool.and_eq_true, decide_eq_true_eq] at hok
    obtain ⟨⟨hy, hm⟩, hw', hi, hi', hlast⟩ := hok
    have hshift : 0 ≤ w.shift := by
      unfold YearMonthWeekday.shift
      omega
    have hday := ok_of_month hy hm (by omega : 1 ≤ w.shift + 1) hlast
    obtain ⟨n, hn⟩ : ∃ n, dayNumber ⟨w.year, w.month, 1⟩ + w.shift = n := ⟨_, rfl⟩
    have hnumber : dayNumber ⟨w.year, w.month, w.shift + 1⟩ = n := by
      rw [dayNumber_of_first]
      omega
    have hcivil : civil n = ⟨w.year, w.month, w.shift + 1⟩ := by
      rw [← hnumber]
      exact civil_dayNumber (YearMonthDay.ok_iff.mp hday).2
    refine ⟨n, ?_, ?_⟩
    · rw [YearMonthWeekday.toDays_eq hy hm ⟨hw, hw'⟩ ⟨hi, hi'⟩, hn]
    · rw [YearMonthWeekday.fromDays_eq (by rw [hcivil]; exact hy), hcivil]
      have hweekday : (n + 4) % 7 = w.weekday := by
        rw [← hn, YearMonthWeekday.shift]
        omega
      have hindex : (w.shift + 1 - 1) / 7 + 1 = w.index := by
        unfold YearMonthWeekday.shift
        omega
      dsimp only
      rw [hweekday, hindex]
  ok_defined w hw := by
    rw [YearMonthWeekday.ok_eq hw]
    exact Option.some_ne_none _
  weekday_succ n h := by
    obtain ⟨hmin, hmax⟩ := YearMonthDay.range_of_yearOk h
    refine ⟨(n + 4) % 7, weekdayFromDays_eq (by omega) (by omega), ?_⟩
    rw [weekdayFromDays_eq (by omega) (by omega), weekdaySucc]
    split <;> refine congrArg some ?_ <;> omega
  last_weekday w hw hok := by
    rw [YearMonthWeekdayLast.ok, Bool.and_eq_true, Bool.and_eq_true, decide_eq_true_eq] at hok
    obtain ⟨⟨hy, hm⟩, hw'⟩ := hok
    have hlen := daysInMonth_pos w.year w.month
    obtain ⟨n, hn⟩ : ∃ n, w.last - ((w.last + 4) % 7 - w.weekday) % 7 = n := ⟨_, rfl⟩
    have hlast : w.last = dayNumber ⟨w.year, w.month, 1⟩ + daysInMonth w.year w.month - 1 :=
      dayNumber_of_first _ _ _
    obtain ⟨k, hk⟩ : ∃ k, n - dayNumber ⟨w.year, w.month, 1⟩ + 1 = k := ⟨_, rfl⟩
    have hday := ok_of_month hy hm (by omega : 1 ≤ k) (by omega)
    have hnumber : dayNumber ⟨w.year, w.month, k⟩ = n := by
      rw [dayNumber_of_first]
      omega
    obtain ⟨hmin, hmax⟩ := range_of_ok hday
    rw [hnumber] at hmin hmax
    refine ⟨n, ⟨w.year, w.month, k⟩, ?_, ?_, hday, rfl, rfl, ?_, ?_⟩
    · rw [YearMonthWeekdayLast.toDays_eq hy hm ⟨hw, hw'⟩, hn]
    · rw [← hnumber]
      exact fromDays_dayNumber hday
    · rw [weekdayFromDays_eq (by omega) (by omega)]
      exact congrArg some (by omega)
    · -- a later day of the month is less than a week later
      rintro ⟨y, m, j⟩ he rfl rfl hlater
      obtain ⟨-, hvalid⟩ := YearMonthDay.ok_iff.mp he
      have hj := hvalid.day_le
      dsimp only at hlater hj
      obtain ⟨hmin', hmax'⟩ := range_of_ok he
      refine ⟨_, YearMonthDay.toDays_eq he, ?_⟩
      rw [weekdayFromDays_eq (by omega) (by omega), ne_eq, Option.some.injEq, dayNumber_of_first]
      omega

/-- In the strict reading, the first day of 1970 has no date: the month is found as 10 + 4294967287. -/
theorem not_calendarExact_strict : ¬ CalendarExact strict := by
  intro h
  obtain ⟨d, hd, -⟩ := h.date_of_days 0 (by decide)
  have hnone : YearMonthDay.fromDays strict 0 = none := by decide
  exact absurd (hnone.symm.trans hd) (by simp)

end Cccl.Chrono
