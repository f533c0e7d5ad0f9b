/-
# `year_month_day`

A date is turned into a number of days and back with divisions that cut off towards zero, in `int` and
`unsigned`.  Each operation is checked here: a result that its type does not have is no result
(`intResult`, `unsignedResult`).

There is one exception on each way.  The month is shifted by adding a negative number that was made unsigned, so
the sum goes once around; how such a sum is taken is a parameter (`UnsignedSum`).  If it may go around
(`wrapping`), the number of a date is the one of the Gregorian calendar, for all dates of the years that
`year` has (`toDays_eq`), and the date of a number the one of the calendar (`fromDays_eq`).
-/
import Cccl.Lib.Gregorian

namespace Cccl.Chrono

open Gregorian

/-! ## 1. Arithmetic -/

/-- The result of an operation of `int`. -/
def intResult (v : ℤ) : Option ℤ := if -2147483648 ≤ v ∧ v ≤ 2147483647 then some v else none

/-- The result of an operation of `unsigned` that does not go around. -/
def unsignedResult (v : ℤ) : Option ℤ := if 0 ≤ v ∧ v ≤ 4294967295 then some v else none

/-- `static_cast<unsigned>`. -/
def toUnsigned (v : ℤ) : ℤ := v % 4294967296

/-- How two unsigned numbers are added where the month is shifted. -/
abbrev UnsignedSum := ℤ → ℤ → Option ℤ

/-- The sum may go around. -/
def wrapping : UnsignedSum := fun x y => some (toUnsigned (x + y))

/-- The sum may not go around. -/
def strict : UnsignedSum := fun x y => unsignedResult (x + y)

/-- The quotient that is corrected for negative numbers: `(v >= 0 ? v : v - (n - 1)) / n`. -/
def quotient (n v : ℤ) : Option ℤ :=
  if 0 ≤ v then some (v.tdiv n) else (intResult (v - (n - 1))).map (Int.tdiv · n)

/-! ## 2. `year`, `month` and `day` -/

/-- The constructor of `year`, which keeps a `short`. -/
def year (v : ℤ) : ℤ := Int.bmod v 65536

/-- The constructors of `month` and `day`, which keep an `unsigned char`. -/
def byte (v : ℤ) : ℤ := v % 256

/-- `year::ok`. -/
def yearOk (y : ℤ) : Bool := -32767 ≤ y && y ≤ 32767

/-- `month::ok`. -/
def monthOk (m : ℤ) : Bool := 1 ≤ m && m ≤ 12

def isLeap (y : ℤ) : Bool := y.tmod 4 == 0 && (y.tmod 100 != 0 || y.tmod 400 == 0)

def daysPerMonth : List ℤ := [31, 28, 31, 30, 31, 30, 31, 31, 30, 31, 30, 31]

/-- `year_month_day_last::day`, for a month that is ok. -/
def lastDay (y m : ℤ) : ℤ := if m ≠ 2 ∨ isLeap y = false then daysPerMonth.getD (m - 1).toNat 0 else 29

/-! ## 3. `year_month_day` -/

abbrev YearMonthDay := Date

namespace YearMonthDay

def ok (d : YearMonthDay) : Bool :=
  if !yearOk d.year || !monthOk d.month then false else 1 ≤ d.day && d.day ≤ lastDay d.year d.month

def toDays (sum : UnsignedSum) (d : YearMonthDay) : Option ℤ := do
  let yr ← intResult (d.year - if d.month ≤ 2 then 1 else 0)
  let era ← quotient 400 yr
  let eraYears ← intResult (era * 400)
  let yoe ← (intResult (yr - eraYears)).map toUnsigned
  let shifted ← sum d.month (toUnsigned (if d.month > 2 then -3 else 9))
  let scaled ← unsignedResult (153 * shifted)
  let rounded ← unsignedResult (scaled + 2)
  let doy1 ← unsignedResult (rounded / 5 + d.day)
  let doy ← unsignedResult (doy1 - 1)
  let doe1 ← unsignedResult (yoe * 365)
  let doe2 ← unsignedResult (doe1 + yoe / 4)
  let doe3 ← unsignedResult (doe2 - yoe / 100)
  let doe ← unsignedResult (doe3 + doy)
  let eraDays ← intResult (era * 146097)
  let total ← intResult (eraDays + Int.bmod doe 4294967296)
  intResult (total - 719468)

def fromDays (sum : UnsignedSum) (n : ℤ) : Option YearMonthDay := do
  let z ← intResult (n + 719468)
  let era ← quotient 146097 z
  let eraDays ← intResult (era * 146097)
  let doe ← (intResult (z - eraDays)).map toUnsigned
  let yoe1 ← unsignedResult (doe - doe / 1460)
  let yoe2 ← unsignedResult (yoe1 + doe / 36524)
  let yoe3 ← unsignedResult (yoe2 - doe / 146096)
  let yoe := yoe3 / 365
  let eraYears ← intResult (era * 400)
  let yr ← intResult (Int.bmod yoe 4294967296 + eraYears)
  let doy1 ← unsignedResult (365 * yoe)
  let doy2 ← unsignedResult (doy1 + yoe / 4)
  let doy3 ← unsignedResult (doy2 - yoe / 100)
  let doy ← unsignedResult (doe - doy3)
  let mp1 ← unsignedResult (5 * doy)
  let mp2 ← unsignedResult (mp1 + 2)
  let mp := mp2 / 153
  let day1 ← unsignedResult (153 * mp)
  let day2 ← unsignedResult (day1 + 2)
  let day3 ← unsignedResult (doy - day2 / 5)
  let day ← unsignedResult (day3 + 1)
  let mth ← sum mp (toUnsigned (if mp < 10 then 3 else -9))
  let y ← intResult (yr + if mth ≤ 2 then 1 else 0)
  some ⟨year y, byte mth, byte day⟩

end YearMonthDay

/-! ## 4. The operations -/

theorem intResult_of {v : ℤ} (h : -2147483648 ≤ v) (h' : v ≤ 2147483647) : intResult v = some v :=
  if_pos ⟨h, h'⟩

theorem unsignedResult_of {v : ℤ} (h : 0 ≤ v) (h' : v ≤ 4294967295) : unsignedResult v = some v :=
  if_pos ⟨h, h'⟩

theorem toUnsigned_of {v : ℤ} (h : 0 ≤ v) (h' : v ≤ 4294967295) : toUnsigned v = v :=
  Int.emod_eq_of_lt h (by omega)

theorem toInt_of {v : ℤ} (h : 0 ≤ v) (h' : v ≤ 2147483647) : Int.bmod v 4294967296 = v :=
  Int.bmod_eq_of_le (by omega) (by omega)

section Bind

variable {α : Type} {v : ℤ} (f : ℤ → Option α)

/-- An operation that does not overflow is followed by the others. -/
theorem bind_intResult (h : -2147483648 ≤ v) (h' : v ≤ 2147483647) : (intResult v >>= f) = f v := by
  rw [intResult_of h h', Option.bind_eq_bind, Option.bind_some]

theorem bind_unsignedResult (h : 0 ≤ v) (h' : v ≤ 4294967295) : (unsignedResult v >>= f) = f v := by
  rw [unsignedResult_of h h', Option.bind_eq_bind, Option.bind_some]

theorem bind_toUnsigned (h : 0 ≤ v) (h' : v ≤ 2147483647) :
    ((intResult v).map toUnsigned >>= f) = f v := by
  rw [intResult_of (by omega) h', Option.map_some, toUnsigned_of h (by omega), Option.bind_eq_bind,
    Option.bind_some]

theorem bind_of_eq_some {o : Option ℤ} (h : o = some v) : (o >>= f) = f v := by
  rw [h, Option.bind_eq_bind, Option.bind_some]

end Bind

theorem quotient_eq {n v : ℤ} (hn : 0 < n) (h : -2147483648 + n ≤ v) (h' : v ≤ 2147483647) :
    quotient n v = some (v / n) := by
  unfold quotient
  split
  · rename_i hpos
    rw [Int.tdiv_eq_ediv_of_nonneg hpos]
  · rename_i hneg
    have hrem := Int.emod_nonneg v hn.ne'
    have hrem' := Int.emod_lt_of_pos v hn
    have hsum := Int.mul_ediv_add_emod v n
    have hflip : v - (n - 1) = -(n - 1 - v % n + n * -(v / n)) := by
      rw [Int.mul_neg]
      omega
    have hcut : (n - 1 - v % n) / n = 0 := Int.ediv_eq_zero_of_lt (by omega) (by omega)
    have hnonneg : 0 ≤ n - 1 - v % n + n * -(v / n) := by
      rw [Int.mul_neg]
      omega
    rw [intResult_of (by omega) (by omega), Option.map_some, hflip, Int.neg_tdiv,
      Int.tdiv_eq_ediv_of_nonneg hnonneg, Int.add_mul_ediv_left _ _ hn.ne', hcut, Int.zero_add, Int.neg_neg]

theorem isLeap_eq (y : ℤ) : isLeap y = decide (IsLeap y) := by
  have hdvd : ∀ n : ℤ, y.tmod n = 0 ↔ y % n = 0 := fun n => by
    rw [← Int.dvd_iff_tmod_eq_zero, ← Int.dvd_iff_emod_eq_zero]
  rw [Bool.eq_iff_iff, decide_eq_true_iff, isLeap, IsLeap, Bool.and_eq_true, Bool.or_eq_true, beq_iff_eq, bne_iff_ne, beq_iff_eq,
    ne_eq, hdvd, hdvd, hdvd]

/-- **The last day of a month** of the table is the one of the calendar. -/
theorem lastDay_eq (y : ℤ) {m : ℤ} (hm : 1 ≤ m) (hm' : m ≤ 12) : lastDay y m = daysInMonth y m := by
  unfold lastDay daysInMonth leapDay
  rw [isLeap_eq]
  interval_cases m
  case «2» =>
    by_cases h : IsLeap y
    · rw [if_neg (by simp [h]), if_pos rfl, if_pos h]
      rfl
    · rw [if_pos (by simp [h]), if_pos rfl, if_neg h]
      rfl
  all_goals rfl

namespace YearMonthDay

variable {d : YearMonthDay}

/-- A date is ok if it is one of the calendar, of a year that `year` has. -/
theorem ok_iff : ok d = true ↔ yearOk d.year = true ∧ d.Valid := by
  unfold ok
  constructor
  · intro h
    split at h
    · exact absurd h Bool.false_ne_true
    · rename_i hok
      simp only [Bool.or_eq_true, Bool.not_eq_true', not_or, Bool.not_eq_false, monthOk, Bool.and_eq_true,
        decide_eq_true_eq] at hok h
      obtain ⟨hyear, hmonth, hmonth'⟩ := hok
      rw [lastDay_eq _ hmonth hmonth'] at h
      exact ⟨hyear, hmonth, hmonth', h.1, h.2⟩
  · rintro ⟨hyear, hmonth, hmonth', hday, hday'⟩
    have hok : monthOk d.month = true := by simp [monthOk, hmonth, hmonth']
    rw [hyear, hok, lastDay_eq _ hmonth hmonth', decide_eq_true hday, decide_eq_true hday']
    rfl

/-- **The number of a date** is the one of the calendar. -/
theorem toDays_eq (h : ok d = true) : toDays wrapping d = some (dayNumber d) := by
  obtain ⟨hyear, hvalid⟩ := ok_iff.mp h
  obtain ⟨hmonth, hmonth', hday, hday'⟩ := hvalid
  have hlen := (daysInMonth_pos d.year d.month).2
  simp only [yearOk, Bool.and_eq_true, decide_eq_true_eq] at hyear
  rw [dayNumber_eq_march hmonth hmonth']
  obtain ⟨yr, hyr⟩ : ∃ yr, marchYear d.year d.month = yr := ⟨_, rfl⟩
  obtain ⟨mp, hmp⟩ : ∃ mp, marchMonth d.month = mp := ⟨_, rfl⟩
  have hyear_eq : d.year - (if d.month ≤ 2 then 1 else 0) = yr := by
    rw [← hyr, marchYear]
    split <;> omega
  have hyrange : -32768 ≤ yr ∧ yr ≤ 32767 := by
    rw [← hyear_eq]
    split <;> omega
  have hshift : wrapping d.month (toUnsigned (if d.month > 2 then -3 else 9)) = some mp := by
    rw [← hmp, wrapping, marchMonth, toUnsigned, toUnsigned]
    split <;> split <;> refine congrArg some ?_ <;> omega
  have hmrange : 0 ≤ mp ∧ mp ≤ 11 := by
    rw [← hmp, marchMonth]
    split <;> omega
  obtain ⟨era, hera⟩ : ∃ era, yr / 400 = era := ⟨_, rfl⟩
  obtain ⟨yoe, hyoe⟩ : ∃ yoe, yr - era * 400 = yoe := ⟨_, rfl⟩
  have hquotient : quotient 400 yr = some era := by
    rw [← hera]
    exact quotient_eq (by decide) (by omega) (by omega)
  -- the parts stay in the range of the types
  have hera_range : -82 ≤ era ∧ era ≤ 81 := by omega
  have hyoe_range : 0 ≤ yoe ∧ yoe ≤ 399 := by omega
  have hdoy : 0 ≤ (153 * mp + 2) / 5 ∧ (153 * mp + 2) / 5 ≤ 337 := by omega
  obtain ⟨start, hstart⟩ : ∃ start, (153 * mp + 2) / 5 = start := ⟨_, rfl⟩
  rw [hstart] at hdoy
  rw [hyr, hmp, hstart]
  rw [toDays, hyear_eq, bind_intResult, bind_of_eq_some _ hquotient, bind_intResult, hyoe, bind_toUnsigned,
    bind_of_eq_some _ hshift, bind_unsignedResult, bind_unsignedResult, hstart, bind_unsignedResult, bind_unsignedResult, bind_unsignedResult,
    bind_unsignedResult, bind_unsignedResult, bind_unsignedResult, bind_intResult, toInt_of, bind_intResult,
    intResult_of]
  · have hfour : yr / 4 = yoe / 4 + 100 * era := by omega
    have hhundred : yr / 100 = yoe / 100 + 4 * era := by omega
    rw [hfour, hhundred, hera]
    exact congrArg some (by omega)
  all_goals omega

/-- The days of the years that `year` has. -/
theorem range_of_yearOk {n : ℤ} (h : yearOk (civil n).year = true) : -12687428 ≤ n ∧ n ≤ 11248737 := by
  simp only [yearOk, Bool.and_eq_true, decide_eq_true_eq] at h
  obtain ⟨hge, hlt⟩ := dayNumber_mem_year (civil_valid n)
  have hfirst := yearStart_mono h.1
  have hlast := yearStart_mono (by omega : (civil n).year + 1 ≤ 32768)
  have hmin : yearStart (-32767) = -12687428 := by decide
  have hmax : yearStart 32768 = 11248738 := by decide
  rw [dayNumber_civil] at hge hlt
  omega

/-- **The date of a number** is the one of the calendar. -/
theorem fromDays_eq {n : ℤ} (h : yearOk (civil n).year = true) : fromDays wrapping n = some (civil n) := by
  obtain ⟨hmin, hmax⟩ := range_of_yearOk h
  obtain ⟨hmonth, hmonth', hday, hday'⟩ := civil_valid n
  have hlen := (daysInMonth_pos (civil n).year (civil n).month).2
  simp only [yearOk, Bool.and_eq_true, decide_eq_true_eq] at h
  obtain ⟨doe, hdoe⟩ : ∃ doe, (n + 719468) % 146097 = doe := ⟨_, rfl⟩
  obtain ⟨era, hera⟩ : ∃ era, (n + 719468) / 146097 = era := ⟨_, rfl⟩
  have hquotient : quotient 146097 (n + 719468) = some era := by
    rw [← hera]
    exact quotient_eq (by decide) (by omega) (by omega)
  have hdoe_eq : n + 719468 - era * 146097 = doe := by omega
  obtain ⟨hyoe, hyoe', hdoy, hdoy', -⟩ := yearOfEra_spec doe (by omega) (by omega)
  obtain ⟨hmp, hmp', hstart, -⟩ := monthOfYear_spec hdoy hdoy'
  have hyoe_eq : (doe - doe / 1460 + doe / 36524 - doe / 146096) / 365 = yearOfEra doe := rfl
  have hdoy_eq : doe - (365 * yearOfEra doe + yearOfEra doe / 4 - yearOfEra doe / 100) = dayOfYear doe := rfl
  have hmp_eq : (5 * dayOfYear doe + 2) / 153 = monthOfYear (dayOfYear doe) := rfl
  simp only [civil, hdoe, hera] at hmonth hmonth' hday hday' hlen h ⊢
  obtain ⟨yoe, hyoe_def⟩ : ∃ yoe, yearOfEra doe = yoe := ⟨_, rfl⟩
  obtain ⟨doy, hdoy_def⟩ : ∃ doy, dayOfYear doe = doy := ⟨_, rfl⟩
  obtain ⟨mp, hmp_def⟩ : ∃ mp, monthOfYear doy = mp := ⟨_, rfl⟩
  simp only [hyoe_def, hdoy_def, hmp_def] at hyoe hyoe' hdoy hdoy' hmp hmp' hstart
  rw [hyoe_def] at hyoe_eq hdoy_eq
  rw [hdoy_def] at hdoy_eq hmp_eq
  rw [hmp_def] at hmp_eq
  simp only [hyoe_def, hdoy_def, hmp_def] at hmonth hmonth' hday hday' hlen h ⊢
  obtain ⟨month, hmonth_def⟩ : ∃ month, (if mp < 10 then mp + 3 else mp - 9) = month := ⟨_, rfl⟩
  have hshift : wrapping mp (toUnsigned (if mp < 10 then 3 else -9)) = some month := by
    rw [← hmonth_def, wrapping, toUnsigned, toUnsigned]
    split <;> refine congrArg some ?_ <;> omega
  rw [hmonth_def] at hmonth hmonth' hday' hlen h ⊢
  obtain ⟨start, hstart_def⟩ : ∃ start, (153 * mp + 2) / 5 = start := ⟨_, rfl⟩
  rw [hstart_def] at hstart hday hday' ⊢
  have hlast : year (yoe + era * 400 + if month ≤ 2 then 1 else 0) =
      yoe + era * 400 + if month ≤ 2 then 1 else 0 := Int.bmod_eq_of_le (by omega) (by omega)
  rw [fromDays, bind_intResult, bind_of_eq_some _ hquotient, bind_intResult, hdoe_eq, bind_toUnsigned, bind_unsignedResult,
    bind_unsignedResult, bind_unsignedResult, hyoe_eq, bind_intResult, toInt_of, bind_intResult,
    bind_unsignedResult, bind_unsignedResult, bind_unsignedResult, hdoy_eq, bind_unsignedResult,
    bind_unsignedResult, bind_unsignedResult, hmp_eq, bind_unsignedResult, bind_unsignedResult, hstart_def,
    bind_unsignedResult, bind_unsignedResult, bind_of_eq_some _ hshift, bind_intResult, hlast, byte, byte,
    Int.emod_eq_of_lt, Int.emod_eq_of_lt]
  all_goals omega

end YearMonthDay

end Cccl.Chrono
