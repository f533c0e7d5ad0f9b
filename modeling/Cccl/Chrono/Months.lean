/-
# Adding months

A month and a year are twelve times the year and the month, and months are added to that number (`YearMonth.plus_eq`).  So
the sums of months behave as sums of numbers do, in all four types that have a month and a year.

The compound operators of `year_month` are an exception.  Those of the other types assign the sum; these add to the month
alone, which goes around, and the year stays as it is.  So they leave the sum if and only if no year is carried
(`months_consistent_iff`).
-/
import Cccl.Chrono.YearMonthWeekday

namespace Cccl.Chrono

open Gregorian

/-! ## 1. `month` and `year_month` -/

/-- `__add_clamped`; the numbers are of `long long`, and far from its bounds. -/
def addClamped (month add : ℤ) : ℤ :=
  let mu := month + (add - 1)
  let yr := (if 0 ≤ mu then mu else mu - 11).tdiv 12
  byte (mu - yr * 12 + 1)

structure YearMonth where
  year : ℤ
  month : ℤ
  deriving DecidableEq

namespace YearMonth

/-- `operator+` with months. -/
def plus (x : YearMonth) (months : ℤ) : Option YearMonth := do
  let first ← intResult (x.month - 1)
  let dmi ← intResult (first + months)
  let years ← quotient 12 dmi
  let whole ← intResult (years * 12)
  let rest ← intResult (dmi - whole)
  let dmi ← intResult (rest + 1)
  let y ← intResult (x.year + years)
  some ⟨Chrono.year y, byte (toUnsigned dmi)⟩

/-- `operator-` with months. -/
def minus (x : YearMonth) (months : ℤ) : Option YearMonth := do
  let opposite ← intResult (-months)
  x.plus opposite

/-- `operator-` of two of them: the difference of the months is unsigned, and becomes an `int`. -/
def difference (x y : YearMonth) : Option ℤ := do
  let years ← intResult (x.year - y.year)
  let months := Int.bmod (toUnsigned (x.month - y.month)) 4294967296
  intResult (Int.bmod (years * 12) 4294967296 + months)

/-- `operator+=` with months. -/
def plusAssign (x : YearMonth) (months : ℤ) : Option YearMonth := some ⟨x.year, addClamped x.month months⟩

/-- `operator-=` with months. -/
def minusAssign (x : YearMonth) (months : ℤ) : Option YearMonth := do
  let opposite ← intResult (-months)
  some ⟨x.year, addClamped x.month opposite⟩

end YearMonth

/-! ## 2. The types with more than a month -/

/-- What there is for adding months to a type. -/
structure MonthOperations (α : Type) where
  yearMonth : α → YearMonth
  plus : α → ℤ → Option α
  minus : α → ℤ → Option α
  plusAssign : α → ℤ → Option α
  minusAssign : α → ℤ → Option α

/-- The three types define their operators alike: what a type has besides is put to the sum by `operator/`, and the compound
operators assign the sum or the difference. -/
def assigning {α : Type} (yearMonth : α → YearMonth) (slash : α → YearMonth → α) : MonthOperations α :=
  let plus := fun x months => ((yearMonth x).plus months).map (slash x)
  let minus := fun x months => (intResult (-months)).bind (plus x)
  ⟨yearMonth, plus, minus, plus, minus⟩

namespace YearMonth

def operations : MonthOperations YearMonth := ⟨id, plus, minus, plusAssign, minusAssign⟩

end YearMonth

namespace YearMonthDay

def operations : MonthOperations YearMonthDay :=
  assigning (fun d => ⟨d.year, d.month⟩) fun d x => ⟨x.year, x.month, d.day⟩

end YearMonthDay

structure YearMonthDayLast where
  year : ℤ
  month : ℤ

namespace YearMonthDayLast

def operations : MonthOperations YearMonthDayLast :=
  assigning (fun d => ⟨d.year, d.month⟩) fun _ x => ⟨x.year, x.month⟩

end YearMonthDayLast

namespace YearMonthWeekday

def operations : MonthOperations YearMonthWeekday :=
  assigning (fun d => ⟨d.year, d.month⟩) fun d x => ⟨x.year, x.month, d.weekday, d.index⟩

end YearMonthWeekday

/-! ## 3. Numbers of months -/

namespace YearMonth

variable {x : YearMonth} {m n : ℤ}

/-- The year and the month are ok. -/
def ok (x : YearMonth) : Bool := yearOk x.year && monthOk x.month

/-- The number of a month. -/
def number (x : YearMonth) : ℤ := x.year * 12 + (x.month - 1)

/-- The month with a number. -/
def ofNumber (k : ℤ) : YearMonth := ⟨k / 12, k % 12 + 1⟩

/-- The month so many months later is in the range of years. -/
def Reaches (x : YearMonth) (m : ℤ) : Prop := yearOk (ofNumber (x.number + m)).year = true

theorem yearOk_iff {y : ℤ} : yearOk y = true ↔ -32767 ≤ y ∧ y ≤ 32767 := by
  simp only [yearOk, Bool.and_eq_true, decide_eq_true_eq]

theorem monthOk_iff {month : ℤ} : monthOk month = true ↔ 1 ≤ month ∧ month ≤ 12 := by
  simp only [monthOk, Bool.and_eq_true, decide_eq_true_eq]

theorem ok_iff : x.ok = true ↔ (-32767 ≤ x.year ∧ x.year ≤ 32767) ∧ 1 ≤ x.month ∧ x.month ≤ 12 := by
  rw [ok, Bool.and_eq_true, yearOk_iff, monthOk_iff]

theorem reaches_iff : x.Reaches m ↔ -393204 ≤ x.number + m ∧ x.number + m ≤ 393215 := by
  rw [Reaches, yearOk_iff, ofNumber]
  dsimp only
  omega

theorem number_ofNumber (k : ℤ) : (ofNumber k).number = k := by
  simp only [number, ofNumber]
  omega

theorem ofNumber_number (h : x.ok = true) : ofNumber x.number = x := by
  obtain ⟨-, hmonth⟩ := ok_iff.mp h
  obtain ⟨year, month⟩ := x
  simp only [ofNumber, number, YearMonth.mk.injEq] at hmonth ⊢
  omega

theorem ok_ofNumber (h : x.Reaches m) : (ofNumber (x.number + m)).ok = true := by
  have hyear : yearOk (ofNumber (x.number + m)).year = true := h
  rw [ok, hyear, Bool.true_and, monthOk_iff, ofNumber]
  dsimp only
  omega

/-- **Months are added to the number of a month.** -/
theorem plus_eq (hx : x.ok = true) (hm : x.Reaches m) : x.plus m = some (ofNumber (x.number + m)) := by
  obtain ⟨hyear, hmonth⟩ := ok_iff.mp hx
  have hrange := reaches_iff.mp hm
  unfold number at hrange
  have hquotient : quotient 12 (x.month - 1 + m) = some ((x.month - 1 + m) / 12) :=
    quotient_eq (by decide) (by omega) (by omega)
  rw [plus, bind_intResult _ (by omega) (by omega), bind_intResult _ (by omega) (by omega), bind_of_eq_some _ hquotient,
    bind_intResult _ (by omega) (by omega), bind_intResult _ (by omega) (by omega),
    bind_intResult _ (by omega) (by omega), bind_intResult _ (by omega) (by omega)]
  have hmod := Int.emod_add_mul_ediv (x.month - 1 + m) 12
  have hrest : x.month - 1 + m - (x.month - 1 + m) / 12 * 12 + 1 = (x.month - 1 + m) % 12 + 1 := by omega
  have hbounds : 0 ≤ (x.month - 1 + m) % 12 ∧ (x.month - 1 + m) % 12 < 12 := by omega
  rw [hrest, toUnsigned_of (by omega) (by omega), byte, Int.emod_eq_of_lt (by omega) (by omega), Chrono.year,
    Int.bmod_eq_of_le (by omega) (by omega), ofNumber, number, Option.some.injEq, YearMonth.mk.injEq]
  omega

theorem minus_eq (hx : x.ok = true) (hm : x.Reaches (-m)) : x.minus m = some (ofNumber (x.number - m)) := by
  have hrange := reaches_iff.mp hm
  obtain ⟨hyear, hmonth⟩ := ok_iff.mp hx
  unfold number at hrange
  rw [minus, bind_intResult _ (by omega) (by omega), plus_eq hx hm, sub_eq_add_neg]

theorem difference_eq (hx : x.ok = true) (hm : x.Reaches m) : (ofNumber (x.number + m)).difference x = some m := by
  obtain ⟨hyear', hmonth'⟩ := ok_iff.mp (ok_ofNumber hm)
  obtain ⟨hyear, hmonth⟩ := ok_iff.mp hx
  have hnumber := number_ofNumber (x.number + m)
  generalize ofNumber (x.number + m) = y at *
  have hmonths : Int.bmod (toUnsigned (y.month - x.month)) 4294967296 = y.month - x.month := by
    have hbmod := Int.emod_bmod (y.month - x.month) 4294967296
    exact hbmod.trans (Int.bmod_eq_of_le (by omega) (by omega))
  rw [difference, bind_intResult _ (by omega) (by omega), hmonths, Int.bmod_eq_of_le (by omega) (by omega)]
  unfold number at hnumber
  rw [intResult_of (by omega) (by omega), Option.some.injEq]
  omega

theorem addClamped_eq {month : ℤ} : addClamped month m = (month - 1 + m) % 12 + 1 := by
  have htdiv : (if 0 ≤ month + (m - 1) then month + (m - 1) else month + (m - 1) - 11).tdiv 12 =
      (month - 1 + m) / 12 := by
    split
    · rename_i hpos
      rw [Int.tdiv_eq_ediv_of_nonneg hpos]
      omega
    · rename_i hneg
      have hflip : month + (m - 1) - 11 = -(11 - (month + (m - 1))) := by omega
      rw [hflip, Int.neg_tdiv, Int.tdiv_eq_ediv_of_nonneg (by omega)]
      omega
  unfold addClamped
  dsimp only
  rw [htdiv, byte]
  omega

end YearMonth

/-! ## 4. Consistency -/

/-- Sums of months are consistent: they can be put together and taken back, the month is one of twelve, and the compound
operators leave the sum and the difference.  Each is said where the results are in the range of years. -/
structure Consistent {α : Type} (O : MonthOperations α) (x : α) (m n : ℤ) : Prop where
  sum : (O.yearMonth x).Reaches m → (O.yearMonth x).Reaches (m + n) → ∃ y z mn, O.plus x m = some y ∧
    O.plus y n = some z ∧ intResult (m + n) = some mn ∧ O.plus x mn = some z
  back : (O.yearMonth x).Reaches m → ∃ y, O.plus x m = some y ∧ O.minus y m = some x
  month : (O.yearMonth x).Reaches m → ∃ y, O.plus x m = some y ∧ 1 ≤ (O.yearMonth y).month ∧ (O.yearMonth y).month ≤ 12
  plusAssign : (O.yearMonth x).Reaches m → ∃ y, O.plus x m = some y ∧ O.plusAssign x m = some y
  minusAssign : (O.yearMonth x).Reaches (-m) → ∃ y, O.minus x m = some y ∧ O.minusAssign x m = some y

/-- The difference of `x + m` and `x` is `m`. -/
def DifferenceConsistent (x : YearMonth) (m : ℤ) : Prop := x.Reaches m → ∃ y, x.plus m = some y ∧ y.difference x = some m

namespace YearMonth

variable {x : YearMonth} {m n : ℤ}

theorem Reaches.after (h : x.Reaches (m + n)) : (ofNumber (x.number + m)).Reaches n := by
  rw [Reaches, number_ofNumber, add_assoc]
  exact h

theorem Reaches.back (hx : x.ok = true) : (ofNumber (x.number + m)).Reaches (-m) := by
  rw [Reaches, number_ofNumber, add_neg_cancel_right, ofNumber_number hx]
  exact (Bool.and_eq_true_iff.mp hx).1

theorem minus_back (hx : x.ok = true) (hm : x.Reaches m) : (ofNumber (x.number + m)).minus m = some x := by
  rw [minus_eq (ok_ofNumber hm) (Reaches.back hx), number_ofNumber, add_sub_cancel_right, ofNumber_number hx]

theorem plus_plus (hx : x.ok = true) (hm : x.Reaches m) (hn : x.Reaches (m + n)) :
    (ofNumber (x.number + m)).plus n = x.plus (m + n) := by
  rw [plus_eq (ok_ofNumber hm) hn.after, plus_eq hx hn, number_ofNumber, add_assoc]

theorem intResult_of_reaches (hx : x.ok = true) (hm : x.Reaches m) : intResult m = some m := by
  obtain ⟨hyear, hmonth⟩ := ok_iff.mp hx
  have hrange := reaches_iff.mp hm
  unfold number at hrange
  exact intResult_of (by omega) (by omega)

/-- **The compound operator leaves the sum** if and only if no year is carried. -/
theorem assign_iff (hx : x.ok = true) :
    ofNumber (x.number + m) = ⟨x.year, addClamped x.month m⟩ ↔ 1 ≤ x.month + m ∧ x.month + m ≤ 12 := by
  obtain ⟨-, hmonth⟩ := ok_iff.mp hx
  rw [addClamped_eq, ofNumber, number, YearMonth.mk.injEq]
  omega

end YearMonth

/-- **Types that assign the sum** are consistent. -/
theorem consistent_assigning {α : Type} {yearMonth : α → YearMonth} {slash : α → YearMonth → α}
    (hslash : ∀ x y, yearMonth (slash x y) = y) (htwice : ∀ x y z, slash (slash x y) z = slash x z)
    (hself : ∀ x, slash x (yearMonth x) = x) {x : α} (hx : (yearMonth x).ok = true) (m n : ℤ) :
    Consistent (assigning yearMonth slash) x m n := by
  have hplus : ∀ k, (yearMonth x).Reaches k →
      (assigning yearMonth slash).plus x k = some (slash x (YearMonth.ofNumber ((yearMonth x).number + k))) := by
    intro k hk
    change ((yearMonth x).plus k).map (slash x) = _
    rw [YearMonth.plus_eq hx hk, Option.map_some]
  constructor
  · intro hm hmn
    refine ⟨_, _, m + n, hplus m hm, ?_, YearMonth.intResult_of_reaches hx hmn, hplus (m + n) hmn⟩
    change ((yearMonth (slash x _)).plus n).map (slash (slash x _)) = _
    rw [hslash, YearMonth.plus_plus hx hm hmn, YearMonth.plus_eq hx hmn, Option.map_some, htwice]
  · intro hm
    refine ⟨_, hplus m hm, ?_⟩
    have hback := YearMonth.minus_back hx hm
    have hneg : intResult (-m) = some (-m) :=
      YearMonth.intResult_of_reaches (YearMonth.ok_ofNumber hm) (YearMonth.Reaches.back hx)
    change (intResult (-m)).bind (fun k => ((yearMonth (slash x _)).plus k).map (slash (slash x _))) = _
    rw [YearMonth.minus, hneg, Option.bind_eq_bind, Option.bind_some] at hback
    rw [hneg, Option.bind_some, hslash, hback, Option.map_some, htwice, hself]
  · intro hm
    refine ⟨_, hplus m hm, ?_⟩
    change 1 ≤ (yearMonth (slash x _)).month ∧ (yearMonth (slash x _)).month ≤ 12
    rw [hslash]
    exact (YearMonth.ok_iff.mp (YearMonth.ok_ofNumber hm)).2
  · exact fun hm => ⟨_, hplus m hm, hplus m hm⟩
  · intro hm
    have hminus : (assigning yearMonth slash).minus x m =
        some (slash x (YearMonth.ofNumber ((yearMonth x).number + -m))) := by
      change (intResult (-m)).bind ((assigning yearMonth slash).plus x) = _
      rw [YearMonth.intResult_of_reaches hx hm, Option.bind_some, hplus _ hm]
    exact ⟨_, hminus, hminus⟩

/-- **When months are consistent**: always in the types that assign the sum; in `year_month`, all but the compound
operators are, and these are where no year is carried. -/
theorem months_consistent_iff (m n : ℤ) :
    (∀ x : YearMonth, x.ok = true → (Consistent YearMonth.operations x m n ∧ DifferenceConsistent x m ↔
      (x.Reaches m → 1 ≤ x.month + m ∧ x.month + m ≤ 12) ∧
        (x.Reaches (-m) → 1 ≤ x.month - m ∧ x.month - m ≤ 12))) ∧
      (∀ d : YearMonthDay, YearMonth.ok ⟨d.year, d.month⟩ = true → Consistent YearMonthDay.operations d m n) ∧
      (∀ d : YearMonthDayLast, YearMonth.ok ⟨d.year, d.month⟩ = true → Consistent YearMonthDayLast.operations d m n) ∧
      ∀ d : YearMonthWeekday, YearMonth.ok ⟨d.year, d.month⟩ = true → Consistent YearMonthWeekday.operations d m n := by
  refine ⟨fun x hx => ?_, fun d hd => ?_, fun d hd => ?_, fun d hd => ?_⟩
  · have hneg : x.Reaches (-m) → intResult (-m) = some (-m) := YearMonth.intResult_of_reaches hx
    have hassign : ∀ k, x.Reaches k → ((∃ y, x.plus k = some y ∧ some (⟨x.year, addClamped x.month k⟩ : YearMonth) = some y) ↔
        1 ≤ x.month + k ∧ x.month + k ≤ 12) := by
      intro k hk
      rw [YearMonth.plus_eq hx hk, ← YearMonth.assign_iff hx]
      constructor
      · rintro ⟨y, hy, hy'⟩
        exact Option.some.inj (hy.trans hy'.symm)
      · intro heq
        exact ⟨_, rfl, congrArg some heq.symm⟩
    constructor
    · rintro ⟨hconsistent, -⟩
      refine ⟨fun hm => (hassign m hm).mp (hconsistent.plusAssign hm), fun hm => ?_⟩
      obtain ⟨y, hy, hy'⟩ := hconsistent.minusAssign hm
      refine (hassign (-m) hm).mp ⟨y, ?_, ?_⟩
      · change (intResult (-m)).bind x.plus = some y at hy
        rwa [hneg hm, Option.bind_some] at hy
      · change ((intResult (-m)).bind fun k => some _) = some y at hy'
        rwa [hneg hm, Option.bind_some] at hy'
    · rintro ⟨hplus, hminus⟩
      refine ⟨⟨fun hm hmn => ?_, fun hm => ?_, fun hm => ?_, fun hm => (hassign m hm).mpr (hplus hm), fun hm => ?_⟩,
        fun hm => ⟨_, YearMonth.plus_eq hx hm, YearMonth.difference_eq hx hm⟩⟩
      · refine ⟨_, _, m + n, YearMonth.plus_eq hx hm, ?_, YearMonth.intResult_of_reaches hx hmn, YearMonth.plus_eq hx hmn⟩
        exact (YearMonth.plus_plus hx hm hmn).trans (YearMonth.plus_eq hx hmn)
      · exact ⟨_, YearMonth.plus_eq hx hm, YearMonth.minus_back hx hm⟩
      · exact ⟨_, YearMonth.plus_eq hx hm, (YearMonth.ok_iff.mp (YearMonth.ok_ofNumber hm)).2⟩
      · obtain ⟨y, hy, hy'⟩ := (hassign (-m) hm).mpr (hminus hm)
        refine ⟨y, ?_, ?_⟩
        · change (intResult (-m)).bind x.plus = some y
          rw [hneg hm, Option.bind_some, hy]
        · change ((intResult (-m)).bind fun k => some _) = some y
          rw [hneg hm, Option.bind_some, hy']
  all_goals
    refine consistent_assigning ?_ ?_ ?_ ?_ m n
    · exact fun _ _ => rfl
    · exact fun _ _ _ => rfl
    · exact fun _ => rfl
    · exact hd

theorem months_consistent_june : Consistent YearMonth.operations ⟨2024, 6⟩ 3 20 ∧
    Consistent YearMonthDay.operations ⟨2024, 6, 30⟩ 9 (-100) := by
  refine ⟨(((months_consistent_iff 3 20).1 ⟨2024, 6⟩ rfl).mpr ⟨fun _ => ?_, fun _ => ?_⟩).1,
    (months_consistent_iff 9 (-100)).2.1 ⟨2024, 6, 30⟩ rfl⟩
  · decide
  · decide

/-- A month after December. -/
theorem not_months_consistent : ¬ Consistent YearMonth.operations ⟨2024, 12⟩ 1 1 := by
  intro h
  obtain ⟨y, hy, hy'⟩ := h.plusAssign rfl
  exact absurd (hy.trans hy'.symm) (by decide)

end Cccl.Chrono
