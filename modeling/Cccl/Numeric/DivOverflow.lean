/-
# `div_overflow`

The quotient of two integers, which is rounded towards zero, as a value of a third type, and whether it is one.  Of two
signed numbers only one quotient is not a number of their type: the least number by minus one.  Other operands are divided
by their magnitudes.  So no division is undefined, and the quotient is compared with the limit on the side of its sign
(`divOverflow_eq`).
-/
import Cccl.Numeric.MulOverflow

namespace Cccl.Numeric

open IntegerTypes

/-! ## 1. The function -/

section

variable (m : DataModel) (T A L R : IntegerType)

/-- `/` of two values of a type.  There is no quotient by zero, and none that the type does not have. -/
def divide (x y : ℤ) : Option ℤ :=
  if y ≠ 0 ∧ T.promoted.Has m (x.tdiv y) then some (x.tdiv y) else none

/-- `__is_div_representable_v`. -/
def isDivRepresentable : Bool :=
  (L.bits m < A.bits m && R.bits m < A.bits m && A.signed) ||
    (L.bits m ≤ A.bits m && R.bits m ≤ A.bits m && !L.signed && !R.signed && !A.signed)

/-- The branch for inputs that the result type represents. -/
def divRepresentable (lhs rhs : ℤ) : Option OverflowResult :=
  (divide m A (A.staticCast m lhs) (A.staticCast m rhs)).map fun result => ⟨A.staticCast m result, false⟩

/-- The branch for signed inputs. -/
def divSigned (lhs rhs : ℤ) : Option OverflowResult :=
  if lhs = L.min m ∧ rhs = -1 then
    let negLhsMin := Cmath.uabs m L (L.min m)
    some ⟨A.staticCast m negLhsMin, cmpLess m A L.makeUnsigned (A.max m) negLhsMin⟩
  else
    let common := commonType m L R
    (divide m common (common.staticCast m lhs) (common.staticCast m rhs)).map fun result =>
      overflowCast m A common.promoted result

/-- The branch for inputs that are not negative. -/
def divPositive (lhs rhs : ℤ) : Option OverflowResult :=
  let unsignedCommon := (commonType m L R).makeUnsigned
  (divide m unsignedCommon (unsignedCommon.staticCast m lhs) (unsignedCommon.staticCast m rhs)).map fun result =>
    ⟨A.staticCast m result, cmpLess m A unsignedCommon.promoted (A.max m) result⟩

/-- The branch for inputs of opposite signs. -/
def divMixed (lhs rhs : ℤ) : Option OverflowResult :=
  let common := arithmeticType m L.makeUnsigned R.makeUnsigned
  (divide m common (common.staticCast m (Cmath.uabs m L lhs)) (common.staticCast m (Cmath.uabs m R rhs))).map fun div =>
    let result := Cmath.neg m A (A.staticCast m div)
    if !A.signed then ⟨result, decide (div ≠ 0)⟩
    else ⟨result, cmpLess m A.makeUnsigned common.promoted (Cmath.uabs m A (A.min m)) div⟩

/-- `div_overflow`.  The divisor is asserted not to be zero. -/
def divOverflow (lhs rhs : ℤ) : Option OverflowResult :=
  let lhsGeZero := !L.signed || decide (0 ≤ lhs)
  let rhsGeZero := !R.signed || decide (0 ≤ rhs)
  if rhs = 0 then none
  else if isDivRepresentable m A L R then divRepresentable m A lhs rhs
  else if L.signed && R.signed then divSigned m A L R lhs rhs
  else if lhsGeZero && rhsGeZero then divPositive m A L R lhs rhs
  else divMixed m A L R lhs rhs

end

variable {m : DataModel} {T U A L R : IntegerType} {lhs rhs : ℤ}

/-! ## 2. Quotients -/

theorem divide_of_has (hrhs : rhs ≠ 0) (h : T.Has m (lhs.tdiv rhs)) : divide m T lhs rhs = some (lhs.tdiv rhs) :=
  if_pos ⟨hrhs, IntegerType.has_promoted h⟩

/-- **Only one quotient** of two numbers of a signed type is not a number of the type. -/
theorem has_tdiv (hT : T.signed = true) (hl : T.Has m lhs) (h : ¬(lhs = T.min m ∧ rhs = -1)) :
    T.Has m (lhs.tdiv rhs) := by
  have hpow : 0 < 2 ^ T.digits m := Nat.two_pow_pos _
  have hmax := natAbs_le_two_pow hl
  rcases Nat.lt_or_ge rhs.natAbs 2 with hone | hmore
  · obtain rfl | rfl | rfl : rhs = 0 ∨ rhs = 1 ∨ rhs = -1 := by omega
    · rw [Int.tdiv_zero]
      exact has_zero
    · rwa [Int.tdiv_one]
    · rw [Int.tdiv_neg, Int.tdiv_one]
      refine has_of_natAbs_lt hT ?_
      have hcast : (2 : ℤ) ^ T.digits m = ((2 ^ T.digits m : ℕ) : ℤ) := (Nat.cast_pow 2 _).symm
      rw [IntegerType.min, if_pos hT, hcast] at h
      have hlt := hl.lt
      rw [hcast] at hlt
      omega
  · refine has_of_natAbs_lt hT ?_
    rw [Int.natAbs_tdiv]
    change lhs.natAbs / rhs.natAbs < _
    have hhalf := Nat.div_le_div_left hmore (by decide) (a := lhs.natAbs)
    omega

/-- A quotient of numbers that are not negative is at most the first one. -/
theorem tdiv_natCast (a b : ℕ) : (a : ℤ).tdiv b = ((a / b : ℕ) : ℤ) := rfl

theorem has_natCast_of_le {a b : ℕ} (h : T.Has m b) (hle : a ≤ b) : T.Has m a :=
  has_iff_le_limit.mpr ((Int.ofNat_le.mpr hle).trans h.2)

/-! ## 3. The branches -/

theorem divRepresentable_eq (hrep : isDivRepresentable m A L R = true) (hl : L.Has m lhs) (hr : R.Has m rhs)
    (hrhs : rhs ≠ 0) : divRepresentable m A lhs rhs = some (exactResult m A (lhs.tdiv rhs)) := by
  have hall : A.Has m lhs ∧ A.Has m rhs ∧ A.Has m (lhs.tdiv rhs) := by
    rw [isDivRepresentable, Bool.or_eq_true] at hrep
    rcases hrep with hwider | hunsigned
    · simp only [Bool.and_eq_true, decide_eq_true_eq] at hwider
      obtain ⟨⟨hL, hR⟩, hA⟩ := hwider
      have hdigits := IntegerType.digits_of_signed (m := m) hA
      have hfits : ∀ {T : IntegerType} {v : ℤ}, T.bits m < A.bits m → v.natAbs < 2 ^ T.bits m → A.Has m v :=
        fun hT hv => has_of_natAbs_lt hA (hv.trans_le (Nat.pow_le_pow_right (by decide) (by omega)))
      exact ⟨hfits hL (natAbs_lt_two_pow hl), hfits hR (natAbs_lt_two_pow hr),
        hfits hL ((Int.natAbs_tdiv_le_natAbs lhs rhs).trans_lt (natAbs_lt_two_pow hl))⟩
    · simp only [Bool.and_eq_true, decide_eq_true_eq, Bool.not_eq_true'] at hunsigned
      obtain ⟨⟨⟨⟨hL, hR⟩, hLu⟩, hRu⟩, hAu⟩ := hunsigned
      have hfits : ∀ {T : IntegerType} {n : ℕ}, T.bits m ≤ A.bits m → T.Has m n → A.Has m n := fun hT hn => by
        rw [IntegerType.has_natCast_iff, IntegerType.digits_of_unsigned hAu]
        exact (natAbs_lt_two_pow hn).trans_le (Nat.pow_le_pow_right (by decide) hT)
      obtain ⟨a, rfl⟩ := Int.eq_ofNat_of_zero_le (nonneg_of_unsigned hl hLu)
      obtain ⟨b, rfl⟩ := Int.eq_ofNat_of_zero_le (nonneg_of_unsigned hr hRu)
      exact ⟨hfits hL hl, hfits hR hr, has_natCast_of_le (hfits hL hl) (Nat.div_le_self a b)⟩
  obtain ⟨hlA, hrA, hquotient⟩ := hall
  rw [divRepresentable, IntegerType.staticCast_of_has hlA, IntegerType.staticCast_of_has hrA,
    divide_of_has hrhs hquotient, exactResult, decide_eq_true hquotient]
  rfl

theorem divSigned_eq (hL : L.signed = true) (hR : R.signed = true) (hl : L.Has m lhs) (hr : R.Has m rhs)
    (hrhs : rhs ≠ 0) : divSigned m A L R lhs rhs = some (exactResult m A (lhs.tdiv rhs)) := by
  unfold divSigned
  split
  · rename_i hleast
    obtain ⟨rfl, rfl⟩ := hleast
    have hnat : -(L.min m) = ((L.min m).natAbs : ℤ) := (Int.ofNat_natAbs_of_nonpos min_le_zero).symm
    have habs : L.makeUnsigned.Has m ((L.min m).natAbs : ℤ) := IntegerType.has_of_le hl.natAbs_le
    dsimp only
    rw [Int.tdiv_neg, Int.tdiv_one, hnat, Cmath.uabs_eq hl, cmpLess_eq has_max habs, exactResult, ← decide_not]
    refine congrArg some (congrArg _ (decide_eq_decide.mpr ?_))
    rw [has_iff_le_limit, not_le]
  · rename_i hnot
    have hsigned := signed_commonType (m := m) hL hR
    obtain ⟨hdL, hdR⟩ := digits_le_commonType (m := m) (T := L) (U := R)
    have hquotient := (has_tdiv hL hl hnot).of_digits hdL fun _ => hsigned
    dsimp only
    rw [IntegerType.staticCast_of_has (hl.of_digits hdL fun _ => hsigned),
      IntegerType.staticCast_of_has (hr.of_digits hdR fun _ => hsigned), divide_of_has hrhs hquotient, Option.map_some,
      overflowCast_eq (IntegerType.has_promoted hquotient)]

theorem divPositive_eq {a b : ℕ} (hl : L.Has m a) (hr : R.Has m b) (hb : (b : ℤ) ≠ 0) :
    divPositive m A L R a b = some (exactResult m A ((a : ℤ).tdiv b)) := by
  obtain ⟨hmaxL, hmaxR⟩ := max_le_commonType (m := m) (T := L) (U := R)
  have hhas : ∀ {T : IntegerType} {n : ℕ}, T.max m ≤ (commonType m L R).max m → T.Has m n →
      (commonType m L R).makeUnsigned.Has m n := fun hmax hn => by
    have hcommon : (commonType m L R).Has m _ :=
      has_iff_le_limit.mpr (hn.2.trans (Int.ofNat_le.mpr hmax))
    exact IntegerType.has_of_le hcommon.natAbs_le
  have hquotient : (commonType m L R).makeUnsigned.Has m ((a : ℤ).tdiv b) :=
    has_natCast_of_le (hhas hmaxL hl) (Nat.div_le_self a b)
  rw [divPositive, IntegerType.staticCast_of_has (hhas hmaxL hl), IntegerType.staticCast_of_has (hhas hmaxR hr),
    divide_of_has hb hquotient, Option.map_some, cmpLess_eq has_max (IntegerType.has_promoted hquotient), exactResult,
    ← decide_not]
  refine congrArg some (congrArg _ (decide_eq_decide.mpr ?_))
  rw [tdiv_natCast, has_iff_le_limit, not_le]

theorem divMixed_eq (hl : L.Has m lhs) (hr : R.Has m rhs) (hrhs : rhs ≠ 0)
    (hneg : lhs.tdiv rhs = -((lhs.natAbs / rhs.natAbs : ℕ) : ℤ)) :
    divMixed m A L R lhs rhs = some (exactResult m A (lhs.tdiv rhs)) := by
  obtain ⟨U, hU⟩ : ∃ U, U = arithmeticType m L.makeUnsigned R.makeUnsigned := ⟨_, rfl⟩
  obtain ⟨hmaxL, hmaxR⟩ := max_le_arithmeticType (m := m) (T := L.makeUnsigned) (U := R.makeUnsigned)
  rw [← hU] at hmaxL hmaxR
  have hlU : U.Has m lhs.natAbs := IntegerType.has_of_le (hl.natAbs_le.trans hmaxL)
  have hrU : U.Has m rhs.natAbs := IntegerType.has_of_le (hr.natAbs_le.trans hmaxR)
  have hdiv : U.Has m ((lhs.natAbs : ℤ).tdiv rhs.natAbs) := has_natCast_of_le hlU (Nat.div_le_self _ _)
  have hne : (rhs.natAbs : ℤ) ≠ 0 := by exact_mod_cast Int.natAbs_ne_zero.mpr hrhs
  rw [divMixed, ← hU, Cmath.uabs_eq hl, Cmath.uabs_eq hr, IntegerType.staticCast_of_has hlU,
    IntegerType.staticCast_of_has hrU, divide_of_has hne hdiv, Option.map_some, tdiv_natCast, hneg]
  rw [tdiv_natCast] at hdiv
  generalize lhs.natAbs / rhs.natAbs = n at hdiv
  have hvalue : Cmath.neg m A (A.staticCast m n) = A.staticCast m (-n) := by
    have hhas : A.Has m (Cmath.neg m A (A.staticCast m n)) := IntegerType.has_staticCast _
    refine (IntegerType.staticCast_eq hhas ?_).symm
    have hsum := Int.dvd_add (Cmath.dvd_neg_add (m := m) (T := A) (A.staticCast m n))
      (Int.dvd_neg.mpr (IntegerType.dvd_staticCast_sub (m := m) (T := A) n))
    have hflip := Int.dvd_neg.mpr hsum
    rwa [show -(Cmath.neg m A (A.staticCast m n) + A.staticCast m n + -(A.staticCast m n - n)) =
      -(n : ℤ) - Cmath.neg m A (A.staticCast m n) by ring] at hflip
  have hhas : A.Has m (-n) ↔ (n : ℤ) ≤ (A.min m).natAbs := has_neg_iff_le_limit
  rw [hvalue, exactResult, ← decide_not]
  refine congrArg some ?_
  split
  · rename_i hunsigned
    have hmin : A.min m = 0 := by
      rw [Bool.not_eq_true'] at hunsigned
      rw [IntegerType.min, if_neg (by rw [hunsigned]; decide)]
    refine congrArg _ (decide_eq_decide.mpr ?_)
    rw [hhas, hmin]
    omega
  · have hlimit : A.makeUnsigned.Has m ((A.min m).natAbs : ℤ) := IntegerType.has_of_le has_min.natAbs_le
    rw [Cmath.uabs_eq has_min, cmpLess_eq hlimit (IntegerType.has_promoted hdiv)]
    refine congrArg _ (decide_eq_decide.mpr ?_)
    rw [hhas, not_le]

theorem tdiv_eq_neg (h : lhs ≤ 0 ∧ 0 ≤ rhs ∨ 0 ≤ lhs ∧ rhs ≤ 0) :
    lhs.tdiv rhs = -((lhs.natAbs / rhs.natAbs : ℕ) : ℤ) := by
  rw [← tdiv_natCast]
  rcases h with ⟨hl, hr⟩ | ⟨hl, hr⟩
  · rw [Int.ofNat_natAbs_of_nonpos hl, Int.natAbs_of_nonneg hr, Int.neg_tdiv, neg_neg]
  · rw [Int.ofNat_natAbs_of_nonpos hr, Int.natAbs_of_nonneg hl, Int.tdiv_neg, neg_neg]

/-- **`div_overflow` is exact.** -/
theorem divOverflow_eq (hl : L.Has m lhs) (hr : R.Has m rhs) (hrhs : rhs ≠ 0) :
    divOverflow m A L R lhs rhs = some (exactResult m A (lhs.tdiv rhs)) := by
  have hpositive : ∀ {T : IntegerType} {v : ℤ}, T.Has m v → (!T.signed || decide (0 ≤ v)) = true → 0 ≤ v := by
    intro T v hv h
    rw [Bool.or_eq_true, Bool.not_eq_true', decide_eq_true_eq] at h
    exact h.elim (nonneg_of_unsigned hv) id
  unfold divOverflow
  dsimp only
  rw [if_neg hrhs]
  split
  · rename_i hrep
    exact divRepresentable_eq hrep hl hr hrhs
  split
  · rename_i hsigned
    rw [Bool.and_eq_true] at hsigned
    exact divSigned_eq hsigned.1 hsigned.2 hl hr hrhs
  rename_i hsigned
  split
  · rename_i hboth
    rw [Bool.and_eq_true] at hboth
    obtain ⟨a, rfl⟩ := Int.eq_ofNat_of_zero_le (hpositive hl hboth.1)
    obtain ⟨b, rfl⟩ := Int.eq_ofNat_of_zero_le (hpositive hr hboth.2)
    exact divPositive_eq hl hr hrhs
  · rename_i hmixed
    refine divMixed_eq hl hr hrhs (tdiv_eq_neg ?_)
    rw [Bool.and_eq_true, not_and_or, Bool.not_eq_true, Bool.not_eq_true] at hsigned
    rcases hsigned with hL | hR
    · have hlPos := nonneg_of_unsigned hl hL
      refine Or.inr ⟨hlPos, ?_⟩
      by_contra hrPos
      rw [hL, decide_eq_true (Int.not_le.mp hrPos).le, Bool.or_true] at hmixed
      exact hmixed rfl
    · have hrPos := nonneg_of_unsigned hr hR
      refine Or.inl ⟨?_, hrPos⟩
      by_contra hlPos
      rw [hR, decide_eq_true (Int.not_le.mp hlPos).le, Bool.or_true] at hmixed
      exact hmixed rfl

/-- **`mul_overflow` and `div_overflow` are exact**: the value is the product or the quotient modulo the width of the
result type, and the overflow says that it is another one.  Without 128-bit integers all types have at most 64 bits. -/
theorem mul_div_overflow_exact (m : DataModel) (A L R : IntegerType) (lhs rhs : ℤ) (hl : L.Has m lhs)
    (hr : R.Has m rhs) :
    (∀ hasInt128 : Bool, A.bits m ≤ Cmath.uintmaxBits hasInt128 → L.bits m ≤ Cmath.uintmaxBits hasInt128 →
      R.bits m ≤ Cmath.uintmaxBits hasInt128 →
      mulOverflow m A L R hasInt128 lhs rhs = some (exactResult m A (lhs * rhs))) ∧
    (rhs ≠ 0 → divOverflow m A L R lhs rhs = some (exactResult m A (lhs.tdiv rhs))) :=
  ⟨fun _ hA hL hR => mulOverflow_eq hl hr hA hL hR, fun hrhs => divOverflow_eq hl hr hrhs⟩

/-- The least number by minus one, and times minus one. -/
theorem mul_div_overflow_exact_min :
    mulOverflow .lp64 ⟨.long, true⟩ ⟨.long, true⟩ ⟨.int, true⟩ false (-2 ^ 63) (-1) = some ⟨-2 ^ 63, true⟩ ∧
      divOverflow .lp64 ⟨.long, true⟩ ⟨.long, true⟩ ⟨.int, true⟩ (-2 ^ 63) (-1) = some ⟨-2 ^ 63, true⟩ := by
  obtain ⟨hmul, hdiv⟩ := mul_div_overflow_exact .lp64 ⟨.long, true⟩ ⟨.long, true⟩ ⟨.int, true⟩ (-2 ^ 63) (-1)
    (by decide) (by decide)
  exact ⟨hmul false (by decide) (by decide) (by decide), hdiv (by decide)⟩

end Cccl.Numeric
