/-
# `add_overflow`

The sum of two integers as a value of a third type, and whether it is one.  Where the compiler has no such
operation, the sum is computed in a type that is wide enough, and then converted with a check
(`overflow_cast`); or in a type of the same width, where a carry shows in a comparison
(`__add_overflow_generic_impl`).

Six branches share the work, by the signs of the types and of the values.  Five of them are exact
(`overflowCast_eq`, `addOverflowGenericImpl_eq`).  The last one adds a number of an unsigned type and a
negative one.  When the sum is not negative it is below the first number, and the branch takes it that it
cannot be too large.  But the type of the result may be narrower than both: then the overflow is not reported.
So `add_overflow` is exact unless a negative number brings a sum of an unsigned type not below what the result
type has (`addOverflow_eq_iff`).
-/
import Cccl.Cmath.Checked

namespace Cccl.Numeric

open IntegerTypes

/-! ## 1. The functions -/

structure OverflowResult where
  value : ℤ
  overflow : Bool
  deriving DecidableEq

variable (m : DataModel) (T U A L R : IntegerType)

/-- `+` of two values of a type.  A sum of signed numbers that the type does not have is undefined. -/
def plus (x y : ℤ) : Option ℤ :=
  if T.promoted.signed then if T.promoted.Has m (x + y) then some (x + y) else none
  else some (T.promoted.staticCast m (x + y))

def cmpLess (t u : ℤ) : Bool :=
  if T.signed = U.signed then t < u
  else if T.signed then if t < 0 then true else T.makeUnsigned.staticCast m t < u
  else if u < 0 then false else t < U.makeUnsigned.staticCast m u

/-- `in_range` of the first type, for a value of the second one. -/
def inRange (u : ℤ) : Bool := !cmpLess m T U (T.max m) u && !cmpLess m U T u (T.min m)

/-- `__is_integer_representable_v`, from the second type to the first one. -/
def isIntegerRepresentable : Bool :=
  !cmpLess m T U (T.max m) (U.max m) && !cmpLess m U T (U.min m) (T.min m)

/-- `overflow_cast` to the first type from the second one. -/
def overflowCast (v : ℤ) : OverflowResult where
  value := T.staticCast m v
  overflow := if isIntegerRepresentable m T U then false else !inRange m T U v

def addOverflowGenericImpl (lhs rhs : ℤ) : Option OverflowResult :=
  (plus m T.makeUnsigned (T.makeUnsigned.staticCast m lhs) (T.makeUnsigned.staticCast m rhs)).map fun u =>
    { value := T.staticCast m u
      overflow :=
        if T.signed then decide (T.staticCast m u < lhs) == decide (0 ≤ rhs)
        else decide (T.staticCast m u < lhs) }

/-- `__is_add_representable_v`. -/
def isAddRepresentable : Bool :=
  L.bits m < A.bits m && R.bits m < A.bits m && (A.signed || (!L.signed && !R.signed && !A.signed))

def commonAll : IntegerType := commonType m (commonType m L R) A

/-- The branch for inputs that the result type represents. -/
def addRepresentable (lhs rhs : ℤ) : Option OverflowResult :=
  let common := commonAll m A L R
  (plus m common (common.staticCast m lhs) (common.staticCast m rhs)).map fun sum =>
    overflowCast m A common (common.staticCast m sum)

/-- The branches for signed types, and for inputs that are not negative: a sum in a type of the width of
`_CommonAll`, and a conversion. -/
def addNbit (signed : Bool) (lhs rhs : ℤ) : Option OverflowResult :=
  let nbit := IntegerType.ofBits ((commonAll m A L R).bits m) signed
  (addOverflowGenericImpl m nbit (nbit.staticCast m lhs) (nbit.staticCast m rhs)).map fun sum =>
    { value := (overflowCast m A nbit sum.value).value
      overflow := (overflowCast m A nbit sum.value).overflow || sum.overflow }

/-- The branch for negative inputs. -/
def addNegative (lhs rhs : ℤ) : Option OverflowResult :=
  (plus m A (A.staticCast m lhs) (A.staticCast m rhs)).map fun sum => ⟨A.staticCast m sum, true⟩

/-- The branch for signed types and opposite signs. -/
def addOpposite (lhs rhs : ℤ) : Option OverflowResult :=
  let common := commonType m L R
  (plus m common (common.staticCast m lhs) (common.staticCast m rhs)).map fun sum =>
    overflowCast m A common.promoted sum

/-- The branch for an unsigned type and a negative input. -/
def addMixed (lhs rhs : ℤ) : Option OverflowResult :=
  let common := commonAll m A L R
  (plus m common (common.staticCast m lhs) (common.staticCast m rhs)).map fun sum =>
    let sum := common.staticCast m sum
    if (!L.signed && cmpLess m L R.makeUnsigned lhs (Cmath.uabs m R rhs)) ||
        (!R.signed && cmpLess m R L.makeUnsigned rhs (Cmath.uabs m L lhs)) then
      if !A.signed then ⟨A.staticCast m sum, true⟩
      else
        let signedCommon : IntegerType := { commonType m L R with signed := true }
        overflowCast m A signedCommon (signedCommon.staticCast m sum)
    else ⟨A.staticCast m sum, false⟩

/-- `add_overflow`, without the built-in function. -/
def addOverflow (lhs rhs : ℤ) : Option OverflowResult :=
  let isLhsGeZero := !L.signed || decide (0 ≤ lhs)
  let isRhsGeZero := !R.signed || decide (0 ≤ rhs)
  if isAddRepresentable m A L R then addRepresentable m A L R lhs rhs
  else if L.signed && R.signed && A.signed then addNbit m A L R true lhs rhs
  else if isLhsGeZero && isRhsGeZero then addNbit m A L R false lhs rhs
  else if !isLhsGeZero && !isRhsGeZero then addNegative m A lhs rhs
  else if L.signed && R.signed then addOpposite m A L R lhs rhs
  else addMixed m A L R lhs rhs

/-- **The exact result**: the value modulo the width, and whether it is another one. -/
def exactResult (sum : ℤ) : OverflowResult := ⟨A.staticCast m sum, !decide (A.Has m sum)⟩

variable {m T U A L R}

/-! ## 2. Comparisons and conversions -/

theorem cast_makeUnsigned {t : ℤ} (ht : T.Has m t) (hpos : 0 ≤ t) :
    T.makeUnsigned.staticCast m t = t := by
  refine IntegerType.staticCast_of_has ?_
  have habs := ht.natAbs_le
  have hnat : ((t.natAbs : ℕ) : ℤ) = t := Int.natAbs_of_nonneg hpos
  rw [← hnat]
  exact IntegerType.has_of_le habs

/-- **A comparison of values.** -/
theorem cmpLess_eq {t u : ℤ} (ht : T.Has m t) (hu : U.Has m u) : cmpLess m T U t u = decide (t < u) := by
  have hpos : ∀ {V : IntegerType} {v : ℤ}, V.Has m v → V.signed = false → 0 ≤ v := fun hv hV => by
    have hmin := hv.1
    rwa [IntegerType.min, if_neg (by rw [hV]; decide)] at hmin
  unfold cmpLess
  split
  · rfl
  · rename_i hne
    split
    · rename_i hT
      have hu0 := hpos hu (by grind)
      split
      · exact (decide_eq_true (by omega)).symm
      · rw [cast_makeUnsigned ht (by omega)]
    · rename_i hT
      have ht0 := hpos ht (eq_false_of_ne_true hT)
      split
      · exact (decide_eq_false (by omega)).symm
      · rw [cast_makeUnsigned hu (by omega)]

theorem has_max : T.Has m (T.max m) := IntegerType.has_of_le (Nat.le_refl _)

theorem min_le_zero : T.min m ≤ 0 := (IntegerType.has_of_le (Nat.zero_le (T.max m))).1

theorem has_min : T.Has m (T.min m) := ⟨le_refl _, min_le_zero.trans (Int.natCast_nonneg _)⟩

theorem has_of_between {a b v : ℤ} (ha : T.Has m a) (hb : T.Has m b) (hav : a ≤ v) (hvb : v ≤ b) : T.Has m v :=
  ⟨ha.1.trans hav, hvb.trans hb.2⟩

theorem has_zero : T.Has m 0 := IntegerType.has_of_le (Nat.zero_le _)

theorem inRange_eq {u : ℤ} (hu : U.Has m u) : inRange m T U u = decide (T.Has m u) := by
  rw [inRange, cmpLess_eq has_max hu, cmpLess_eq hu has_min]
  by_cases h : T.Has m u
  · rw [decide_eq_true h, decide_eq_false (not_lt.mpr h.2), decide_eq_false (not_lt.mpr h.1)]
    rfl
  · rw [decide_eq_false h]
    by_contra hand
    rw [Bool.not_eq_false, Bool.and_eq_true, Bool.not_eq_true', Bool.not_eq_true', decide_eq_false_iff_not,
      decide_eq_false_iff_not, not_lt, not_lt] at hand
    exact h ⟨hand.2, hand.1⟩

/-- **A checked conversion is exact.** -/
theorem overflowCast_eq {v : ℤ} (hv : U.Has m v) : overflowCast m T U v = exactResult m T v := by
  rw [overflowCast, exactResult, inRange_eq hv]
  split
  · rename_i hrep
    rw [isIntegerRepresentable, cmpLess_eq has_max has_max, cmpLess_eq has_min has_min, Bool.and_eq_true,
      Bool.not_eq_true', Bool.not_eq_true', decide_eq_false_iff_not, decide_eq_false_iff_not, not_lt, not_lt]
      at hrep
    have hT : T.Has m v := ⟨hrep.2.trans hv.1, hv.2.trans hrep.1⟩
    rw [decide_eq_true hT]
    rfl
  · rfl

/-! ## 3. Sums -/

theorem plus_of_has {x y : ℤ} (h : T.Has m (x + y)) : plus m T x y = some (x + y) := by
  have hpromoted := IntegerType.has_promoted h
  rw [plus, if_pos hpromoted, IntegerType.staticCast_of_has hpromoted, ite_self]

/-- **Unsigned numbers are added modulo the width.** -/
theorem plus_unsigned (hT : T.signed = false) {x y : ℤ} (hx : T.Has m x) (hy : T.Has m y) :
    ∃ z, plus m T x y = some z ∧ T.staticCast m z = T.staticCast m (x + y) := by
  unfold plus
  split
  · -- a narrow type is added as `int`
    rename_i hint
    have hnarrow : T.promoted = ⟨.int, true⟩ ∧ T.digits m ≤ 16 := by
      obtain ⟨rank, signed⟩ := T
      revert hT hint
      cases m <;> cases rank <;> cases signed <;> decide
    have hsmall : ∀ {v : ℤ}, T.Has m v → 0 ≤ v ∧ v < 2 ^ 16 := fun hv => by
      have hlt := hv.lt
      have hpow : (2 : ℤ) ^ T.digits m ≤ 2 ^ 16 := pow_le_pow_right₀ (by decide) hnarrow.2
      have hmin := hv.1
      rw [IntegerType.min, if_neg (by rw [hT]; decide)] at hmin
      exact ⟨hmin, hlt.trans_le hpow⟩
    have hsum : T.promoted.Has m (x + y) := by
      have hx' := hsmall hx
      have hy' := hsmall hy
      rw [hnarrow.1]
      cases m
      all_goals exact ⟨by change (-2 ^ 31 : ℤ) ≤ _; omega, by change _ ≤ ((2147483647 : ℕ) : ℤ); omega⟩
    exact ⟨x + y, if_pos hsum, rfl⟩
  · rename_i hword
    have hsame : T.promoted = T := by
      obtain ⟨rank, signed⟩ := T
      revert hword
      cases rank <;> cases signed <;> decide
    rw [hsame]
    exact ⟨_, rfl, IntegerType.staticCast_staticCast (le_refl _) _⟩

/-- **The generic implementation is exact.** -/
theorem addOverflowGenericImpl_eq {lhs rhs : ℤ} (hl : T.Has m lhs) (hr : T.Has m rhs) :
    addOverflowGenericImpl m T lhs rhs = some (exactResult m T (lhs + rhs)) := by
  obtain ⟨z, hz, hcast⟩ := plus_unsigned (m := m) (T := T.makeUnsigned) rfl
    (IntegerType.has_staticCast lhs) (IntegerType.has_staticCast rhs)
  have hvalue : T.staticCast m z = T.staticCast m (lhs + rhs) := by
    have hbits : T.bits m ≤ T.makeUnsigned.bits m := le_refl _
    rw [← IntegerType.staticCast_staticCast hbits z, hcast, IntegerType.staticCast_add_staticCast,
      IntegerType.staticCast_staticCast hbits]
  rw [addOverflowGenericImpl, hz, Option.map_some, hvalue, exactResult]
  refine congrArg some (congrArg (OverflowResult.mk _) ?_)
  obtain ⟨s, hs⟩ : ∃ s, lhs + rhs = s := ⟨_, rfl⟩
  have hpow : (0 : ℤ) < 2 ^ T.digits m := pow_pos (by decide) _
  have hnat : 0 < 2 ^ T.digits m := Nat.two_pow_pos _
  have hmax : (T.max m : ℤ) = 2 ^ T.digits m - 1 := by
    rw [IntegerType.max, Int.natCast_sub hnat, Nat.cast_pow]
    rfl
  rw [hs]
  by_cases hhas : T.Has m s
  · rw [IntegerType.staticCast_of_has hhas, decide_eq_true hhas]
    split
    · by_cases hpos : 0 ≤ rhs
      · rw [decide_eq_true hpos, decide_eq_false (by omega)]
        rfl
      · rw [decide_eq_false hpos, decide_eq_true (by omega)]
        rfl
    · rename_i hunsigned
      have hmin := hr.1
      rw [IntegerType.min, if_neg hunsigned] at hmin
      exact decide_eq_false (by omega)
  · rw [decide_eq_false hhas]
    obtain ⟨hlmin, hlmax⟩ := hl
    obtain ⟨hrmin, hrmax⟩ := hr
    rw [IntegerType.Has, not_and_or, not_le, not_le] at hhas
    split
    · rename_i hsigned
      have hwidth : (2 : ℤ) ^ T.bits m = 2 * 2 ^ T.digits m := by
        rw [← IntegerType.digits_of_signed hsigned, pow_succ, mul_comm]
      rw [IntegerType.min, if_pos hsigned] at hlmin hrmin hhas
      -- the sum is cut on the side of the second number
      rcases hhas with hlow | hhigh
      · have hcut : T.staticCast m s = s + 2 ^ T.bits m := by
          refine IntegerType.staticCast_eq ⟨?_, ?_⟩ ⟨-1, by omega⟩
          · rw [IntegerType.min, if_pos hsigned, hwidth]
            omega
          · rw [hwidth]
            omega
        rw [hcut, decide_eq_false (by omega), decide_eq_false (by omega)]
        rfl
      · have hcut : T.staticCast m s = s - 2 ^ T.bits m := by
          refine IntegerType.staticCast_eq ⟨?_, ?_⟩ ⟨1, by omega⟩
          · rw [IntegerType.min, if_pos hsigned, hwidth]
            omega
          · rw [hwidth]
            omega
        rw [hcut, decide_eq_true (by omega), decide_eq_true (by omega)]
        rfl
    · rename_i hunsigned
      have hwidth : (2 : ℤ) ^ T.bits m = 2 ^ T.digits m := by
        rw [IntegerType.digits_of_unsigned (eq_false_of_ne_true hunsigned)]
      rw [IntegerType.min, if_neg hunsigned] at hlmin hrmin hhas
      have hcut : T.staticCast m s = s - 2 ^ T.bits m := by
        refine IntegerType.staticCast_eq ⟨?_, ?_⟩ ⟨1, by omega⟩
        · rw [IntegerType.min, if_neg hunsigned, hwidth]
          omega
        · rw [hwidth]
          omega
      rw [hcut]
      exact decide_eq_true (by omega)

/-- A sum of numbers with opposite signs has no overflow in any type that is wide enough. -/
theorem plus_opposite {x y : ℤ} (hx : L.Has m x) (hy : R.Has m y) (hL : L.digits m ≤ T.digits m)
    (hR : R.digits m ≤ T.digits m) (hopposite : 0 ≤ x ∧ y < 0 ∨ x < 0 ∧ 0 ≤ y) :
    ∃ z, plus m T (T.staticCast m x) (T.staticCast m y) = some z ∧
      T.staticCast m z = T.staticCast m (x + y) := by
  cases hT : T.signed with
  | true =>
    have hTx : T.Has m x := hx.of_digits hL fun _ => hT
    have hTy : T.Has m y := hy.of_digits hR fun _ => hT
    have hsum : T.Has m (x + y) := by
      rcases hopposite with h | h
      · exact has_of_between hTy hTx (by omega) (by omega)
      · exact has_of_between hTx hTy (by omega) (by omega)
    rw [IntegerType.staticCast_of_has hTx, IntegerType.staticCast_of_has hTy]
    exact ⟨x + y, plus_of_has hsum, rfl⟩
  | false =>
    obtain ⟨z, hz, hcast⟩ := plus_unsigned hT (IntegerType.has_staticCast (m := m) x)
      (IntegerType.has_staticCast (m := m) y)
    exact ⟨z, hz, hcast.trans (IntegerType.staticCast_add_staticCast x y)⟩

/-! ## 4. The branches -/

/-- The types that a sum is computed in are not narrower than the others. -/
theorem bits_le_commonAll : A.bits m ≤ (commonAll m A L R).bits m ∧ L.bits m ≤ (commonAll m A L R).bits m ∧
    R.bits m ≤ (commonAll m A L R).bits m :=
  ⟨bits_le_commonType.2, bits_le_commonType.1.trans bits_le_commonType.1,
    bits_le_commonType.2.trans bits_le_commonType.1⟩

theorem digits_le_commonAll : A.digits m ≤ (commonAll m A L R).digits m ∧
    L.digits m ≤ (commonAll m A L R).digits m ∧ R.digits m ≤ (commonAll m A L R).digits m :=
  ⟨digits_le_commonType.2, digits_le_commonType.1.trans digits_le_commonType.1,
    digits_le_commonType.2.trans digits_le_commonType.1⟩

theorem digits_lt_of_bits_lt (h : L.bits m < A.bits m) : L.digits m < A.digits m := by
  have hL := even_bits (m := m) (T := L)
  have hA := even_bits (m := m) (T := A)
  have hle := IntegerType.digits_le (m := m) (T := L)
  have hsign : A.bits m - 1 ≤ A.digits m := by
    rw [IntegerType.digits]
    cases A.signed
    all_goals simp
  omega

theorem has_add {x y : ℤ} (hx : L.Has m x) (hy : R.Has m y) (hL : L.digits m < T.digits m)
    (hR : R.digits m < T.digits m) (hsigned : L.signed = true ∨ R.signed = true → T.signed = true) :
    T.Has m (x + y) := by
  obtain ⟨d, hd⟩ : ∃ d, T.digits m = d + 1 := ⟨T.digits m - 1, by omega⟩
  have hbound : ∀ {V : IntegerType} {v : ℤ}, V.Has m v → V.digits m ≤ d → -2 ^ d ≤ v ∧ v < 2 ^ d ∧
      (V.signed = false → 0 ≤ v) := fun {V v} hv hV => by
    have hpow : (2 : ℤ) ^ V.digits m ≤ 2 ^ d := pow_le_pow_right₀ (by decide) hV
    have hpos : (0 : ℤ) < 2 ^ d := pow_pos (by decide) _
    have hlt := hv.lt
    have hmin := hv.1
    rw [IntegerType.min] at hmin
    split at hmin
    · rename_i hsign
      exact ⟨by omega, by omega, fun h => absurd hsign (by rw [h]; decide)⟩
    · exact ⟨by omega, by omega, fun _ => hmin⟩
  have hx' := hbound hx (by omega)
  have hy' := hbound hy (by omega)
  have hnat : 0 < 2 ^ T.digits m := Nat.two_pow_pos _
  have hmax : (T.max m : ℤ) = 2 ^ T.digits m - 1 := by
    rw [IntegerType.max, Int.natCast_sub hnat, Nat.cast_pow]
    rfl
  rw [IntegerType.Has, hmax, IntegerType.min, hd, pow_succ]
  split
  · omega
  · rename_i hunsigned
    have hL' : L.signed = false := eq_false_of_ne_true fun h => hunsigned (hsigned (.inl h))
    have hR' : R.signed = false := eq_false_of_ne_true fun h => hunsigned (hsigned (.inr h))
    have hx0 := hx'.2.2 hL'
    have hy0 := hy'.2.2 hR'
    omega

theorem addRepresentable_eq {lhs rhs : ℤ} (hl : L.Has m lhs) (hr : R.Has m rhs)
    (h : isAddRepresentable m A L R = true) :
    addRepresentable m A L R lhs rhs = some (exactResult m A (lhs + rhs)) := by
  simp only [isAddRepresentable, Bool.and_eq_true, decide_eq_true_eq, Bool.or_eq_true, Bool.not_eq_true'] at h
  obtain ⟨⟨hL, hR⟩, hsigns⟩ := h
  obtain ⟨hAdigits, hLdigits, hRdigits⟩ := digits_le_commonAll (m := m) (A := A) (L := L) (R := R)
  have hL' := digits_lt_of_bits_lt hL
  have hR' := digits_lt_of_bits_lt hR
  -- a signed operand makes the result signed, and with it the common type
  have hsigned : L.signed = true ∨ R.signed = true → (commonAll m A L R).signed = true := by
    intro hsome
    have hA : A.signed = true := by
      rcases hsigns with hA | ⟨⟨hL, hR⟩, -⟩
      · exact hA
      · rw [hL, hR] at hsome
        exact absurd hsome (by decide)
    cases hC : (commonType m L R).signed with
    | true => exact signed_commonType hC hA
    | false =>
      refine signed_commonType_of_wider hA ?_
      rw [bits_commonType_of_unsigned hC]
      exact max_lt hL hR
  have hsum := has_add hl hr (hL'.trans_le hAdigits) (hR'.trans_le hAdigits) hsigned
  have hlc : (commonAll m A L R).Has m lhs := hl.of_digits hLdigits fun h => hsigned (.inl h)
  have hrc : (commonAll m A L R).Has m rhs := hr.of_digits hRdigits fun h => hsigned (.inr h)
  simp only [addRepresentable]
  rw [IntegerType.staticCast_of_has hlc, IntegerType.staticCast_of_has hrc, plus_of_has hsum, Option.map_some,
    IntegerType.staticCast_of_has hsum, overflowCast_eq hsum]

theorem addNbit_eq {signed : Bool} {lhs rhs : ℤ}
    (hl : (IntegerType.ofBits ((commonAll m A L R).bits m) signed).Has m lhs)
    (hr : (IntegerType.ofBits ((commonAll m A L R).bits m) signed).Has m rhs)
    (hroom : A.Has m (lhs + rhs) → (IntegerType.ofBits ((commonAll m A L R).bits m) signed).Has m (lhs + rhs)) :
    addNbit m A L R signed lhs rhs = some (exactResult m A (lhs + rhs)) := by
  have hbits := IntegerType.bits_ofBits (m := m) (T := commonAll m A L R) signed
  have hA := (bits_le_commonAll (m := m) (A := A) (L := L) (R := R)).1
  obtain ⟨S, hS⟩ : ∃ S, IntegerType.ofBits ((commonAll m A L R).bits m) signed = S := ⟨_, rfl⟩
  rw [hS] at hbits hl hr hroom
  simp only [addNbit, hS]
  rw [IntegerType.staticCast_of_has hl, IntegerType.staticCast_of_has hr, addOverflowGenericImpl_eq hl hr,
    Option.map_some]
  dsimp only [exactResult]
  rw [overflowCast_eq (IntegerType.has_staticCast (m := m) (T := S) (lhs + rhs)), exactResult,
    IntegerType.staticCast_staticCast (hA.trans_eq hbits.symm)]
  refine congrArg some (congrArg (OverflowResult.mk _) ?_)
  by_cases hhas : S.Has m (lhs + rhs)
  · rw [IntegerType.staticCast_of_has hhas, decide_eq_true hhas]
    exact Bool.or_false _
  · rw [decide_eq_false hhas, decide_eq_false fun h => hhas (hroom h)]
    exact Bool.or_true _

theorem addNegative_eq {lhs rhs : ℤ} (hA : A.signed = false) (hl : lhs < 0) (hr : rhs < 0) :
    addNegative m A lhs rhs = some (exactResult m A (lhs + rhs)) := by
  obtain ⟨z, hz, hcast⟩ := plus_unsigned (m := m) hA (IntegerType.has_staticCast lhs)
    (IntegerType.has_staticCast rhs)
  have hnot : ¬ A.Has m (lhs + rhs) := by
    intro h
    have hmin := h.1
    rw [IntegerType.min, if_neg (by rw [hA]; decide)] at hmin
    omega
  rw [addNegative, hz, Option.map_some, hcast, IntegerType.staticCast_add_staticCast, exactResult,
    decide_eq_false hnot]
  rfl

theorem addOpposite_eq {lhs rhs : ℤ} (hl : L.Has m lhs) (hr : R.Has m rhs) (hL : L.signed = true)
    (hR : R.signed = true) (hopposite : 0 ≤ lhs ∧ rhs < 0 ∨ lhs < 0 ∧ 0 ≤ rhs) :
    addOpposite m A L R lhs rhs = some (exactResult m A (lhs + rhs)) := by
  have hC := signed_commonType (m := m) hL hR
  have hlc : (commonType m L R).Has m lhs := hl.of_digits digits_le_commonType.1 fun _ => hC
  have hrc : (commonType m L R).Has m rhs := hr.of_digits digits_le_commonType.2 fun _ => hC
  have hsum : (commonType m L R).Has m (lhs + rhs) := by
    rcases hopposite with h | h
    · exact has_of_between hrc hlc (by omega) (by omega)
    · exact has_of_between hlc hrc (by omega) (by omega)
  simp only [addOpposite]
  rw [IntegerType.staticCast_of_has hlc, IntegerType.staticCast_of_has hrc, plus_of_has hsum, Option.map_some,
    overflowCast_eq (IntegerType.has_promoted hsum)]

/-- One operand is of an unsigned type, and the other one is negative. -/
def MixedSigns (L R : IntegerType) (lhs rhs : ℤ) : Prop :=
  L.signed = false ∧ R.signed = true ∧ rhs < 0 ∨ L.signed = true ∧ R.signed = false ∧ lhs < 0

theorem nonneg_of_unsigned {v : ℤ} (hv : T.Has m v) (hT : T.signed = false) : 0 ≤ v := by
  have hmin := hv.1
  rwa [IntegerType.min, if_neg (by rw [hT]; decide)] at hmin

theorem mixed_condition {lhs rhs : ℤ} (hl : L.Has m lhs) (hr : R.Has m rhs) (hmixed : MixedSigns L R lhs rhs) :
    ((!L.signed && cmpLess m L R.makeUnsigned lhs (Cmath.uabs m R rhs)) ||
      (!R.signed && cmpLess m R L.makeUnsigned rhs (Cmath.uabs m L lhs))) = decide (lhs + rhs < 0) := by
  rw [Cmath.uabs_eq hl, Cmath.uabs_eq hr, cmpLess_eq hl (IntegerType.has_of_le hr.natAbs_le),
    cmpLess_eq hr (IntegerType.has_of_le hl.natAbs_le)]
  rcases hmixed with ⟨hL, hR, hneg⟩ | ⟨hL, hR, hneg⟩
  · rw [hL, hR, Bool.not_false, Bool.not_true, Bool.true_and, Bool.false_and, Bool.or_false]
    exact decide_eq_decide.mpr (by omega)
  · rw [hL, hR, Bool.not_false, Bool.not_true, Bool.true_and, Bool.false_and, Bool.false_or]
    exact decide_eq_decide.mpr (by omega)

/-- **The branch does not report an overflow of a sum that is not negative.** -/
theorem addMixed_eq {lhs rhs : ℤ} (hl : L.Has m lhs) (hr : R.Has m rhs) (hmixed : MixedSigns L R lhs rhs) :
    addMixed m A L R lhs rhs = some
      (if lhs + rhs < 0 then exactResult m A (lhs + rhs) else ⟨A.staticCast m (lhs + rhs), false⟩) := by
  obtain ⟨hAbits, hLbits, hRbits⟩ := bits_le_commonAll (m := m) (A := A) (L := L) (R := R)
  obtain ⟨-, hLdigits, hRdigits⟩ := digits_le_commonAll (m := m) (A := A) (L := L) (R := R)
  have hopposite : 0 ≤ lhs ∧ rhs < 0 ∨ lhs < 0 ∧ 0 ≤ rhs := by
    rcases hmixed with ⟨hL, -, hneg⟩ | ⟨-, hR, hneg⟩
    · exact .inl ⟨nonneg_of_unsigned hl hL, hneg⟩
    · exact .inr ⟨hneg, nonneg_of_unsigned hr hR⟩
  obtain ⟨z, hz, hcast⟩ := plus_opposite hl hr hLdigits hRdigits hopposite
  have hvalue : A.staticCast m ((commonAll m A L R).staticCast m z) = A.staticCast m (lhs + rhs) := by
    rw [hcast, IntegerType.staticCast_staticCast hAbits]
  simp only [addMixed, hz, Option.map_some, mixed_condition hl hr hmixed, decide_eq_true_eq, hvalue]
  refine congrArg some ?_
  split
  · rename_i hneg
    cases hA : A.signed with
    | false =>
      have hnot : ¬ A.Has m (lhs + rhs) := fun h => absurd (nonneg_of_unsigned h hA) (not_le.mpr hneg)
      rw [Bool.not_false, if_pos rfl, exactResult, decide_eq_false hnot]
      rfl
    | true =>
      -- a negative sum is between the negative operand and zero
      obtain ⟨S, hS⟩ : ∃ S : IntegerType, { commonType m L R with signed := true } = S := ⟨_, rfl⟩
      have hSbits : S.bits m = (commonType m L R).bits m := by rw [← hS]; rfl
      have hSsigned : S.signed = true := by rw [← hS]
      have hdigits : ∀ {V : IntegerType} {v : ℤ}, V.Has m v → V.signed = true →
          V.bits m ≤ (commonType m L R).bits m → S.Has m v := fun {V v} hv hV hle => by
        have hVd := IntegerType.digits_of_signed (m := m) hV
        have hSd := IntegerType.digits_of_signed (m := m) hSsigned
        exact hv.of_digits (by omega) fun _ => hSsigned
      have hsum : S.Has m (lhs + rhs) := by
        rcases hmixed with ⟨hL, hR, hneg'⟩ | ⟨hL, hR, hneg'⟩
        · have hpos := nonneg_of_unsigned hl hL
          exact has_of_between (hdigits hr hR bits_le_commonType.2) has_zero (by omega) (by omega)
        · have hpos := nonneg_of_unsigned hr hR
          exact has_of_between (hdigits hl hL bits_le_commonType.1) has_zero (by omega) (by omega)
      have hSall : S.bits m ≤ (commonAll m A L R).bits m := hSbits.le.trans bits_le_commonType.1
      have hSsum : S.staticCast m ((commonAll m A L R).staticCast m z) = lhs + rhs := by
        rw [hcast, IntegerType.staticCast_staticCast hSall, IntegerType.staticCast_of_has hsum]
      rw [Bool.not_true, if_neg Bool.false_ne_true, hS, hSsum, overflowCast_eq hsum]
  · rfl

/-! ## 5. Which sums are exact -/

theorem isGeZero_eq {v : ℤ} (hv : T.Has m v) : (!T.signed || decide (0 ≤ v)) = decide (0 ≤ v) := by
  cases hT : T.signed with
  | true => rfl
  | false => exact (decide_eq_true (nonneg_of_unsigned hv hT)).symm

/-- A number that is not negative is in each type with as many digits. -/
theorem has_of_nonneg {v : ℤ} (hv : T.Has m v) (hpos : 0 ≤ v) (hdigits : T.digits m ≤ U.digits m) :
    U.Has m v := by
  obtain ⟨n, rfl⟩ := Int.eq_ofNat_of_zero_le hpos
  rw [IntegerType.has_natCast_iff] at hv ⊢
  exact hv.trans_le (Nat.pow_le_pow_right (by decide) hdigits)

theorem addOverflow_eq {lhs rhs : ℤ} (hl : L.Has m lhs) (hr : R.Has m rhs) (hnot : ¬ MixedSigns L R lhs rhs) :
    addOverflow m A L R lhs rhs = some (exactResult m A (lhs + rhs)) := by
  obtain ⟨hAbits, hLbits, hRbits⟩ := bits_le_commonAll (m := m) (A := A) (L := L) (R := R)
  simp only [addOverflow, isGeZero_eq hl, isGeZero_eq hr]
  split
  · exact addRepresentable_eq hl hr ‹_›
  split
  · rename_i hsigned
    rw [Bool.and_eq_true, Bool.and_eq_true] at hsigned
    obtain ⟨⟨hL, hR⟩, hA⟩ := hsigned
    have hSsigned : (IntegerType.ofBits ((commonAll m A L R).bits m) true).signed = true := rfl
    have hhas : ∀ {V : IntegerType} {v : ℤ}, V.Has m v → V.signed = true →
        V.bits m ≤ (commonAll m A L R).bits m →
          (IntegerType.ofBits ((commonAll m A L R).bits m) true).Has m v := fun {V v} hv hV hle => by
      have hVd := IntegerType.digits_of_signed (m := m) hV
      have hSd := IntegerType.digits_of_signed (m := m) hSsigned
      rw [IntegerType.bits_ofBits] at hSd
      exact hv.of_digits (by omega) fun _ => hSsigned
    exact addNbit_eq (hhas hl hL hLbits) (hhas hr hR hRbits) fun h => hhas h hA hAbits
  rename_i hsigned
  split
  · rename_i hpos
    rw [Bool.and_eq_true, decide_eq_true_eq, decide_eq_true_eq] at hpos
    have hhas : ∀ {V : IntegerType} {v : ℤ}, V.Has m v → 0 ≤ v → V.bits m ≤ (commonAll m A L R).bits m →
        (IntegerType.ofBits ((commonAll m A L R).bits m) false).Has m v := fun {V v} hv h0 hle => by
      have hSd := IntegerType.digits_of_unsigned (m := m)
        (T := IntegerType.ofBits ((commonAll m A L R).bits m) false) rfl
      rw [IntegerType.bits_ofBits] at hSd
      exact has_of_nonneg hv h0 ((IntegerType.digits_le.trans hle).trans_eq hSd.symm)
    exact addNbit_eq (hhas hl hpos.1 hLbits) (hhas hr hpos.2 hRbits) fun h => hhas h (by omega) hAbits
  rename_i hpos
  rw [Bool.and_eq_true, decide_eq_true_eq, decide_eq_true_eq, not_and_or, not_le, not_le] at hpos
  have hLneg : lhs < 0 → L.signed = true := fun hneg => by
    by_contra h
    exact absurd (nonneg_of_unsigned hl (eq_false_of_ne_true h)) (not_le.mpr hneg)
  have hRneg : rhs < 0 → R.signed = true := fun hneg => by
    by_contra h
    exact absurd (nonneg_of_unsigned hr (eq_false_of_ne_true h)) (not_le.mpr hneg)
  split
  · rename_i hneg
    rw [Bool.and_eq_true, Bool.not_eq_true', Bool.not_eq_true', decide_eq_false_iff_not, decide_eq_false_iff_not,
      not_le, not_le] at hneg
    have hA : A.signed = false := by
      rw [hLneg hneg.1, hRneg hneg.2] at hsigned
      exact eq_false_of_ne_true hsigned
    exact addNegative_eq hA hneg.1 hneg.2
  rename_i hneg
  rw [Bool.and_eq_true, Bool.not_eq_true', Bool.not_eq_true', decide_eq_false_iff_not, decide_eq_false_iff_not,
    not_and_or, not_not, not_not] at hneg
  split
  · rename_i hboth
    rw [Bool.and_eq_true] at hboth
    exact addOpposite_eq hl hr hboth.1 hboth.2 (by omega)
  · rename_i hmixed
    rw [Bool.and_eq_true, not_and_or] at hmixed
    refine absurd ?_ hnot
    rcases hpos with hlneg | hrneg
    · have hL := hLneg hlneg
      exact .inr ⟨hL, eq_false_of_ne_true (hmixed.resolve_left (not_not_intro hL)), hlneg⟩
    · have hR := hRneg hrneg
      exact .inl ⟨eq_false_of_ne_true (hmixed.resolve_right (not_not_intro hR)), hR, hrneg⟩

/-- The last branch is for mixed signs, unless the result type represents all inputs. -/
theorem addOverflow_of_mixed {lhs rhs : ℤ} (hl : L.Has m lhs) (hr : R.Has m rhs)
    (hmixed : MixedSigns L R lhs rhs) : addOverflow m A L R lhs rhs =
      if isAddRepresentable m A L R then addRepresentable m A L R lhs rhs else addMixed m A L R lhs rhs := by
  simp only [addOverflow, isGeZero_eq hl, isGeZero_eq hr]
  rcases hmixed with ⟨hL, hR, hneg⟩ | ⟨hL, hR, hneg⟩
  · have hpos := nonneg_of_unsigned hl hL
    rw [hL, hR, decide_eq_true hpos, decide_eq_false (not_le.mpr hneg)]
    rfl
  · have hpos := nonneg_of_unsigned hr hR
    rw [hL, hR, decide_eq_true hpos, decide_eq_false (not_le.mpr hneg)]
    rfl

theorem has_of_isAddRepresentable {lhs rhs : ℤ} (hl : L.Has m lhs) (hr : R.Has m rhs)
    (h : isAddRepresentable m A L R = true) : A.Has m (lhs + rhs) := by
  simp only [isAddRepresentable, Bool.and_eq_true, decide_eq_true_eq, Bool.or_eq_true, Bool.not_eq_true'] at h
  obtain ⟨⟨hL, hR⟩, hsigns⟩ := h
  refine has_add hl hr (digits_lt_of_bits_lt hL) (digits_lt_of_bits_lt hR) fun hsome => ?_
  rcases hsigns with hA | ⟨⟨hL, hR⟩, -⟩
  · exact hA
  · rw [hL, hR] at hsome
    exact absurd hsome (by decide)

/-- **Which sums are exact**: all but those of an unsigned type and a negative number that are too large for
the result type. -/
theorem addOverflow_eq_iff (m : DataModel) (A L R : IntegerType) (lhs rhs : ℤ) (hl : L.Has m lhs)
    (hr : R.Has m rhs) : addOverflow m A L R lhs rhs = some (exactResult m A (lhs + rhs)) ↔
      ¬ (MixedSigns L R lhs rhs ∧ A.max m < lhs + rhs) := by
  by_cases hmixed : MixedSigns L R lhs rhs
  swap
  · exact iff_of_true (addOverflow_eq hl hr hmixed) fun h => hmixed h.1
  rw [addOverflow_of_mixed hl hr hmixed]
  cases hrep : isAddRepresentable m A L R with
  | true =>
    have hhas := has_of_isAddRepresentable hl hr hrep
    exact iff_of_true (addRepresentable_eq hl hr hrep) fun h => absurd hhas.2 (not_le.mpr h.2)
  | false =>
    rw [if_neg Bool.false_ne_true, addMixed_eq hl hr hmixed, Option.some.injEq]
    split
    · rename_i hneg
      exact iff_of_true rfl fun h => by omega
    · rename_i hpos
      rw [exactResult, OverflowResult.mk.injEq]
      constructor
      · rintro ⟨-, hflag⟩ ⟨-, hlarge⟩
        have hnot : ¬ A.Has m (lhs + rhs) := fun h => absurd h.2 (not_le.mpr hlarge)
        rw [decide_eq_false hnot] at hflag
        exact absurd hflag (by decide)
      · intro h
        have hmax : lhs + rhs ≤ A.max m := not_lt.mp fun hlarge => h ⟨hmixed, hlarge⟩
        have hhas : A.Has m (lhs + rhs) := ⟨min_le_zero.trans (not_lt.mp hpos), hmax⟩
        rw [decide_eq_true hhas]
        exact ⟨rfl, rfl⟩

/-- 400 of `uint16_t` and -1 of `int8_t`, to `int16_t`. -/
theorem addOverflow_exact_short : addOverflow .lp64 ⟨.short, true⟩ ⟨.short, false⟩ ⟨.char, true⟩ 400 (-1) =
    some (exactResult .lp64 ⟨.short, true⟩ (400 + -1)) :=
  (addOverflow_eq_iff .lp64 ⟨.short, true⟩ ⟨.short, false⟩ ⟨.char, true⟩ 400 (-1) (by decide) (by decide)).mpr
    fun h => absurd h.2 (by decide)

/-- 400 of `uint16_t` and -1 of `int8_t`, to `uint8_t`: the sum is cut to 143, without an overflow. -/
theorem addOverflow_narrow : addOverflow .lp64 ⟨.char, false⟩ ⟨.short, false⟩ ⟨.char, true⟩ 400 (-1) ≠
    some (exactResult .lp64 ⟨.char, false⟩ (400 + -1)) := by decide

end Cccl.Numeric
