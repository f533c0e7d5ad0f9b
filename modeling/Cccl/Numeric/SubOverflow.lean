/-
# `sub_overflow`

The difference of two integers as a value of a third type, and whether it is one.  Where the operands are
compared first, the sign of the difference is known: a negative one is computed in a signed type, and one that is
not negative in an unsigned type of the width of `_CommonAll`.

The difference of a large number of an unsigned type and a negative one may be too large for that type, too, and
then it is cut to a small one.  The second check is against the largest value of the result plus the negative
number, and this sum is cut the same way if the result is narrower than the negative number.  So an overflow is
not reported if both are cut alike (`Lost`), and `sub_overflow` is exact everywhere else (`subOverflow_eq_iff`).
-/
import Cccl.Numeric.AddOverflow

namespace Cccl.Numeric

open IntegerTypes

/-! ## 1. The functions -/

section

variable (m : DataModel) (T A L R : IntegerType)

/-- `-` of two values of a type.  A difference of signed numbers that the type does not have is undefined. -/
def minus (x y : ℤ) : Option ℤ :=
  if T.promoted.signed then if T.promoted.Has m (x - y) then some (x - y) else none
  else some (T.promoted.staticCast m (x - y))

def subAsUnsigned (lhs rhs : ℤ) : Option ℤ :=
  (minus m T.makeUnsigned (T.makeUnsigned.staticCast m lhs) (T.makeUnsigned.staticCast m rhs)).map (T.staticCast m)

def addAsUnsigned (lhs rhs : ℤ) : Option ℤ :=
  (plus m T.makeUnsigned (T.makeUnsigned.staticCast m lhs) (T.makeUnsigned.staticCast m rhs)).map (T.staticCast m)

def subOverflowGenericImpl (lhs rhs : ℤ) : Option OverflowResult :=
  (subAsUnsigned m T lhs rhs).map fun sub =>
    { value := sub
      overflow := if T.signed then decide (lhs < sub) == decide (0 ≤ rhs) else decide (lhs < sub) }

/-- `make_signed_t`. -/
def makeSigned : IntegerType := { T with signed := true }

/-- `__is_sub_representable_v`. -/
def isSubRepresentable : Bool := L.bits m < A.bits m && R.bits m < A.bits m && A.signed

/-- `_ComputeType`: twice the width of the inputs, or the width of the result. -/
def computeType : IntegerType :=
  .ofBits (if max (L.bits m) (R.bits m) * 2 ≤ A.bits m then max (L.bits m) (R.bits m) * 2 else A.bits m) true

/-- The branch for inputs that the result type represents. -/
def subRepresentable (lhs rhs : ℤ) : Option OverflowResult :=
  let compute := computeType m A L R
  (minus m compute (compute.staticCast m lhs) (compute.staticCast m rhs)).map fun sub =>
    ⟨A.staticCast m (compute.staticCast m sub), false⟩

/-- The branch for types of the same sign. -/
def subSameSign (lhs rhs : ℤ) : Option OverflowResult :=
  let common := commonAll m A L R
  (subOverflowGenericImpl m common (common.staticCast m lhs) (common.staticCast m rhs)).map fun sub =>
    { value := (overflowCast m A common sub.value).value
      overflow := (overflowCast m A common sub.value).overflow || sub.overflow }

/-- The branch for a negative difference, to an unsigned type. -/
def subNegative (lhs rhs : ℤ) : Option OverflowResult :=
  (minus m A (A.staticCast m lhs) (A.staticCast m rhs)).map fun sub => ⟨A.staticCast m sub, true⟩

/-- The branch for a negative difference, to a signed type. -/
def subNegativeSigned (lhs rhs : ℤ) : Option OverflowResult :=
  let signedCommonAll := makeSigned (commonAll m A L R)
  (subAsUnsigned m signedCommonAll lhs rhs).bind fun sub =>
    let isOutOfRange := cmpLess m signedCommonAll A sub (A.min m)
    let subRet := A.staticCast m sub
    let rhsLessThanZero := R.signed && decide (rhs < 0)
    if rhsLessThanZero || isOutOfRange then some ⟨subRet, isOutOfRange⟩
    else
      let sumType :=
        if R.bits m ≤ A.bits m || R.signed || !cmpLess m (makeSigned A) R ((makeSigned A).max m) rhs then
          makeSigned (commonType m R A)
        else (commonType m R A).makeUnsigned
      (addAsUnsigned m sumType (A.min m) rhs).map fun usum => ⟨subRet, cmpLess m L sumType lhs usum⟩

/-- The branch for a difference that is not negative. -/
def subPositive (lhs rhs : ℤ) : Option OverflowResult :=
  let unsignedCommonAll := (commonAll m A L R).makeUnsigned
  (subAsUnsigned m unsignedCommonAll lhs rhs).bind fun sub =>
    let isOutOfRange := cmpLess m A unsignedCommonAll (A.max m) sub
    let subRet := A.staticCast m sub
    let isRhsGeZero := !R.signed || decide (0 ≤ rhs)
    if isRhsGeZero || isOutOfRange then some ⟨subRet, isOutOfRange⟩
    else
      let up := (commonType m R A).makeUnsigned
      (addAsUnsigned m up (A.max m) rhs).map fun sum => ⟨subRet, cmpLess m up L sum lhs⟩

/-- `sub_overflow`, without the built-in function. -/
def subOverflow (lhs rhs : ℤ) : Option OverflowResult :=
  if isSubRepresentable m A L R then subRepresentable m A L R lhs rhs
  else if L.signed = R.signed ∧ L.signed = A.signed then subSameSign m A L R lhs rhs
  else if cmpLess m L R lhs rhs then
    if !A.signed then subNegative m A lhs rhs else subNegativeSigned m A L R lhs rhs
  else subPositive m A L R lhs rhs

/-- The difference and the sum that it is compared with are cut alike. -/
def Lost (lhs rhs : ℤ) : Prop :=
  rhs < -A.max m ∧ (commonType m R A).bits m = (commonAll m A L R).bits m ∧
    2 ^ (commonAll m A L R).bits m ≤ lhs - rhs ∧ lhs - rhs ≤ 2 ^ (commonAll m A L R).bits m + A.max m

end

variable {m : DataModel} {T U A L R : IntegerType}

/-! ## 2. Differences -/

theorem staticCast_congr {v w : ℤ} (h : (2 ^ T.bits m : ℤ) ∣ v - w) : T.staticCast m v = T.staticCast m w := by
  refine IntegerType.staticCast_eq (IntegerType.has_staticCast w) ?_
  have hsub := Int.dvd_sub h (IntegerType.dvd_staticCast_sub (m := m) (T := T) w)
  rwa [sub_sub, add_sub_cancel] at hsub

theorem minus_of_has {x y : ℤ} (h : T.Has m (x - y)) : minus m T x y = some (x - y) := by
  have hpromoted := IntegerType.has_promoted h
  rw [minus, if_pos hpromoted, IntegerType.staticCast_of_has hpromoted, ite_self]

/-- **Unsigned numbers are subtracted modulo the width.** -/
theorem minus_unsigned (hT : T.signed = false) {x y : ℤ} (hx : T.Has m x) (hy : T.Has m y) :
    ∃ z, minus m T x y = some z ∧ T.staticCast m z = T.staticCast m (x - y) := by
  unfold minus
  split
  · -- a narrow type is subtracted as `int`
    rename_i hint
    have hnarrow : T.promoted = ⟨.int, true⟩ ∧ T.digits m ≤ 16 := by
      obtain ⟨rank, signed⟩ := T
      revert hT hint
      cases m <;> cases rank <;> cases signed <;> decide
    have hsmall : ∀ {v : ℤ}, T.Has m v → 0 ≤ v ∧ v < 2 ^ 16 := by
      intro v hv
      have hpow : (2 : ℤ) ^ T.digits m ≤ 2 ^ 16 := pow_le_pow_right₀ (by decide) hnarrow.2
      exact ⟨nonneg_of_unsigned hv hT, hv.lt.trans_le hpow⟩
    have hdiff : T.promoted.Has m (x - y) := by
      have hx' := hsmall hx
      have hy' := hsmall hy
      rw [hnarrow.1]
      cases m
      all_goals exact ⟨by change (-2 ^ 31 : ℤ) ≤ _; omega, by change _ ≤ ((2147483647 : ℕ) : ℤ); omega⟩
    exact ⟨x - y, if_pos hdiff, rfl⟩
  · rename_i hword
    have hsame : T.promoted = T := by
      obtain ⟨rank, signed⟩ := T
      revert hword
      cases rank <;> cases signed <;> decide
    rw [hsame]
    exact ⟨_, rfl, IntegerType.staticCast_staticCast (le_refl _) _⟩

/-- **A difference by way of the unsigned type** is the exact one modulo the width. -/
theorem subAsUnsigned_eq (lhs rhs : ℤ) : subAsUnsigned m T lhs rhs = some (T.staticCast m (lhs - rhs)) := by
  obtain ⟨z, hz, hcast⟩ := minus_unsigned (m := m) (T := T.makeUnsigned) rfl
    (IntegerType.has_staticCast lhs) (IntegerType.has_staticCast rhs)
  have hbits : T.bits m ≤ T.makeUnsigned.bits m := le_refl _
  have hl := IntegerType.dvd_staticCast_sub (m := m) (T := T.makeUnsigned) lhs
  have hr := IntegerType.dvd_staticCast_sub (m := m) (T := T.makeUnsigned) rhs
  rw [subAsUnsigned, hz, Option.map_some, ← IntegerType.staticCast_staticCast hbits z, hcast,
    IntegerType.staticCast_staticCast hbits]
  refine congrArg some (staticCast_congr ?_)
  have hsub := Int.dvd_sub hl hr
  rwa [IntegerType.bits_makeUnsigned, sub_sub_sub_comm] at hsub

theorem addAsUnsigned_eq (lhs rhs : ℤ) : addAsUnsigned m T lhs rhs = some (T.staticCast m (lhs + rhs)) := by
  obtain ⟨z, hz, hcast⟩ := plus_unsigned (m := m) (T := T.makeUnsigned) rfl
    (IntegerType.has_staticCast lhs) (IntegerType.has_staticCast rhs)
  have hbits : T.bits m ≤ T.makeUnsigned.bits m := le_refl _
  rw [addAsUnsigned, hz, Option.map_some, ← IntegerType.staticCast_staticCast hbits z, hcast,
    IntegerType.staticCast_add_staticCast, IntegerType.staticCast_staticCast hbits]

theorem max_eq (T : IntegerType) : (T.max m : ℤ) = 2 ^ T.digits m - 1 := by
  have hnat : 0 < 2 ^ T.digits m := Nat.two_pow_pos _
  rw [IntegerType.max, Int.natCast_sub hnat, Nat.cast_pow]
  rfl

/-- **The generic implementation is exact.** -/
theorem subOverflowGenericImpl_eq {lhs rhs : ℤ} (hl : T.Has m lhs) (hr : T.Has m rhs) :
    subOverflowGenericImpl m T lhs rhs = some (exactResult m T (lhs - rhs)) := by
  rw [subOverflowGenericImpl, subAsUnsigned_eq, Option.map_some, exactResult]
  refine congrArg some (congrArg (OverflowResult.mk _) ?_)
  obtain ⟨d, hd⟩ : ∃ d, lhs - rhs = d := ⟨_, rfl⟩
  have hpow : (0 : ℤ) < 2 ^ T.digits m := pow_pos (by decide) _
  have hmax := max_eq (m := m) T
  rw [hd]
  obtain ⟨hlmin, hlmax⟩ := hl
  obtain ⟨hrmin, hrmax⟩ := hr
  by_cases hhas : T.Has m d
  · rw [IntegerType.staticCast_of_has hhas, decide_eq_true hhas]
    split
    · by_cases hpos : 0 ≤ rhs
      · rw [decide_eq_true hpos, decide_eq_false (by omega)]
        rfl
      · rw [decide_eq_false hpos, decide_eq_true (by omega)]
        rfl
    · rename_i hunsigned
      rw [IntegerType.min, if_neg hunsigned] at hrmin
      exact decide_eq_false (by omega)
  · rw [decide_eq_false hhas]
    rw [IntegerType.Has, not_and_or, not_le, not_le] at hhas
    split
    · rename_i hsigned
      have hwidth : (2 : ℤ) ^ T.bits m = 2 * 2 ^ T.digits m := by
        rw [← IntegerType.digits_of_signed hsigned, pow_succ, mul_comm]
      rw [IntegerType.min, if_pos hsigned] at hlmin hrmin hhas
      -- the difference is cut on the side of the second number
      rcases hhas with hlow | hhigh
      · have hcut : T.staticCast m d = d + 2 ^ T.bits m := by
          refine IntegerType.staticCast_eq ⟨?_, ?_⟩ ⟨-1, by omega⟩
          · rw [IntegerType.min, if_pos hsigned, hwidth]
            omega
          · rw [hwidth]
            omega
        rw [hcut, decide_eq_true (by omega), decide_eq_true (by omega)]
        rfl
      · have hcut : T.staticCast m d = d - 2 ^ T.bits m := by
          refine IntegerType.staticCast_eq ⟨?_, ?_⟩ ⟨1, by omega⟩
          · rw [IntegerType.min, if_pos hsigned, hwidth]
            omega
          · rw [hwidth]
            omega
        rw [hcut, decide_eq_false (by omega), decide_eq_false (by omega)]
        rfl
    · rename_i hunsigned
      have hwidth : (2 : ℤ) ^ T.bits m = 2 ^ T.digits m := by
        rw [IntegerType.digits_of_unsigned (eq_false_of_ne_true hunsigned)]
      rw [IntegerType.min, if_neg hunsigned] at hlmin hrmin hhas
      have hcut : T.staticCast m d = d + 2 ^ T.bits m := by
        refine IntegerType.staticCast_eq ⟨?_, ?_⟩ ⟨-1, by omega⟩
        · rw [IntegerType.min, if_neg hunsigned, hwidth]
          omega
        · rw [hwidth]
          omega
      rw [hcut]
      exact decide_eq_true (by omega)

/-! ## 3. The branches for all signs -/

theorem bits_mem (T : IntegerType) :
    T.bits m = 8 ∨ T.bits m = 16 ∨ T.bits m = 32 ∨ T.bits m = 64 ∨ T.bits m = 128 := by
  change T.rank.bits m = 8 ∨ T.rank.bits m = 16 ∨ T.rank.bits m = 32 ∨ T.rank.bits m = 64 ∨ T.rank.bits m = 128
  cases m <;> cases T.rank <;> decide

theorem has_bounds {v : ℤ} (hv : T.Has m v) : -2 ^ T.bits m ≤ v ∧ v < 2 ^ T.bits m := by
  refine ⟨?_, hv.lt_two_pow⟩
  have hmin := hv.1
  have hpow : (2 : ℤ) ^ T.digits m ≤ 2 ^ T.bits m := pow_le_pow_right₀ (by decide) IntegerType.digits_le
  have hpos : (0 : ℤ) < 2 ^ T.bits m := pow_pos (by decide) _
  rw [IntegerType.min] at hmin
  split at hmin
  · omega
  · omega

theorem has_sub {x y : ℤ} (hx : L.Has m x) (hy : R.Has m y) (hT : T.signed = true) (hL : L.bits m + 2 ≤ T.bits m)
    (hR : R.bits m + 2 ≤ T.bits m) : T.Has m (x - y) := by
  have hdigits := IntegerType.digits_of_signed (m := m) hT
  obtain ⟨hxmin, hxmax⟩ := has_bounds hx
  obtain ⟨hymin, hymax⟩ := has_bounds hy
  have hhalf : ∀ {k : ℕ}, k + 2 ≤ T.bits m → (2 : ℤ) * 2 ^ k ≤ 2 ^ T.digits m := by
    intro k hk
    rw [← pow_succ']
    exact pow_le_pow_right₀ (by decide) (by omega)
  have hLpow := hhalf hL
  have hRpow := hhalf hR
  rw [IntegerType.Has, IntegerType.min, if_pos hT, max_eq]
  omega

/-- A result type that represents the inputs has all differences. -/
theorem has_of_isSubRepresentable {lhs rhs : ℤ} (hl : L.Has m lhs) (hr : R.Has m rhs)
    (h : isSubRepresentable m A L R = true) : A.Has m (lhs - rhs) := by
  simp only [isSubRepresentable, Bool.and_eq_true, decide_eq_true_eq] at h
  obtain ⟨⟨hL, hR⟩, hA⟩ := h
  have hLmem := bits_mem (m := m) L
  have hRmem := bits_mem (m := m) R
  have hAmem := bits_mem (m := m) A
  exact has_sub hl hr hA (by omega) (by omega)

theorem subRepresentable_eq {lhs rhs : ℤ} (hl : L.Has m lhs) (hr : R.Has m rhs)
    (h : isSubRepresentable m A L R = true) :
    subRepresentable m A L R lhs rhs = some (exactResult m A (lhs - rhs)) := by
  have hresult := has_of_isSubRepresentable hl hr h
  simp only [isSubRepresentable, Bool.and_eq_true, decide_eq_true_eq] at h
  obtain ⟨⟨hL, hR⟩, hA⟩ := h
  have hwidth : (computeType m A L R).bits m = max (L.bits m) (R.bits m) * 2 ∧
      max (L.bits m) (R.bits m) * 2 ≤ A.bits m := by
    have hofBits : ∀ {n : ℕ}, n = 16 ∨ n = 32 ∨ n = 64 ∨ n = 128 → (IntegerType.ofBits n true).bits m = n := by
      rintro n (rfl | rfl | rfl | rfl) <;> rfl
    have hLmem := bits_mem (m := m) L
    have hRmem := bits_mem (m := m) R
    have hAmem := bits_mem (m := m) A
    have hle : max (L.bits m) (R.bits m) * 2 ≤ A.bits m := by omega
    rw [computeType, if_pos hle]
    exact ⟨hofBits (by omega), hle⟩
  have hLpos := bits_mem (m := m) L
  have hRpos := bits_mem (m := m) R
  have hcompute : (computeType m A L R).Has m (lhs - rhs) :=
    has_sub hl hr rfl (by omega) (by omega)
  have hlc : (computeType m A L R).Has m lhs := by
    have hzero := has_sub hl (has_zero (m := m) (T := R)) (T := computeType m A L R) rfl (by omega) (by omega)
    rwa [sub_zero] at hzero
  have hrc : (computeType m A L R).Has m rhs := by
    have hzero := has_sub hr (has_zero (m := m) (T := L)) (T := computeType m A L R) rfl (by omega) (by omega)
    rwa [sub_zero] at hzero
  simp only [subRepresentable]
  rw [IntegerType.staticCast_of_has hlc, IntegerType.staticCast_of_has hrc, minus_of_has hcompute, Option.map_some,
    IntegerType.staticCast_of_has hcompute, exactResult, decide_eq_true hresult]
  rfl

theorem subSameSign_eq {lhs rhs : ℤ} (hl : L.Has m lhs) (hr : R.Has m rhs) (hR : L.signed = R.signed)
    (hA : L.signed = A.signed) : subSameSign m A L R lhs rhs = some (exactResult m A (lhs - rhs)) := by
  obtain ⟨hAbits, -, -⟩ := bits_le_commonAll (m := m) (A := A) (L := L) (R := R)
  obtain ⟨hAdigits, hLdigits, hRdigits⟩ := digits_le_commonAll (m := m) (A := A) (L := L) (R := R)
  have hsigned : L.signed = true → (commonAll m A L R).signed = true := fun h =>
    signed_commonType (signed_commonType h (hR ▸ h)) (hA ▸ h)
  have hlc : (commonAll m A L R).Has m lhs := hl.of_digits hLdigits hsigned
  have hrc : (commonAll m A L R).Has m rhs := hr.of_digits hRdigits fun h => hsigned (hR.trans h)
  have hroom : A.Has m (lhs - rhs) → (commonAll m A L R).Has m (lhs - rhs) := fun h =>
    h.of_digits hAdigits fun h' => hsigned (hA.trans h')
  simp only [subSameSign]
  rw [IntegerType.staticCast_of_has hlc, IntegerType.staticCast_of_has hrc, subOverflowGenericImpl_eq hlc hrc,
    Option.map_some]
  dsimp only [exactResult]
  rw [overflowCast_eq (IntegerType.has_staticCast (lhs - rhs)), exactResult,
    IntegerType.staticCast_staticCast hAbits]
  refine congrArg some (congrArg (OverflowResult.mk _) ?_)
  by_cases hhas : (commonAll m A L R).Has m (lhs - rhs)
  · rw [IntegerType.staticCast_of_has hhas, decide_eq_true hhas]
    exact Bool.or_false _
  · rw [decide_eq_false hhas, decide_eq_false fun h => hhas (hroom h)]
    exact Bool.or_true _

/-! ## 4. Negative differences -/

theorem subNegative_eq {lhs rhs : ℤ} (hA : A.signed = false) (hless : lhs < rhs) :
    subNegative m A lhs rhs = some (exactResult m A (lhs - rhs)) := by
  obtain ⟨z, hz, hcast⟩ := minus_unsigned (m := m) hA (IntegerType.has_staticCast lhs)
    (IntegerType.has_staticCast rhs)
  have hnot : ¬ A.Has m (lhs - rhs) := by
    intro h
    have hpos := nonneg_of_unsigned h hA
    omega
  have hl := IntegerType.dvd_staticCast_sub (m := m) (T := A) lhs
  have hr := IntegerType.dvd_staticCast_sub (m := m) (T := A) rhs
  have hvalue : A.staticCast m (A.staticCast m lhs - A.staticCast m rhs) = A.staticCast m (lhs - rhs) := by
    refine staticCast_congr ?_
    have hsub := Int.dvd_sub hl hr
    rwa [sub_sub_sub_comm] at hsub
  rw [subNegative, hz, Option.map_some, hcast, hvalue, exactResult, decide_eq_false hnot]
  rfl

/-- The least value of a signed type and a number that is not negative. -/
theorem min_of_signed (hT : T.signed = true) : T.min m = -T.max m - 1 := by
  rw [IntegerType.min, if_pos hT, max_eq]
  ring

theorem has_of_bits {V : IntegerType} {v : ℤ} (hv : V.Has m v) (hT : T.signed = true) (hV : V.signed = true)
    (hbits : V.bits m ≤ T.bits m) : T.Has m v := by
  have hVd := IntegerType.digits_of_signed (m := m) hV
  have hTd := IntegerType.digits_of_signed (m := m) hT
  exact hv.of_digits (by omega) fun _ => hT

/-- **The sum that the left operand is compared with is exact.** -/
theorem usum_eq {rhs : ℤ} (hr : R.Has m rhs) (hA : A.signed = true) (hpos : 0 ≤ rhs) :
    let sumType :=
      if R.bits m ≤ A.bits m || R.signed || !cmpLess m (makeSigned A) R ((makeSigned A).max m) rhs then
        makeSigned (commonType m R A)
      else (commonType m R A).makeUnsigned
    sumType.Has m (A.min m + rhs) := by
  obtain ⟨hRbits, hAbits⟩ := bits_le_commonType (m := m) (T := R) (U := A)
  have hmakeSigned : makeSigned A = A := by
    cases A
    cases hA
    rfl
  have hmin := min_of_signed (m := m) hA
  have hAmin : (makeSigned (commonType m R A)).Has m (A.min m) :=
    has_of_bits has_min rfl hA hAbits
  have hAmax : (makeSigned (commonType m R A)).Has m (A.max m) :=
    has_of_bits has_max rfl hA hAbits
  rw [hmakeSigned]
  dsimp only
  split
  · rename_i hcase
    rw [Bool.or_eq_true, Bool.or_eq_true, decide_eq_true_eq, Bool.not_eq_true', cmpLess_eq has_max hr,
      decide_eq_false_iff_not, not_lt] at hcase
    rcases hcase with (hle | hsigned) | hless
    · -- as many bits as the result has
      have hlt := hr.lt_two_pow
      have hpow : (2 : ℤ) ^ R.bits m ≤ 2 ^ A.bits m := pow_le_pow_right₀ (by decide) hle
      have hwidth : (2 : ℤ) ^ A.bits m = 2 * 2 ^ A.digits m := by
        rw [← IntegerType.digits_of_signed hA, pow_succ, mul_comm]
      have hmax := max_eq (m := m) A
      exact has_of_between hAmin hAmax (by omega) (by omega)
    · have hR : (makeSigned (commonType m R A)).Has m rhs := has_of_bits hr rfl hsigned hRbits
      have hmax : (0 : ℤ) ≤ A.max m := Int.natCast_nonneg _
      exact has_of_between hAmin hR (by omega) (by omega)
    · exact has_of_between hAmin hAmax (by omega) (by omega)
  · rename_i hcase
    rw [Bool.not_eq_true, Bool.or_eq_false_iff, Bool.or_eq_false_iff, Bool.not_eq_false', cmpLess_eq has_max hr,
      decide_eq_true_eq] at hcase
    have hR : (commonType m R A).makeUnsigned.Has m rhs :=
      has_of_nonneg hr hpos (IntegerType.digits_le.trans (hRbits.trans_eq
        (IntegerType.digits_of_unsigned (m := m) (T := (commonType m R A).makeUnsigned) rfl).symm))
    exact has_of_between has_zero hR (by omega) (by omega)

theorem subNegativeSigned_eq {lhs rhs : ℤ} (hl : L.Has m lhs) (hr : R.Has m rhs) (hA : A.signed = true)
    (hless : lhs < rhs) : subNegativeSigned m A L R lhs rhs = some (exactResult m A (lhs - rhs)) := by
  obtain ⟨hAbits, hLbits, -⟩ := bits_le_commonAll (m := m) (A := A) (L := L) (R := R)
  obtain ⟨S, hS⟩ : ∃ S, makeSigned (commonAll m A L R) = S := ⟨_, rfl⟩
  have hSsigned : S.signed = true := by rw [← hS]; rfl
  have hSbits : S.bits m = (commonAll m A L R).bits m := by rw [← hS]; rfl
  have hmax : (0 : ℤ) ≤ A.max m := Int.natCast_nonneg _
  have hexact : ∀ b : Bool, b = decide (lhs - rhs < A.min m) →
      (⟨A.staticCast m (S.staticCast m (lhs - rhs)), b⟩ : OverflowResult) = exactResult m A (lhs - rhs) := by
    rintro b rfl
    rw [IntegerType.staticCast_staticCast (hAbits.trans_eq hSbits.symm), exactResult]
    refine congrArg (OverflowResult.mk _) ?_
    by_cases hmin : lhs - rhs < A.min m
    · rw [decide_eq_true hmin, decide_eq_false fun h => absurd h.1 (not_le.mpr hmin)]
      rfl
    · have hhas : A.Has m (lhs - rhs) := ⟨not_lt.mp hmin, by omega⟩
      rw [decide_eq_false hmin, decide_eq_true hhas]
      rfl
  -- where the difference is found too small, it is
  have hout : S.staticCast m (lhs - rhs) < A.min m → lhs - rhs < A.min m := by
    intro h
    by_cases hhas : S.Has m (lhs - rhs)
    · rwa [IntegerType.staticCast_of_has hhas] at h
    · by_contra hge
      exact hhas (has_of_between (has_of_bits has_min hSsigned hA (hAbits.trans_eq hSbits.symm)) has_zero
        (not_lt.mp hge) (by omega))
  simp only [subNegativeSigned, hS]
  rw [subAsUnsigned_eq, Option.bind_some, cmpLess_eq (IntegerType.has_staticCast _) has_min]
  by_cases hfirst : (R.signed && decide (rhs < 0) || decide (S.staticCast m (lhs - rhs) < A.min m)) = true
  · rw [if_pos hfirst]
    refine congrArg some (hexact _ (decide_eq_decide.mpr ⟨hout, fun hmin => ?_⟩))
    rw [Bool.or_eq_true, Bool.and_eq_true, decide_eq_true_eq, decide_eq_true_eq] at hfirst
    rcases hfirst with ⟨-, hneg⟩ | hcut
    · -- the difference is between the left operand and zero
      have hL : L.signed = true := by
        by_contra h
        have hpos := nonneg_of_unsigned hl (eq_false_of_ne_true h)
        omega
      have hSl : S.Has m lhs := has_of_bits hl hSsigned hL (hLbits.trans_eq hSbits.symm)
      have hhas : S.Has m (lhs - rhs) := has_of_between hSl has_zero (by omega) (by omega)
      rwa [IntegerType.staticCast_of_has hhas]
    · exact hcut
  · rw [if_neg hfirst]
    rw [Bool.or_eq_true, not_or, Bool.and_eq_true, decide_eq_true_eq, not_and, not_lt] at hfirst
    have hpos : 0 ≤ rhs := by
      cases hR : R.signed with
      | true => exact hfirst.1 hR
      | false => exact nonneg_of_unsigned hr hR
    have husum := usum_eq (A := A) hr hA hpos
    dsimp only at husum
    rw [addAsUnsigned_eq, Option.map_some, IntegerType.staticCast_of_has husum, cmpLess_eq hl husum]
    exact congrArg some (hexact _ (decide_eq_decide.mpr (by omega)))

/-! ## 5. Differences that are not negative -/

theorem bits_commonType_eq (T U : IntegerType) : (commonType m T U).bits m =
    if T = U then T.bits m else max 32 (max (T.bits m) (U.bits m)) := by
  obtain ⟨rankT, signedT⟩ := T
  obtain ⟨rankU, signedU⟩ := U
  cases m <;> cases rankT <;> cases signedT <;> cases rankU <;> cases signedU <;> decide

/-- The type of the sum is not wider than that of the difference. -/
theorem bits_commonType_le_commonAll : (commonType m R A).bits m ≤ (commonAll m A L R).bits m := by
  obtain ⟨hA, -, hR⟩ := bits_le_commonAll (m := m) (A := A) (L := L) (R := R)
  rw [bits_commonType_eq]
  split
  · exact hR
  · rename_i hne
    refine max_le ?_ (max_le hR hA)
    rw [commonAll, bits_commonType_eq]
    split
    · rename_i hsame
      rw [bits_commonType_eq]
      split
      · -- then all three would be the same type
        rename_i hLR
        rw [commonType, if_pos hLR] at hsame
        exact absurd (hLR ▸ hsame) hne
      · exact le_max_left _ _
    · exact le_max_left _ _

/-- The difference in the unsigned type: what is too large for it is cut once. -/
theorem staticCast_sub {lhs rhs : ℤ} (hU : U.signed = false) (hL : L.bits m ≤ U.bits m)
    (hR : R.bits m ≤ U.bits m) (hl : L.Has m lhs) (hr : R.Has m rhs) (hle : rhs ≤ lhs) :
    U.staticCast m (lhs - rhs) = if lhs - rhs < 2 ^ U.bits m then lhs - rhs else lhs - rhs - 2 ^ U.bits m := by
  have hLpow : (2 : ℤ) ^ L.bits m ≤ 2 ^ U.bits m := pow_le_pow_right₀ (by decide) hL
  have hRpow : (2 : ℤ) ^ R.bits m ≤ 2 ^ U.bits m := pow_le_pow_right₀ (by decide) hR
  have hlhs := has_bounds hl
  have hrhs := has_bounds hr
  have hmax := max_eq (m := m) U
  rw [IntegerType.digits_of_unsigned hU] at hmax
  have hhas : ∀ {v : ℤ}, 0 ≤ v → v < 2 ^ U.bits m → U.Has m v := by
    intro v hpos hlt
    exact has_of_between has_zero has_max hpos (by omega)
  split
  · rename_i hlt
    exact IntegerType.staticCast_of_has (hhas (by omega) hlt)
  · rename_i hge
    exact IntegerType.staticCast_eq (hhas (by omega) (by omega)) ⟨1, by ring⟩

/-- The sum that the left operand is compared with: what is negative is cut once. -/
theorem staticCast_max_add {rhs : ℤ} (hr : R.Has m rhs) (hneg : rhs < 0) :
    (commonType m R A).makeUnsigned.staticCast m (A.max m + rhs) =
      if 0 ≤ A.max m + rhs then A.max m + rhs else A.max m + rhs + 2 ^ (commonType m R A).bits m := by
  obtain ⟨hRbits, hAbits⟩ := bits_le_commonType (m := m) (T := R) (U := A)
  have hRpow : (2 : ℤ) ^ R.bits m ≤ 2 ^ (commonType m R A).bits m := pow_le_pow_right₀ (by decide) hRbits
  have hApow : (2 : ℤ) ^ A.bits m ≤ 2 ^ (commonType m R A).bits m := pow_le_pow_right₀ (by decide) hAbits
  have hrhs := has_bounds hr
  have hAmax := has_bounds (has_max (m := m) (T := A))
  have hmax : ((commonType m R A).makeUnsigned.max m : ℤ) = 2 ^ (commonType m R A).bits m - 1 := max_eq _
  have hhas : ∀ {v : ℤ}, 0 ≤ v → v < 2 ^ (commonType m R A).bits m →
      (commonType m R A).makeUnsigned.Has m v := by
    intro v hpos hlt
    exact has_of_between has_zero has_max hpos (by omega)
  have hzero : (0 : ℤ) ≤ A.max m := Int.natCast_nonneg _
  split
  · rename_i hpos
    exact IntegerType.staticCast_of_has (hhas hpos (by omega))
  · exact IntegerType.staticCast_eq (hhas (by omega) (by omega)) ⟨-1, by rw [IntegerType.bits_makeUnsigned]; ring⟩

/-- **What the last branch returns**: the exact result, but without the overflow where it is lost. -/
theorem subPositive_eq {lhs rhs : ℤ} (hl : L.Has m lhs) (hr : R.Has m rhs) (hle : rhs ≤ lhs)
    [Decidable (Lost m A L R lhs rhs)] : subPositive m A L R lhs rhs =
      some ⟨A.staticCast m (lhs - rhs), decide ((A.max m : ℤ) < lhs - rhs ∧ ¬ Lost m A L R lhs rhs)⟩ := by
  obtain ⟨hAbits, hLbits, hRbits⟩ := bits_le_commonAll (m := m) (A := A) (L := L) (R := R)
  obtain ⟨U, hU⟩ : ∃ U, (commonAll m A L R).makeUnsigned = U := ⟨_, rfl⟩
  have hbits : (commonAll m A L R).bits m = U.bits m := by rw [← hU]; rfl
  have hunsigned : U.signed = false := by rw [← hU]; rfl
  have hsub := staticCast_sub hunsigned (hbits ▸ hLbits) (hbits ▸ hRbits) hl hr hle
  have hApow : (2 : ℤ) ^ A.bits m ≤ 2 ^ U.bits m := pow_le_pow_right₀ (by decide) (hbits ▸ hAbits)
  have hAmax := has_bounds (has_max (m := m) (T := A))
  have hlhs := has_bounds hl
  have hLpow : (2 : ℤ) ^ L.bits m ≤ 2 ^ U.bits m := pow_le_pow_right₀ (by decide) (hbits ▸ hLbits)
  have hzero : (0 : ℤ) ≤ A.max m := Int.natCast_nonneg _
  simp only [subPositive, hU]
  rw [subAsUnsigned_eq, Option.bind_some, cmpLess_eq has_max (IntegerType.has_staticCast _),
    IntegerType.staticCast_staticCast (hbits ▸ hAbits)]
  by_cases hfirst : (!R.signed || decide (0 ≤ rhs) || decide ((A.max m : ℤ) < U.staticCast m (lhs - rhs))) = true
  · -- without a negative number, or with a difference that is found too large
    rw [if_pos hfirst]
    refine congrArg some (congrArg (OverflowResult.mk _) (decide_eq_decide.mpr ?_))
    have hcase : 0 ≤ rhs ∨ (A.max m : ℤ) < U.staticCast m (lhs - rhs) := by
      rw [Bool.or_eq_true, Bool.or_eq_true, decide_eq_true_eq, decide_eq_true_eq, Bool.not_eq_true'] at hfirst
      rcases hfirst with (hR | hpos) | hlarge
      · exact Or.inl (nonneg_of_unsigned hr hR)
      · exact Or.inl hpos
      · exact Or.inr hlarge
    rw [hsub] at hcase ⊢
    rw [Lost, hbits]
    split_ifs at hcase ⊢ with hlt
    · constructor
      · exact fun hlarge => ⟨hlarge, fun hlost => by omega⟩
      · exact fun h => h.1
    · constructor
      · exact fun hlarge => ⟨by omega, fun hlost => by omega⟩
      · rintro -
        omega
  · rw [if_neg hfirst, addAsUnsigned_eq, Option.map_some, cmpLess_eq (IntegerType.has_staticCast _) hl]
    refine congrArg some (congrArg (OverflowResult.mk _) (decide_eq_decide.mpr ?_))
    rw [Bool.not_eq_true, Bool.or_eq_false_iff, Bool.or_eq_false_iff, decide_eq_false_iff_not,
      decide_eq_false_iff_not, not_le, not_lt] at hfirst
    obtain ⟨⟨-, hneg⟩, hsmall⟩ := hfirst
    rw [staticCast_max_add hr hneg, Lost, hbits]
    rw [hsub] at hsmall
    by_cases hsum : 0 ≤ A.max m + rhs
    · rw [if_pos hsum]
      constructor
      · exact fun hlarge => ⟨by omega, fun hlost => by omega⟩
      · exact fun h => by omega
    · rw [if_neg hsum]
      have hwidth := bits_commonType_le_commonAll (m := m) (A := A) (L := L) (R := R)
      rw [hbits] at hwidth
      split_ifs at hsmall with hlt
      · -- the left operand is negative
        have hpos : (0 : ℤ) ≤ A.max m + rhs + 2 ^ (commonType m R A).bits m := by
          have hbounds := has_bounds hr
          have hpow : (2 : ℤ) ^ R.bits m ≤ 2 ^ (commonType m R A).bits m :=
            pow_le_pow_right₀ (by decide) bits_le_commonType.1
          omega
        constructor
        · intro hgreater
          omega
        · rintro ⟨hlarge, -⟩
          omega
      · rcases hwidth.eq_or_lt with hsame | hless
        · rw [hsame]
          constructor
          · intro hgreater
            omega
          · rintro ⟨-, hnot⟩
            exact absurd ⟨by omega, rfl, by omega, by omega⟩ hnot
        · -- in a narrower type, the sum is below the left operand
          have hhalf : (2 : ℤ) * 2 ^ (commonType m R A).bits m ≤ 2 ^ U.bits m := by
            rw [← pow_succ']
            exact pow_le_pow_right₀ (by decide) hless
          have hAsum : (2 : ℤ) ^ A.bits m ≤ 2 ^ (commonType m R A).bits m :=
            pow_le_pow_right₀ (by decide) bits_le_commonType.2
          constructor
          · rintro -
            exact ⟨by omega, fun hlost => absurd hlost.2.1 hless.ne⟩
          · rintro -
            omega

/-! ## 6. All branches -/

/-- Nothing is lost where the difference is less than the power of two. -/
theorem not_lost {lhs rhs : ℤ} (h : lhs - rhs < 2 ^ (commonAll m A L R).bits m) : ¬ Lost m A L R lhs rhs :=
  fun hlost => absurd hlost.2.2.1 (not_le.mpr h)

theorem not_lost_of_same_sign {lhs rhs : ℤ} (hl : L.Has m lhs) (hr : R.Has m rhs) (hR : L.signed = R.signed) :
    ¬ Lost m A L R lhs rhs := by
  rintro ⟨hneg, -, hwide, -⟩
  obtain ⟨-, hLdigits, hRdigits⟩ := digits_le_commonAll (m := m) (A := A) (L := L) (R := R)
  have hmax : (0 : ℤ) ≤ A.max m := Int.natCast_nonneg _
  have hsigned : R.signed = true := by
    by_contra h
    have hpos := nonneg_of_unsigned hr (eq_false_of_ne_true h)
    omega
  have hlt := hl.lt
  have hmin := hr.1
  rw [IntegerType.min, if_pos hsigned] at hmin
  have hpowR : (2 : ℤ) * 2 ^ R.digits m ≤ 2 ^ (commonAll m A L R).bits m := by
    rw [← pow_succ', IntegerType.digits_of_signed hsigned]
    exact pow_le_pow_right₀ (by decide) bits_le_commonAll.2.2
  have hpowL : (2 : ℤ) * 2 ^ L.digits m ≤ 2 ^ (commonAll m A L R).bits m := by
    rw [← pow_succ', IntegerType.digits_of_signed (hR.trans hsigned)]
    exact pow_le_pow_right₀ (by decide) bits_le_commonAll.2.1
  omega

/-- **Which differences are exact**: all but those that are cut like the sum that they are compared with. -/
theorem subOverflow_eq_iff (m : DataModel) (A L R : IntegerType) (lhs rhs : ℤ) (hl : L.Has m lhs)
    (hr : R.Has m rhs) : subOverflow m A L R lhs rhs = some (exactResult m A (lhs - rhs)) ↔
      ¬ Lost m A L R lhs rhs := by
  classical
  obtain ⟨hAbits, -, -⟩ := bits_le_commonAll (m := m) (A := A) (L := L) (R := R)
  have hpow : (0 : ℤ) < 2 ^ (commonAll m A L R).bits m := pow_pos (by decide) _
  unfold subOverflow
  split
  · rename_i hrep
    refine iff_of_true (subRepresentable_eq hl hr hrep) (not_lost ?_)
    have hhas : A.Has m (lhs - rhs) := has_of_isSubRepresentable hl hr hrep
    exact hhas.lt_two_pow.trans_le (pow_le_pow_right₀ (by decide) hAbits)
  split
  · rename_i hsame
    exact iff_of_true (subSameSign_eq hl hr hsame.1 hsame.2) (not_lost_of_same_sign hl hr hsame.1)
  rw [cmpLess_eq hl hr]
  split
  · rename_i hless
    rw [decide_eq_true_eq] at hless
    refine iff_of_true ?_ (not_lost (by omega))
    cases hA : A.signed with
    | true => exact subNegativeSigned_eq hl hr hA hless
    | false => exact subNegative_eq hA hless
  · rename_i hle
    rw [decide_eq_true_eq, not_lt] at hle
    rw [subPositive_eq hl hr hle, exactResult, Option.some.injEq, OverflowResult.mk.injEq]
    have hhas : A.Has m (lhs - rhs) ↔ ¬ (A.max m : ℤ) < lhs - rhs := by
      rw [not_lt]
      exact ⟨fun h => h.2, fun h => ⟨min_le_zero.trans (by omega), h⟩⟩
    constructor
    · rintro ⟨-, hflag⟩ hlost
      -- a difference that is lost is too large
      have hlarge : ¬ A.Has m (lhs - rhs) := by
        intro h
        have hlt := h.lt_two_pow
        have hwidth : (2 : ℤ) ^ A.bits m ≤ 2 ^ (commonAll m A L R).bits m :=
          pow_le_pow_right₀ (by decide) hAbits
        exact absurd hlost.2.2.1 (by omega)
      rw [decide_eq_false fun h => h.2 hlost, decide_eq_false hlarge] at hflag
      exact absurd hflag (by decide)
    · intro hnot
      refine ⟨rfl, ?_⟩
      by_cases hlarge : (A.max m : ℤ) < lhs - rhs
      · rw [decide_eq_true ⟨hlarge, hnot⟩, decide_eq_false fun h => hhas.mp h hlarge]
        rfl
      · rw [decide_eq_false fun h => hlarge h.1, decide_eq_true (hhas.mpr hlarge)]
        rfl

/-- 40 of `uint8_t` and -20 of `int8_t`, to `uint16_t`. -/
theorem subOverflow_exact_short : subOverflow .lp64 ⟨.short, false⟩ ⟨.char, false⟩ ⟨.char, true⟩ 40 (-20) =
    some (exactResult .lp64 ⟨.short, false⟩ (40 - -20)) :=
  (subOverflow_eq_iff .lp64 ⟨.short, false⟩ ⟨.char, false⟩ ⟨.char, true⟩ 40 (-20) (by decide) (by decide)).mpr
    fun h => absurd h.1 (by decide)

/-- 2^64 - 800 of `uint64_t` and -1000 of `int64_t`, to `uint8_t`: the difference is cut to 200, without an
overflow. -/
theorem subOverflow_cut :
    subOverflow .lp64 ⟨.char, false⟩ ⟨.longLong, false⟩ ⟨.longLong, true⟩ (2 ^ 64 - 800) (-1000) ≠
      some (exactResult .lp64 ⟨.char, false⟩ (2 ^ 64 - 800 - -1000)) := by decide

end Cccl.Numeric
