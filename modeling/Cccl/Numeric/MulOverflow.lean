/-
# `mul_overflow`

The product of two integers as a value of a third type, and whether it is one.  Where there is a type of twice the
width, the product is computed in it (`overflow_cast`).  Else the magnitudes are multiplied, and an overflow shows in the
higher half (`mul_hi`), or in the comparison of the lower half with the magnitude of the limit on the side of the sign.

All three branches are exact (`mulOverflow_eq`): the magnitude of a value is below the power of two of every type that
is at least as wide, and the limits of a type are the last magnitudes on both sides.
-/
import Cccl.Numeric.MulHi
import Cccl.Numeric.SubOverflow

namespace Cccl.Numeric

open IntegerTypes

/-! ## 1. The function -/

section

variable (m : DataModel) (A L R : IntegerType)

/-- `__cccl_uintmax_t`. -/
def uintmax (hasInt128 : Bool) : IntegerType := .ofBits (Cmath.uintmaxBits hasInt128) false

/-- The branch of types that have a wider one. -/
def mulWider (lhs rhs : ℤ) : Option OverflowResult :=
  let up := IntegerType.ofBits (2 * max (L.bits m) (R.bits m)) (L.signed || R.signed)
  (times m up (up.staticCast m lhs) (up.staticCast m rhs)).map fun result => overflowCast m A up.promoted result

/-- The branch of a signed operand. -/
def mulMagnitudes (hasInt128 : Bool) (lhs rhs : ℤ) : Option OverflowResult := do
  let negativeResult := decide (0 ≤ lhs) != decide (0 ≤ rhs)
  let ulhs := Cmath.uabs m L lhs
  let urhs := Cmath.uabs m R rhs
  let uresultLo ← times m (uintmax hasInt128) ulhs urhs
  let uresultHi ← mulHi m (uintmax hasInt128) hasInt128 ulhs urhs
  let uresultMax := Cmath.uabs m A (if negativeResult then A.min m else A.max m)
  let result := A.staticCast m (if negativeResult then Cmath.neg m (uintmax hasInt128) uresultLo else uresultLo)
  some ⟨result, decide (uresultHi ≠ 0) || decide (uresultMax < uresultLo)⟩

/-- The branch of unsigned operands. -/
def mulUnsigned (hasInt128 : Bool) (lhs rhs : ℤ) : Option OverflowResult := do
  let product ← times m (arithmeticType m L R) ((arithmeticType m L R).staticCast m lhs)
    ((arithmeticType m L R).staticCast m rhs)
  let result := overflowCast m A (arithmeticType m L R) product
  let hi ← mulHi m (uintmax hasInt128) hasInt128 lhs rhs
  some ⟨result.value, result.overflow || decide (hi ≠ 0)⟩

/-- `mul_overflow`, without the built-in function. -/
def mulOverflow (hasInt128 : Bool) (lhs rhs : ℤ) : Option OverflowResult :=
  if L.bits m < Cmath.uintmaxBits hasInt128 ∧ R.bits m < Cmath.uintmaxBits hasInt128 then mulWider m A L R lhs rhs
  else if L.signed || R.signed then mulMagnitudes m A L R hasInt128 lhs rhs
  else mulUnsigned m A L R hasInt128 lhs rhs

end

variable {m : DataModel} {T U A L R : IntegerType} {hasInt128 : Bool} {lhs rhs : ℤ}

/-! ## 2. Types -/

theorem bits_uintmax : (uintmax hasInt128).bits m = Cmath.uintmaxBits hasInt128 := by
  cases m <;> cases hasInt128 <;> rfl

theorem uintmax_promoted : (uintmax hasInt128).promoted = uintmax hasInt128 := by
  cases hasInt128 <;> rfl

theorem bits_up (hL : L.bits m < Cmath.uintmaxBits hasInt128) (hR : R.bits m < Cmath.uintmaxBits hasInt128)
    (signed : Bool) :
    (IntegerType.ofBits (2 * max (L.bits m) (R.bits m)) signed).bits m = 2 * max (L.bits m) (R.bits m) := by
  have hnarrow : ∀ {T : IntegerType}, T.bits m < Cmath.uintmaxBits hasInt128 → T.bits m ≤ 64 := by
    intro T
    change T.rank.bits m < _ → T.rank.bits m ≤ 64
    cases m <;> cases hasInt128 <;> cases T.rank <;> decide
  rcases Nat.le_total (L.bits m) (R.bits m) with hle | hle
  · rw [Nat.max_eq_right hle]
    exact bits_larger signed (hnarrow hR)
  · rw [Nat.max_eq_left hle]
    exact bits_larger signed (hnarrow hL)

theorem has_iff_le_limit {n : ℕ} : A.Has m n ↔ (n : ℤ) ≤ A.max m :=
  ⟨fun h => h.2, fun h => ⟨min_le_zero.trans (Int.natCast_nonneg n), h⟩⟩

theorem has_neg_iff_le_limit {n : ℕ} : A.Has m (-n) ↔ (n : ℤ) ≤ (A.min m).natAbs := by
  have hmin : A.min m ≤ 0 := min_le_zero
  have hmax : (0 : ℤ) ≤ A.max m := Int.natCast_nonneg _
  rw [IntegerType.Has]
  omega

theorem times_unsigned (hT : T.signed = false) (hword : T.promoted = T) (x y : ℤ) :
    times m T x y = some (x * y % 2 ^ T.bits m) := by
  rw [times, hword, hT, if_neg (by decide), IntegerType.staticCast, hT, if_neg (by decide)]

/-- Unsigned operands, one of them not narrower than any other type. -/
theorem arithmeticType_unsigned (hL : L.signed = false) (hR : R.signed = false)
    (hL' : L.bits m ≤ Cmath.uintmaxBits hasInt128) (hR' : R.bits m ≤ Cmath.uintmaxBits hasInt128)
    (hwide : ¬(L.bits m < Cmath.uintmaxBits hasInt128 ∧ R.bits m < Cmath.uintmaxBits hasInt128)) :
    (arithmeticType m L R).signed = false ∧ (arithmeticType m L R).promoted = arithmeticType m L R ∧
      (arithmeticType m L R).bits m = Cmath.uintmaxBits hasInt128 := by
  obtain ⟨rankL, signedL⟩ := L
  obtain ⟨rankR, signedR⟩ := R
  subst hL hR
  revert hL' hR' hwide
  cases m <;> cases hasInt128 <;> cases rankL <;> cases rankR <;> decide

/-! ## 3. The branches -/

theorem mulWider_eq (hl : L.Has m lhs) (hr : R.Has m rhs) (hL : L.bits m < Cmath.uintmaxBits hasInt128)
    (hR : R.bits m < Cmath.uintmaxBits hasInt128) : mulWider m A L R lhs rhs = some (exactResult m A (lhs * rhs)) := by
  have hbits := bits_up hL hR (L.signed || R.signed)
  obtain ⟨up, hup⟩ : ∃ up, up = IntegerType.ofBits (2 * max (L.bits m) (R.bits m)) (L.signed || R.signed) := ⟨_, rfl⟩
  have hsigned : up.signed = (L.signed || R.signed) := by rw [hup]; rfl
  rw [← hup] at hbits
  have hdigits : L.digits m ≤ up.digits m ∧ R.digits m ≤ up.digits m := by
    have hpos := IntegerType.bits_pos (m := m) (T := L)
    have hone : up.signed.toNat ≤ 1 := Bool.toNat_le _
    rw [IntegerType.digits, IntegerType.digits, IntegerType.digits, hbits]
    omega
  have hlUp := hl.of_digits hdigits.1 fun h => by rw [hsigned, h]; rfl
  have hrUp := hr.of_digits hdigits.2 fun h => by rw [hsigned, h, Bool.or_true]
  have hproduct := has_product hl hr hbits hsigned
  rw [mulWider, ← hup, IntegerType.staticCast_of_has hlUp, IntegerType.staticCast_of_has hrUp, times_of_has hproduct, Option.map_some,
    overflowCast_eq (IntegerType.has_promoted hproduct)]

/-- The higher half of a product is zero, or the product is too large for all types. -/
theorem not_has_of_higher (hA : A.bits m ≤ Cmath.uintmaxBits hasInt128) {v : ℤ}
    (h : v.natAbs / 2 ^ Cmath.uintmaxBits hasInt128 ≠ 0) : ¬ A.Has m v := by
  intro hv
  have hlt := (natAbs_lt_two_pow hv).trans_le (Nat.pow_le_pow_right (by decide) hA)
  exact h (Nat.div_eq_of_lt hlt)

theorem mul_eq_of_sign (lhs rhs : ℤ) : lhs * rhs =
    if (decide (0 ≤ lhs) != decide (0 ≤ rhs)) = true then -((lhs * rhs).natAbs : ℤ) else (lhs * rhs).natAbs := by
  have hless : ∀ {v : ℤ}, v < 0 → decide (0 ≤ v) = false := fun hv => decide_eq_false (Int.not_le.mpr hv)
  rcases Int.lt_or_le lhs 0 with hl | hl <;> rcases Int.lt_or_le rhs 0 with hr | hr
  · rw [hless hl, hless hr, Int.natAbs_of_nonneg (mul_nonneg_of_nonpos_of_nonpos hl.le hr.le)]
    rfl
  · rw [hless hl, decide_eq_true hr, Int.ofNat_natAbs_of_nonpos (mul_nonpos_of_nonpos_of_nonneg hl.le hr), neg_neg]
    rfl
  · rw [hless hr, decide_eq_true hl, Int.ofNat_natAbs_of_nonpos (mul_nonpos_of_nonneg_of_nonpos hl hr.le), neg_neg]
    rfl
  · rw [decide_eq_true hl, decide_eq_true hr, Int.natAbs_of_nonneg (mul_nonneg hl hr)]
    rfl

theorem mulMagnitudes_eq (hl : L.Has m lhs) (hr : R.Has m rhs) (hA : A.bits m ≤ Cmath.uintmaxBits hasInt128)
    (hL : L.bits m ≤ Cmath.uintmaxBits hasInt128) (hR : R.bits m ≤ Cmath.uintmaxBits hasInt128) :
    mulMagnitudes m A L R hasInt128 lhs rhs = some (exactResult m A (lhs * rhs)) := by
  obtain ⟨U, hU⟩ : ∃ U, U = uintmax hasInt128 := ⟨_, rfl⟩
  have hbits : U.bits m = Cmath.uintmaxBits hasInt128 := hU ▸ bits_uintmax
  have hunsigned : U.signed = false := hU ▸ rfl
  have hword : U.promoted = U := hU ▸ uintmax_promoted
  rw [← hbits] at hA hL hR
  obtain ⟨n, hn⟩ : ∃ n, n = lhs.natAbs * rhs.natAbs := ⟨_, rfl⟩
  have hnatAbs : (lhs * rhs).natAbs = n := by rw [Int.natAbs_mul, hn]
  have hhas : ∀ {T : IntegerType} {v : ℤ}, T.Has m v → T.bits m ≤ U.bits m → U.Has m v.natAbs := by
    intro T v hv hle
    rw [IntegerType.has_natCast_iff, IntegerType.digits_of_unsigned hunsigned]
    exact (natAbs_lt_two_pow hv).trans_le (Nat.pow_le_pow_right (by decide) hle)
  have hlo : times m U lhs.natAbs rhs.natAbs = some (n % 2 ^ U.bits m : ℤ) := by
    rw [times_unsigned hunsigned hword, ← Int.natCast_mul, ← hn]
  have hhi : mulHi m U hasInt128 lhs.natAbs rhs.natAbs = some (n / 2 ^ U.bits m : ℤ) := by
    rw [mulHi_eq hasInt128 (hhas hl hL) (hhas hr hR), ← Int.natCast_mul, ← hn]
  have hlimit : Cmath.uabs m A (if (decide (0 ≤ lhs) != decide (0 ≤ rhs)) = true then A.min m else A.max m) =
      if (decide (0 ≤ lhs) != decide (0 ≤ rhs)) = true then ((A.min m).natAbs : ℤ) else A.max m := by
    split
    · exact Cmath.uabs_eq has_min
    · rw [Cmath.uabs_eq has_max, Int.natAbs_natCast]
  have hproduct := mul_eq_of_sign lhs rhs
  rw [hnatAbs] at hproduct
  have hlow : (2 ^ U.bits m : ℤ) ∣ n % 2 ^ U.bits m - n := Int.dvd_emod_sub_self
  have hpow : (2 ^ A.bits m : ℤ) ∣ 2 ^ U.bits m := pow_dvd_pow 2 hA
  rw [mulMagnitudes, ← hU, Cmath.uabs_eq hl, Cmath.uabs_eq hr, hlo, hhi, hlimit]
  refine congrArg some ?_
  rw [exactResult, OverflowResult.mk.injEq]
  refine ⟨staticCast_congr (hpow.trans ?_), ?_⟩
  · split at hproduct
    · rename_i hopposite
      rw [if_pos hopposite, hproduct]
      have hsum := Int.dvd_sub (Cmath.dvd_neg_add (m := m) (T := U) (n % 2 ^ U.bits m)) hlow
      rwa [show Cmath.neg m U (n % 2 ^ U.bits m) + n % 2 ^ U.bits m - (n % 2 ^ U.bits m - n) =
        Cmath.neg m U (n % 2 ^ U.bits m) - -(n : ℤ) by ring] at hsum
    · rename_i halike
      rw [if_neg halike, hproduct]
      exact hlow
  · by_cases hhigh : n / 2 ^ U.bits m = 0
    · -- the lower half is the product
      have hsmall : n < 2 ^ U.bits m := by
        by_contra hmore
        exact absurd hhigh (Nat.div_pos (Nat.not_lt.mp hmore) (Nat.two_pow_pos _)).ne'
      have hzero : (n / 2 ^ U.bits m : ℤ) = 0 := by exact_mod_cast hhigh
      have hsame : (n % 2 ^ U.bits m : ℤ) = n := by exact_mod_cast Nat.mod_eq_of_lt hsmall
      rw [hzero, hsame, decide_eq_false (not_not.mpr rfl), Bool.false_or, ← decide_not]
      refine decide_eq_decide.mpr ?_
      rw [← not_le, hproduct]
      refine not_congr ?_
      split
      · exact has_neg_iff_le_limit.symm
      · exact has_iff_le_limit.symm
    · have hnot : ¬ A.Has m (lhs * rhs) := by
        rw [hbits] at hA
        refine not_has_of_higher hA ?_
        rwa [hnatAbs, ← hbits]
      have hmore : (n / 2 ^ U.bits m : ℤ) ≠ 0 := by exact_mod_cast hhigh
      rw [decide_eq_true hmore, decide_eq_false hnot]
      rfl

theorem mulUnsigned_eq (hl : L.Has m lhs) (hr : R.Has m rhs) (hA : A.bits m ≤ Cmath.uintmaxBits hasInt128)
    (hL : L.bits m ≤ Cmath.uintmaxBits hasInt128) (hR : R.bits m ≤ Cmath.uintmaxBits hasInt128)
    (hwide : ¬(L.bits m < Cmath.uintmaxBits hasInt128 ∧ R.bits m < Cmath.uintmaxBits hasInt128))
    (hLu : L.signed = false) (hRu : R.signed = false) :
    mulUnsigned m A L R hasInt128 lhs rhs = some (exactResult m A (lhs * rhs)) := by
  obtain ⟨hunsigned, hword, hbits⟩ := arithmeticType_unsigned (m := m) hLu hRu hL hR hwide
  obtain ⟨U, hU⟩ : ∃ U, U = arithmeticType m L R := ⟨_, rfl⟩
  rw [← hU] at hunsigned hword hbits
  obtain ⟨a, rfl⟩ := Int.eq_ofNat_of_zero_le (nonneg_of_unsigned hl hLu)
  obtain ⟨b, rfl⟩ := Int.eq_ofNat_of_zero_le (nonneg_of_unsigned hr hRu)
  have hhas : ∀ {T V : IntegerType} {v : ℕ}, T.Has m v → T.bits m ≤ Cmath.uintmaxBits hasInt128 →
      V.bits m = Cmath.uintmaxBits hasInt128 → V.signed = false → V.Has m v := by
    intro T V v hv hle hVbits hV
    rw [IntegerType.has_natCast_iff, IntegerType.digits_of_unsigned hV, hVbits]
    exact (natAbs_lt_two_pow hv).trans_le (Nat.pow_le_pow_right (by decide) hle)
  have hhi := mulHi_eq hasInt128 (hhas hl hL bits_uintmax rfl) (hhas hr hR bits_uintmax rfl) (m := m)
  rw [bits_uintmax, ← hbits] at hhi
  have hproduct : U.Has m (a * b % 2 ^ U.bits m : ℤ) := by
    have hcast : ((a * b : ℤ) % 2 ^ U.bits m) = ((a * b % 2 ^ U.bits m : ℕ) : ℤ) := by push_cast; rfl
    rw [hcast, IntegerType.has_natCast_iff, IntegerType.digits_of_unsigned hunsigned]
    exact Nat.mod_lt _ (Nat.two_pow_pos _)
  have hpow : (2 ^ A.bits m : ℤ) ∣ 2 ^ U.bits m := pow_dvd_pow 2 (hbits ▸ hA)
  rw [mulUnsigned, ← hU, IntegerType.staticCast_of_has (hhas hl hL hbits hunsigned),
    IntegerType.staticCast_of_has (hhas hr hR hbits hunsigned), times_unsigned hunsigned hword, hhi]
  change some _ = some _
  rw [overflowCast_eq hproduct, exactResult, exactResult, Option.some.injEq, OverflowResult.mk.injEq]
  refine ⟨staticCast_congr (hpow.trans Int.dvd_emod_sub_self), ?_⟩
  by_cases hhigh : a * b / 2 ^ U.bits m = 0
  · have hsmall : a * b < 2 ^ U.bits m := by
      by_contra hmore
      exact absurd hhigh (Nat.div_pos (Nat.not_lt.mp hmore) (Nat.two_pow_pos _)).ne'
    have hzero : (a * b / 2 ^ U.bits m : ℤ) = 0 := by exact_mod_cast hhigh
    have hsame : (a * b % 2 ^ U.bits m : ℤ) = a * b := by exact_mod_cast Nat.mod_eq_of_lt hsmall
    rw [hzero, hsame, decide_eq_false (not_not.mpr rfl), Bool.or_false]
  · have hnot : ¬ A.Has m (a * b) := by
      refine not_has_of_higher hA ?_
      rw [← hbits, Int.natAbs_mul]
      exact hhigh
    have hmore : (a * b / 2 ^ U.bits m : ℤ) ≠ 0 := by exact_mod_cast hhigh
    rw [decide_eq_true hmore, decide_eq_false hnot, Bool.or_true]
    rfl

/-- **`mul_overflow` is exact.** -/
theorem mulOverflow_eq (hl : L.Has m lhs) (hr : R.Has m rhs) (hA : A.bits m ≤ Cmath.uintmaxBits hasInt128)
    (hL : L.bits m ≤ Cmath.uintmaxBits hasInt128) (hR : R.bits m ≤ Cmath.uintmaxBits hasInt128) :
    mulOverflow m A L R hasInt128 lhs rhs = some (exactResult m A (lhs * rhs)) := by
  unfold mulOverflow
  split
  · rename_i hwider
    exact mulWider_eq hl hr hwider.1 hwider.2
  · rename_i hwide
    split
    · exact mulMagnitudes_eq hl hr hA hL hR
    · rename_i hunsigned
      rw [Bool.not_eq_true, Bool.or_eq_false_iff] at hunsigned
      exact mulUnsigned_eq hl hr hA hL hR hwide hunsigned.1 hunsigned.2

end Cccl.Numeric
