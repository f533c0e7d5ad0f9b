/-
# Evenly spaced bins

`ScaleTransform` of `kernel_histogram.cuh` for integers, and `MayOverflow` of `dispatch_histogram.cuh`.

Samples and levels meet in their common type, and there they are compared.  The differences are computed in its unsigned
type, in which that of two values of the common type always fits, and the bin in a type that is wide enough for the
difference times the number of bins, or else `MayOverflow` is true (`binSelect_spec`).  The common type of a signed and
an unsigned type may be unsigned, and then a negative level is a large number there: no sample is in any bin, as is also
told by the theorem (`no_bin_for_negative_level`).
-/
import Cccl.Numeric.SubOverflow

namespace Cccl.Histogram

open IntegerTypes Numeric

/-! ## 1. Types -/

/-- The integral types. -/
inductive Integral where
  | bool
  | integer (T : IntegerType)
  deriving DecidableEq

namespace Integral

variable (m : DataModel)

/-- The type with the width of an integral type, unsigned for `bool`. -/
def type : Integral → IntegerType
  | bool => ⟨.char, false⟩
  | integer T => T

def sizeof (T : Integral) : ℕ := T.type.bits m / 8

def max : Integral → ℕ
  | bool => 1
  | integer T => T.max m

def Has (T : Integral) (v : ℤ) : Prop :=
  match T with
  | bool => 0 ≤ v ∧ v ≤ 1
  | integer T => T.Has m v

instance (T : Integral) (v : ℤ) : Decidable (T.Has m v) := by
  cases T
  · exact inferInstanceAs (Decidable (_ ∧ _))
  · exact inferInstanceAs (Decidable (IntegerType.Has _ _ _))

def staticCast (T : Integral) (v : ℤ) : ℤ :=
  match T with
  | bool => if v = 0 then 0 else 1
  | integer T => T.staticCast m v

/-- Integral promotion. -/
def promoted : Integral → IntegerType
  | bool => ⟨.int, true⟩
  | integer T => T.promoted

/-- `__int128_t` or `__uint128_t`. -/
def isInt128 (T : Integral) : Bool := decide (T.type.rank = .int128)

end Integral

/-! ## 2. The code -/

section

variable (m : DataModel) (Level Sample : Integral)

def commonT : Integral :=
  if Level = Sample then Level else .integer (commonType m Level.promoted Sample.promoted)

def intArithmeticT : IntegerType :=
  if Sample.sizeof m + (commonT m Level Sample).sizeof m ≤ 4 then ⟨.int, false⟩
  else if (commonT m Level Sample).isInt128 then (commonT m Level Sample).type
  else ⟨.longLong, false⟩

def fractionStorageT : IntegerType :=
  if (commonT m Level Sample).isInt128 then intArithmeticT m Level Sample
  else if (commonT m Level Sample).sizeof m < 4 then ⟨.int, false⟩
  else (commonT m Level Sample).type.makeUnsigned

/-- `*` of two values of a type.  A product of signed numbers that the type does not have is undefined. -/
def times (T : IntegerType) (x y : ℤ) : Option ℤ :=
  if T.promoted.signed then if T.promoted.Has m (x * y) then some (x * y) else none
  else some (T.promoted.staticCast m (x * y))

def subtractAsUnsigned (T : Integral) (lhs rhs : ℤ) : Option ℤ := subAsUnsigned m T.type.makeUnsigned lhs rhs

/-- `ScaleTransform`, with the fraction of its scale. -/
structure ScaleTransform where
  max : ℤ
  min : ℤ
  bins : ℤ
  range : ℤ

/-- `ComputeScale`, and the rest of `Init`. -/
def init (numLevels maxLevel minLevel : ℤ) : Option ScaleTransform := do
  let CommonT := commonT m Level Sample
  let max := CommonT.staticCast m maxLevel
  let min := CommonT.staticCast m minLevel
  let FractionStorageT := fractionStorageT m Level Sample
  let bins := FractionStorageT.staticCast m (numLevels - 1)
  let range ←
    (if CommonT.isInt128 then
      minus m FractionStorageT (FractionStorageT.staticCast m max) (FractionStorageT.staticCast m min)
    else (subtractAsUnsigned m CommonT max min).map (FractionStorageT.staticCast m))
  some ⟨max, min, bins, range⟩

/-- `ComputeBin`.  A division by zero is undefined. -/
def computeBin (t : ScaleTransform) (sample : ℤ) : Option ℤ := do
  let CommonT := commonT m Level Sample
  let IntArithmeticT := intArithmeticT m Level Sample
  let offset ←
    (if CommonT.isInt128 then minus m CommonT.type sample t.min
    else (subtractAsUnsigned m CommonT sample t.min).map (IntArithmeticT.staticCast m))
  let product ← times m IntArithmeticT offset (IntArithmeticT.staticCast m t.bins)
  let range := IntArithmeticT.staticCast m t.range
  if range = 0 then none
  else some (IntegerType.staticCast m ⟨.int, true⟩ (product.tdiv range))

/-- `BinSelect` of a valid sample: its bin, if it has one. -/
def binSelect (t : ScaleTransform) (sample : ℤ) : Option (Option ℤ) :=
  let commonSample := (commonT m Level Sample).staticCast m sample
  if t.min ≤ commonSample ∧ commonSample < t.max then (computeBin m Level Sample t commonSample).map some
  else some none

def mayOverflow (numBins upperLevel lowerLevel : ℤ) : Option Bool :=
  let IntArithmeticT := intArithmeticT m Level Sample
  if ((commonT m Level Sample).max m : ℤ) < numBins then some true
  else do
    let range ← minus m IntArithmeticT (IntArithmeticT.staticCast m upperLevel) (IntArithmeticT.staticCast m lowerLevel)
    some (decide ((IntArithmeticT.max m : ℤ) / IntArithmeticT.staticCast m numBins < IntArithmeticT.staticCast m range))

end

variable {m : DataModel} {Level Sample : Integral} {T : IntegerType}

/-! ## 3. Types that are wide enough -/

theorem times_of_has {x y : ℤ} (h : T.Has m (x * y)) : times m T x y = some (x * y) := by
  have hpromoted := IntegerType.has_promoted h
  rw [times, if_pos hpromoted, IntegerType.staticCast_of_has hpromoted, ite_self]

theorem subtractAsUnsigned_of_has {T : Integral} {x y : ℤ} (h : T.type.makeUnsigned.Has m (x - y)) :
    subtractAsUnsigned m T x y = some (x - y) := by
  rw [subtractAsUnsigned, subAsUnsigned_eq, IntegerType.staticCast_of_has h]

theorem has_of_nonneg_of_lt {v : ℤ} (hT : T.signed = false) (hpos : 0 ≤ v) (hlt : v < 2 ^ T.bits m) : T.Has m v := by
  obtain ⟨n, rfl⟩ := Int.eq_ofNat_of_zero_le hpos
  rw [IntegerType.has_natCast_iff, IntegerType.digits_of_unsigned hT]
  exact_mod_cast hlt

theorem bits_le_promoted (T : Integral) : T.type.bits m ≤ T.promoted.bits m := by
  cases T with
  | bool => cases m <;> decide
  | integer T =>
    obtain ⟨rank, signed⟩ := T
    cases m <;> cases rank <;> cases signed <;> decide

theorem has_promoted {T : Integral} {v : ℤ} (h : T.Has m v) : T.promoted.Has m v := by
  cases T with
  | bool =>
    obtain ⟨hpos, hle⟩ := h
    have hmax : (1 : ℤ) ≤ (IntegerType.max m ⟨.int, true⟩ : ℕ) := by cases m <;> decide
    have hmin : IntegerType.min m ⟨.int, true⟩ ≤ 0 := by cases m <;> decide
    exact ⟨hmin.trans hpos, hle.trans hmax⟩
  | integer T => exact IntegerType.has_promoted h

theorem bits_le_commonT (Level Sample : Integral) : Level.type.bits m ≤ (commonT m Level Sample).type.bits m := by
  rw [commonT]
  split
  · exact le_rfl
  · exact (bits_le_promoted Level).trans bits_le_commonType.1

theorem has_commonT {v : ℤ} (hsigned : (commonT m Level Sample).type.signed = true) (h : Level.Has m v) :
    (commonT m Level Sample).Has m v := by
  rw [commonT] at hsigned ⊢
  split
  · exact h
  · rename_i hne
    rw [if_neg hne] at hsigned
    exact (has_promoted h).of_digits digits_le_commonType.1 fun _ => hsigned

theorem has_staticCast (T : Integral) (v : ℤ) : T.Has m (T.staticCast m v) := by
  cases T with
  | bool =>
    change 0 ≤ (if v = 0 then (0 : ℤ) else 1) ∧ (if v = 0 then (0 : ℤ) else 1) ≤ 1
    split <;> decide
  | integer T => exact IntegerType.has_staticCast v

theorem staticCast_of_has {T : Integral} {v : ℤ} (h : T.Has m v) : T.staticCast m v = v := by
  cases T with
  | bool =>
    obtain ⟨hpos, hle⟩ := h
    change (if v = 0 then (0 : ℤ) else 1) = v
    split <;> omega
  | integer T => exact IntegerType.staticCast_of_has h

theorem dvd_staticCast_commonT (Sample : Integral) {v : ℤ} (h : Level.Has m v) :
    (2 ^ (commonT m Level Sample).type.bits m : ℤ) ∣ (commonT m Level Sample).staticCast m v - v := by
  cases hcommon : commonT m Level Sample with
  | bool =>
    have hlevel : Level = .bool := by
      rw [commonT] at hcommon
      split at hcommon
      · exact hcommon
      · cases hcommon
    rw [staticCast_of_has (hlevel ▸ h), sub_self]
    exact dvd_zero _
  | integer T => exact IntegerType.dvd_staticCast_sub v

theorem sub_lt {T : Integral} {x y : ℤ} (hx : T.Has m x) (hy : T.Has m y) : x - y < 2 ^ T.type.bits m := by
  cases T with
  | bool =>
    obtain ⟨-, hx⟩ := hx
    obtain ⟨hy, -⟩ := hy
    have : (2 : ℤ) ^ (Integral.bool.type.bits m) = 256 := by cases m <;> rfl
    omega
  | integer T =>
    have hlt := IntegerType.Has.lt hx
    obtain ⟨hmin, -⟩ := hy
    change x - y < 2 ^ T.bits m
    rw [IntegerType.min] at hmin
    split at hmin
    · rename_i hsigned
      rw [← IntegerType.digits_of_signed hsigned, pow_succ]
      omega
    · rename_i hunsigned
      rw [← IntegerType.digits_of_unsigned (eq_false_of_ne_true hunsigned)]
      omega

/-- **Levels keep their distance** in the common type, if they keep their order. -/
theorem commonT_sub (Sample : Integral) {upper lower : ℤ} (hupper : Level.Has m upper) (hlower : Level.Has m lower) (hless : lower < upper)
    (horder : (commonT m Level Sample).staticCast m lower < (commonT m Level Sample).staticCast m upper) :
    (commonT m Level Sample).staticCast m upper - (commonT m Level Sample).staticCast m lower = upper - lower := by
  obtain ⟨C, hC⟩ : ∃ C, C = commonT m Level Sample := ⟨_, rfl⟩
  have hbits : (2 : ℤ) ^ Level.type.bits m ≤ 2 ^ C.type.bits m :=
    pow_le_pow_right₀ (by decide) (hC ▸ bits_le_commonT Level Sample)
  have hdvd := Int.dvd_sub (dvd_staticCast_commonT Sample hupper) (dvd_staticCast_commonT Sample hlower)
  rw [← hC] at horder hdvd ⊢
  have hconverted : C.type.makeUnsigned.Has m (C.staticCast m upper - C.staticCast m lower) :=
    has_of_nonneg_of_lt rfl (by omega) (sub_lt (has_staticCast C upper) (has_staticCast C lower))
  have hlevels : C.type.makeUnsigned.Has m (upper - lower) :=
    has_of_nonneg_of_lt rfl (by omega) ((sub_lt hupper hlower).trans_le hbits)
  rw [← IntegerType.staticCast_of_has hconverted, ← IntegerType.staticCast_of_has hlevels]
  refine staticCast_congr ?_
  rwa [sub_sub_sub_comm] at hdvd

theorem sizeof_pos (T : Integral) : 0 < T.sizeof m := by
  have hbits : 8 ≤ T.type.bits m := by
    rw [IntegerType.bits]
    cases m <;> cases T.type.rank <;> decide
  rw [Integral.sizeof]
  omega

/-- **The type the bin is computed in**: unsigned and at least as wide as the common type, or that itself. -/
theorem intArithmeticT_cases (m : DataModel) (Level Sample : Integral) :
    (commonT m Level Sample).isInt128 = true ∧ intArithmeticT m Level Sample = (commonT m Level Sample).type ∨
    (commonT m Level Sample).isInt128 = false ∧ (intArithmeticT m Level Sample).signed = false ∧
      (commonT m Level Sample).type.bits m ≤ (intArithmeticT m Level Sample).bits m ∧
      32 ≤ (intArithmeticT m Level Sample).bits m := by
  rw [intArithmeticT]
  obtain ⟨C, hC⟩ : ∃ C, C = commonT m Level Sample := ⟨_, rfl⟩
  rw [← hC]
  have hsize : C.sizeof m = C.type.bits m / 8 := rfl
  have hpos := sizeof_pos (m := m) Sample
  by_cases hwide : C.isInt128 = true
  · have hbits : C.type.bits m = 128 := by
      rw [IntegerType.bits, of_decide_eq_true hwide]
      cases m <;> rfl
    rw [if_neg (by omega), if_pos hwide]
    exact Or.inl ⟨hwide, rfl⟩
  · rw [if_neg hwide]
    refine Or.inr ⟨eq_false_of_ne_true hwide, ?_⟩
    split
    · have hint : IntegerType.bits m ⟨.int, false⟩ = 32 := by cases m <;> rfl
      exact ⟨rfl, by omega, by omega⟩
    · have hlong : IntegerType.bits m ⟨.longLong, false⟩ = 64 := by cases m <;> rfl
      have hbits : C.type.bits m ≤ 64 := by
        have hrank : C.type.rank ≠ .int128 := fun h => hwide (decide_eq_true h)
        rw [IntegerType.bits]
        revert hrank
        cases m <;> cases C.type.rank <;> decide
      exact ⟨rfl, by omega, by omega⟩

/-! ## 4. Bins -/

section Bins

variable {numBins upper lower : ℤ}

theorem bits_intArithmeticT (m : DataModel) (Level Sample : Integral) :
    (commonT m Level Sample).type.bits m ≤ (intArithmeticT m Level Sample).bits m ∧
      32 ≤ (intArithmeticT m Level Sample).bits m := by
  rcases intArithmeticT_cases m Level Sample with ⟨hC, heq⟩ | ⟨-, -, h⟩
  · rw [heq, IntegerType.bits, of_decide_eq_true hC]
    cases m <;> decide
  · exact h

/-- Types that are not narrower than `int`. -/
theorem promoted_of_wide (hwide : 32 ≤ T.bits m) : T.promoted = T := by
  obtain ⟨rank, signed⟩ := T
  revert hwide
  cases m <;> cases rank <;> cases signed <;> decide

theorem has_of_wide {v : ℤ} (hwide : 32 ≤ T.bits m) (hpos : 0 ≤ v) (hint : v ≤ IntegerType.max m ⟨.int, true⟩) :
    T.Has m v := by
  obtain ⟨n, rfl⟩ := Int.eq_ofNat_of_zero_le hpos
  have hdigits : 31 ≤ T.digits m := by
    have hsign := Bool.toNat_le T.signed
    rw [IntegerType.digits]
    omega
  have hlt : n < 2 ^ 31 := by
    have hmax : IntegerType.max m ⟨.int, true⟩ = 2 ^ 31 - 1 := by cases m <;> rfl
    rw [hmax] at hint
    omega
  exact IntegerType.has_natCast_iff.mpr (hlt.trans_le (Nat.pow_le_pow_right (by decide) hdigits))

theorem eq_integer_of_isInt128 {C : Integral} (h : C.isInt128 = true) : C = .integer C.type := by
  cases C with
  | bool => cases h
  | integer T => rfl

theorem minus_levels (hupper : Level.Has m upper) (hlower : Level.Has m lower) (hless : lower < upper) {r : ℤ}
    (h : minus m (intArithmeticT m Level Sample) ((intArithmeticT m Level Sample).staticCast m upper)
      ((intArithmeticT m Level Sample).staticCast m lower) = some r) :
    (intArithmeticT m Level Sample).staticCast m r = upper - lower ∧
      (intArithmeticT m Level Sample).Has m (upper - lower) := by
  obtain ⟨hbits, hwide⟩ := bits_intArithmeticT m Level Sample
  have hcases := intArithmeticT_cases m Level Sample
  obtain ⟨A, hA⟩ : ∃ A, A = intArithmeticT m Level Sample := ⟨_, rfl⟩
  rw [← hA] at h hbits hwide hcases ⊢
  rw [minus, promoted_of_wide hwide] at h
  split at h
  · -- a signed type is the common type
    rename_i hsigned
    rcases hcases with ⟨hC, heq⟩ | ⟨-, hunsigned, -⟩
    · rw [heq] at hsigned
      have hboth := eq_integer_of_isInt128 hC
      have hkeep : ∀ {v : ℤ}, Level.Has m v → A.staticCast m v = v := fun hv => by
        have hhas := has_commonT hsigned hv
        rw [hboth] at hhas
        exact heq ▸ IntegerType.staticCast_of_has hhas
      rw [hkeep hupper, hkeep hlower] at h
      split at h
      · rename_i hhas
        rw [Option.some.injEq] at h
        exact ⟨h ▸ IntegerType.staticCast_of_has hhas, hhas⟩
      · cases h
    · rw [hunsigned] at hsigned
      cases hsigned
  · rename_i hunsigned
    have hpow : (2 : ℤ) ^ Level.type.bits m ≤ 2 ^ A.bits m :=
      pow_le_pow_right₀ (by decide) ((bits_le_commonT Level Sample).trans hbits)
    have hhas : A.Has m (upper - lower) := has_of_nonneg_of_lt (eq_false_of_ne_true hunsigned) (by omega)
      ((sub_lt hupper hlower).trans_le hpow)
    rw [Option.some.injEq] at h
    refine ⟨?_, hhas⟩
    rw [← h, IntegerType.staticCast_staticCast (le_refl _), sub_eq_add_neg]
    refine IntegerType.staticCast_eq hhas ?_
    have hu := IntegerType.dvd_staticCast_sub (m := m) (T := A) upper
    have hl := IntegerType.dvd_staticCast_sub (m := m) (T := A) lower
    have hsub := Int.dvd_sub hu hl
    rwa [sub_sub_sub_comm, sub_eq_add_neg (A.staticCast m upper)] at hsub

/-- **What it means that nothing may overflow**: the type has the number of bins times the range. -/
theorem of_mayOverflow_eq_false (hbins : 0 < numBins) (hint : numBins ≤ IntegerType.max m ⟨.int, true⟩)
    (hupper : Level.Has m upper) (hlower : Level.Has m lower) (hless : lower < upper)
    (h : mayOverflow m Level Sample numBins upper lower = some false) :
    numBins ≤ (commonT m Level Sample).max m ∧ (upper - lower) * numBins ≤ (intArithmeticT m Level Sample).max m := by
  rw [mayOverflow] at h
  split at h
  · cases h
  · rename_i hmax
    refine ⟨not_lt.mp hmax, ?_⟩
    cases hr : minus m (intArithmeticT m Level Sample) ((intArithmeticT m Level Sample).staticCast m upper)
        ((intArithmeticT m Level Sample).staticCast m lower) with
    | none =>
      rw [hr] at h
      cases h
    | some r =>
      obtain ⟨hrange, -⟩ := minus_levels hupper hlower hless hr
      have hnum := has_of_wide (bits_intArithmeticT m Level Sample).2 hbins.le hint
      rw [hr] at h
      change some (decide (((intArithmeticT m Level Sample).max m : ℤ) /
        (intArithmeticT m Level Sample).staticCast m numBins < (intArithmeticT m Level Sample).staticCast m r)) =
        some false at h
      rw [Option.some.injEq, decide_eq_false_iff_not, not_lt, hrange, IntegerType.staticCast_of_has hnum] at h
      exact (Int.le_ediv_iff_mul_le hbins).mp h

theorem bits_fractionStorageT (m : DataModel) (Level Sample : Integral) :
    (commonT m Level Sample).type.bits m ≤ (fractionStorageT m Level Sample).bits m ∧
      32 ≤ (fractionStorageT m Level Sample).bits m := by
  have hsize : (commonT m Level Sample).sizeof m = (commonT m Level Sample).type.bits m / 8 := rfl
  rw [fractionStorageT]
  split
  · exact bits_intArithmeticT m Level Sample
  · split
    · have hint : IntegerType.bits m ⟨.int, false⟩ = 32 := by cases m <;> rfl
      omega
    · rw [IntegerType.bits_makeUnsigned]
      omega

theorem fractionStorageT_unsigned (h : (commonT m Level Sample).isInt128 = false) :
    (fractionStorageT m Level Sample).signed = false := by
  rw [fractionStorageT, if_neg (Bool.eq_false_iff.mp h)]
  split <;> rfl

theorem fractionStorageT_eq (h : (commonT m Level Sample).isInt128 = true) :
    intArithmeticT m Level Sample = (commonT m Level Sample).type ∧
      fractionStorageT m Level Sample = (commonT m Level Sample).type := by
  have heq : intArithmeticT m Level Sample = (commonT m Level Sample).type := by
    rcases intArithmeticT_cases m Level Sample with ⟨-, heq⟩ | ⟨hnot, -⟩
    · exact heq
    · rw [h] at hnot
      cases hnot
  rw [fractionStorageT, if_pos h]
  exact ⟨heq, heq⟩

theorem has_type_of_isInt128 {C : Integral} {v : ℤ} (h : C.isInt128 = true) (hv : C.Has m v) : C.type.Has m v := by
  rw [eq_integer_of_isInt128 h] at hv
  exact hv

/-- The difference of two values of the common type that are in order. -/
theorem has_makeUnsigned {C : Integral} {x y : ℤ} (hx : C.Has m x) (hy : C.Has m y) (hle : y ≤ x) :
    C.type.makeUnsigned.Has m (x - y) :=
  has_of_nonneg_of_lt rfl (sub_nonneg.mpr hle) (sub_lt hx hy)

theorem range_eq (hupper : Level.Has m upper) (hlower : Level.Has m lower) (hless : lower < upper)
    (hfits : (intArithmeticT m Level Sample).Has m (upper - lower)) {C : Integral} (hC : C = commonT m Level Sample)
    {F : IntegerType} (hF : F = fractionStorageT m Level Sample) :
    ∃ r, (if C.isInt128 then
        minus m F (F.staticCast m (C.staticCast m upper)) (F.staticCast m (C.staticCast m lower))
      else (subtractAsUnsigned m C (C.staticCast m upper) (C.staticCast m lower)).map (F.staticCast m)) = some r ∧
      (C.staticCast m lower < C.staticCast m upper → r = upper - lower) := by
  obtain ⟨hbits, hwide⟩ := bits_fractionStorageT m Level Sample
  have hu := has_staticCast (m := m) C upper
  have hl := has_staticCast (m := m) C lower
  have hsub := commonT_sub Sample hupper hlower hless
  rw [← hC] at hsub hbits
  rw [← hF] at hbits hwide
  by_cases h128 : C.isInt128 = true
  · obtain ⟨hA, hstorage⟩ := fractionStorageT_eq (hC ▸ h128)
    rw [← hC] at hA
    rw [← hF, ← hC] at hstorage
    rw [hA, ← hstorage] at hfits
    rw [if_pos h128, hstorage, IntegerType.staticCast_of_has (has_type_of_isInt128 h128 hu),
      IntegerType.staticCast_of_has (has_type_of_isInt128 h128 hl), minus, ← hstorage, promoted_of_wide hwide]
    split
    · rename_i hsigned
      rw [hstorage, hC] at hsigned
      rw [hC, staticCast_of_has (has_commonT hsigned hupper), staticCast_of_has (has_commonT hsigned hlower),
        if_pos hfits]
      exact ⟨_, rfl, fun _ => rfl⟩
    · refine ⟨_, rfl, fun horder => ?_⟩
      rw [hsub horder, IntegerType.staticCast_of_has hfits]
  · rw [if_neg h128, subtractAsUnsigned, subAsUnsigned_eq]
    refine ⟨_, rfl, fun horder => ?_⟩
    have hdifference := has_makeUnsigned hu hl horder.le
    have hunsigned : F.signed = false := by
      rw [hF]
      exact fractionStorageT_unsigned (hC ▸ eq_false_of_ne_true h128)
    have hstorage : F.Has m (C.staticCast m upper - C.staticCast m lower) :=
      has_of_nonneg_of_lt hunsigned (by omega) ((sub_lt hu hl).trans_le (pow_le_pow_right₀ (by decide) hbits))
    rw [IntegerType.staticCast_of_has hdifference, IntegerType.staticCast_of_has hstorage, hsub horder]

/-- **The scale**, as the levels are in the common type. -/
theorem init_eq {numLevels : ℤ} (hpos : 2 ≤ numLevels) (hint : numLevels ≤ IntegerType.max m ⟨.int, true⟩)
    (hupper : Level.Has m upper) (hlower : Level.Has m lower) (hless : lower < upper)
    (hfits : (intArithmeticT m Level Sample).Has m (upper - lower)) :
    ∃ t, init m Level Sample numLevels upper lower = some t ∧
      t.max = (commonT m Level Sample).staticCast m upper ∧ t.min = (commonT m Level Sample).staticCast m lower ∧
      t.bins = numLevels - 1 ∧ (t.min < t.max → t.range = upper - lower) := by
  have hbins : (fractionStorageT m Level Sample).staticCast m (numLevels - 1) = numLevels - 1 :=
    IntegerType.staticCast_of_has (has_of_wide (bits_fractionStorageT m Level Sample).2 (by omega) (by omega))
  obtain ⟨r, hr, hrange⟩ := range_eq hupper hlower hless hfits rfl rfl
  refine ⟨⟨_, _, numLevels - 1, r⟩, ?_, rfl, rfl, rfl, hrange⟩
  rw [init, hr, hbins]
  rfl

/-- **The bin of a sample** between the levels. -/
theorem computeBin_eq {t : ScaleTransform} {sample : ℤ} (hsample : (commonT m Level Sample).Has m sample)
    (hmin : (commonT m Level Sample).Has m t.min) (hbelow : t.min ≤ sample) (habove : sample - t.min < t.range)
    (hbins : 0 < t.bins) (hint : t.bins ≤ IntegerType.max m ⟨.int, true⟩)
    (hfits : t.range * t.bins ≤ (intArithmeticT m Level Sample).max m) :
    computeBin m Level Sample t sample = some ((sample - t.min) * t.bins / t.range) ∧
      (intArithmeticT m Level Sample).Has m ((sample - t.min) * t.bins) ∧
      0 ≤ (sample - t.min) * t.bins / t.range ∧ (sample - t.min) * t.bins / t.range < t.bins := by
  obtain ⟨A, hA⟩ : ∃ A, A = intArithmeticT m Level Sample := ⟨_, rfl⟩
  have hwide := (bits_intArithmeticT m Level Sample).2
  rw [← hA] at hfits hwide ⊢
  have hoffset : 0 ≤ sample - t.min := sub_nonneg.mpr hbelow
  have hrange : 0 < t.range := by omega
  -- all numbers on the way are at most the range times the bins
  have hhas : ∀ {v : ℤ}, 0 ≤ v → v ≤ t.range * t.bins → A.Has m v := by
    intro v hpos hle
    obtain ⟨n, rfl⟩ := Int.eq_ofNat_of_zero_le hpos
    exact IntegerType.has_of_le (by exact_mod_cast hle.trans hfits)
  have hproduct : (sample - t.min) * t.bins ≤ t.range * t.bins := Int.mul_le_mul_of_nonneg_right habove.le hbins.le
  have hrangeLe : t.range ≤ t.range * t.bins := le_mul_of_one_le_right hrange.le hbins
  have hproductHas : A.Has m ((sample - t.min) * t.bins) := hhas (mul_nonneg hoffset hbins.le) hproduct
  have hoffsetHas : A.Has m (sample - t.min) := hhas hoffset (habove.le.trans hrangeLe)
  have hquotient : (sample - t.min) * t.bins / t.range < t.bins := by
    refine Int.ediv_lt_of_lt_mul hrange ?_
    rw [Int.mul_comm t.bins]
    exact Int.mul_lt_mul_of_pos_right habove hbins
  have hnonneg : 0 ≤ (sample - t.min) * t.bins / t.range := Int.ediv_nonneg (mul_nonneg hoffset hbins.le) hrange.le
  refine ⟨?_, hproductHas, hnonneg, hquotient⟩
  have hdifference : (if (commonT m Level Sample).isInt128 then minus m (commonT m Level Sample).type sample t.min
      else (subtractAsUnsigned m (commonT m Level Sample) sample t.min).map (A.staticCast m)) = some (sample - t.min) := by
    split
    · rename_i h128
      refine minus_of_has ?_
      rw [← (fractionStorageT_eq h128).1, ← hA]
      exact hoffsetHas
    · rw [subtractAsUnsigned_of_has (has_makeUnsigned hsample hmin hbelow), Option.map_some,
        IntegerType.staticCast_of_has hoffsetHas]
  rw [computeBin, ← hA, hdifference]
  change (times m A (sample - t.min) (A.staticCast m t.bins)).bind _ = _
  rw [IntegerType.staticCast_of_has (has_of_wide hwide hbins.le hint), times_of_has hproductHas]
  change (if A.staticCast m t.range = 0 then none else _) = _
  rw [IntegerType.staticCast_of_has (hhas hrange.le hrangeLe), if_neg hrange.ne',
    Int.tdiv_eq_ediv_of_nonneg (mul_nonneg hoffset hbins.le)]
  refine congrArg some (IntegerType.staticCast_of_has (has_of_wide ?_ hnonneg (hquotient.le.trans hint)))
  cases m <;> decide

end Bins

/-- What `BinSelect` does with any sample, by its value in the common type. -/
theorem bins_of_levels {numLevels upper lower : ℤ} (hlevels : 2 ≤ numLevels)
    (hint : numLevels ≤ IntegerType.max m ⟨.int, true⟩) (hupper : Level.Has m upper) (hlower : Level.Has m lower)
    (hless : lower < upper) (hfits : mayOverflow m Level Sample (numLevels - 1) upper lower = some false) :
    ∃ t, init m Level Sample numLevels upper lower = some t ∧ ∀ sample,
      let CommonT := commonT m Level Sample
      let s := CommonT.staticCast m sample
      let min := CommonT.staticCast m lower
      let max := CommonT.staticCast m upper
      let bin := (s - min) * (numLevels - 1) / (upper - lower)
      (min ≤ s ∧ s < max → binSelect m Level Sample t sample = some (some bin) ∧ 0 ≤ bin ∧ bin < numLevels - 1 ∧
        max - min = upper - lower ∧ CommonT.type.makeUnsigned.Has m (s - min) ∧
        (intArithmeticT m Level Sample).Has m ((s - min) * (numLevels - 1))) ∧
      (¬(min ≤ s ∧ s < max) → binSelect m Level Sample t sample = some none) := by
  obtain ⟨-, hproduct⟩ := of_mayOverflow_eq_false (by omega) (by omega) hupper hlower hless hfits
  have hrangeHas : (intArithmeticT m Level Sample).Has m (upper - lower) := by
    obtain ⟨n, hn⟩ := Int.eq_ofNat_of_zero_le (sub_nonneg.mpr hless.le)
    have hle : upper - lower ≤ (upper - lower) * (numLevels - 1) := le_mul_of_one_le_right (by omega) (by omega)
    rw [hn] at hle hproduct ⊢
    exact IntegerType.has_of_le (by exact_mod_cast hle.trans hproduct)
  obtain ⟨t, ht, hmax, hmin, hbins, hrange⟩ := init_eq hlevels hint hupper hlower hless hrangeHas
  refine ⟨t, ht, fun sample => ?_⟩
  have hs := has_staticCast (m := m) (commonT m Level Sample) sample
  have hl := has_staticCast (m := m) (commonT m Level Sample) lower
  rw [hmax, hmin] at hrange
  dsimp only
  constructor
  · rintro ⟨hbelow, habove⟩
    have horder := hbelow.trans_lt habove
    have hsub := commonT_sub Sample hupper hlower hless horder
    have hbin := computeBin_eq (t := t) hs (hmin ▸ hl) (hmin ▸ hbelow) (by rw [hmin, hrange horder]; omega) (by omega)
      (by omega) (by rw [hrange horder, hbins]; exact hproduct)
    rw [hmin, hbins, hrange horder] at hbin
    obtain ⟨hcompute, hhas, hnonneg, hlt⟩ := hbin
    refine ⟨?_, hnonneg, hlt, hsub, has_makeUnsigned hs hl hbelow, hhas⟩
    rw [binSelect, hmin, hmax, if_pos ⟨hbelow, habove⟩, hcompute]
    rfl
  · intro hout
    rw [binSelect, hmin, hmax, if_neg hout]

/-- **Even bins.**  If nothing may overflow, a sample has a bin if it is between the levels as values of the common type:
the part of the range that is below it, as a part of the bins, rounded down.  The differences and the product are numbers
of the types they are computed in.  For samples and levels that the common type has, these are the levels themselves. -/
theorem binSelect_spec (m : DataModel) (Level Sample : Integral) {numLevels upper lower : ℤ} (hlevels : 2 ≤ numLevels)
    (hint : numLevels ≤ IntegerType.max m ⟨.int, true⟩) (hupper : Level.Has m upper) (hlower : Level.Has m lower)
    (hless : lower < upper) (hfits : mayOverflow m Level Sample (numLevels - 1) upper lower = some false) :
    ∃ t, init m Level Sample numLevels upper lower = some t ∧ ∀ sample,
      let CommonT := commonT m Level Sample
      let s := CommonT.staticCast m sample
      let min := CommonT.staticCast m lower
      let max := CommonT.staticCast m upper
      let bin := (s - min) * (numLevels - 1) / (upper - lower)
      (min ≤ s ∧ s < max → binSelect m Level Sample t sample = some (some bin) ∧ 0 ≤ bin ∧ bin < numLevels - 1 ∧
        max - min = upper - lower ∧ CommonT.type.makeUnsigned.Has m (s - min) ∧
        (intArithmeticT m Level Sample).Has m ((s - min) * (numLevels - 1))) ∧
      (¬(min ≤ s ∧ s < max) → binSelect m Level Sample t sample = some none) ∧
      (CommonT.Has m lower → CommonT.Has m upper → CommonT.Has m sample →
        binSelect m Level Sample t sample = some (if lower ≤ sample ∧ sample < upper then
          some ((sample - lower) * (numLevels - 1) / (upper - lower)) else none)) := by
  obtain ⟨t, ht, hall⟩ := bins_of_levels hlevels hint hupper hlower hless hfits
  refine ⟨t, ht, fun sample => ⟨(hall sample).1, (hall sample).2, fun hl hu hs => ?_⟩⟩
  have hbin := hall sample
  dsimp only at hbin
  rw [staticCast_of_has hl, staticCast_of_has hu, staticCast_of_has hs] at hbin
  split
  · rename_i hin
    exact (hbin.1 hin).1
  · rename_i hout
    exact hbin.2 hout

/-- Three bins of all numbers of `int`. -/
theorem binSelect_spec_int : ∃ t, init .lp64 (.integer ⟨.int, true⟩) (.integer ⟨.int, true⟩) 4 2147483647 (-2147483648) = some t ∧
    ∀ sample,
      let CommonT := commonT .lp64 (.integer ⟨.int, true⟩) (.integer ⟨.int, true⟩)
      let s := CommonT.staticCast .lp64 sample
      let min := CommonT.staticCast .lp64 (-2147483648)
      let max := CommonT.staticCast .lp64 2147483647
      let bin := (s - min) * (4 - 1) / (2147483647 - -2147483648)
      (min ≤ s ∧ s < max → binSelect .lp64 (.integer ⟨.int, true⟩) (.integer ⟨.int, true⟩) t sample = some (some bin) ∧
        0 ≤ bin ∧ bin < 4 - 1 ∧ max - min = 2147483647 - -2147483648 ∧
        CommonT.type.makeUnsigned.Has .lp64 (s - min) ∧
        (intArithmeticT .lp64 (.integer ⟨.int, true⟩) (.integer ⟨.int, true⟩)).Has .lp64 ((s - min) * (4 - 1))) ∧
      (¬(min ≤ s ∧ s < max) →
        binSelect .lp64 (.integer ⟨.int, true⟩) (.integer ⟨.int, true⟩) t sample = some none) ∧
      (CommonT.Has .lp64 (-2147483648) → CommonT.Has .lp64 2147483647 → CommonT.Has .lp64 sample →
        binSelect .lp64 (.integer ⟨.int, true⟩) (.integer ⟨.int, true⟩) t sample =
          some (if -2147483648 ≤ sample ∧ sample < 2147483647 then
            some ((sample - -2147483648) * (4 - 1) / (2147483647 - -2147483648)) else none)) :=
  binSelect_spec .lp64 (.integer ⟨.int, true⟩) (.integer ⟨.int, true⟩) (by decide) (by decide) (by decide) (by decide)
    (by decide) (by decide)

/-- Levels of `int` meet samples of `unsigned int`: 3 is between -5 and 10, but has no bin. -/
theorem no_bin_for_negative_level :
    mayOverflow .lp64 (.integer ⟨.int, true⟩) (.integer ⟨.int, false⟩) 3 10 (-5) = some false ∧
      ((init .lp64 (.integer ⟨.int, true⟩) (.integer ⟨.int, false⟩) 4 10 (-5)).bind fun t =>
        binSelect .lp64 (.integer ⟨.int, true⟩) (.integer ⟨.int, false⟩) t 3) ≠
        some (some ((3 - -5) * 3 / (10 - -5))) := by
  decide

end Cccl.Histogram
