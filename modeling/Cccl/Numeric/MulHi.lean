/-
# `mul_hi` of signed types

The higher half of a product is its floor quotient by the power of two.  A signed type without a wider one takes the
higher half of the operands as unsigned numbers.  A negative operand is larger there by the power of two, and so the
higher half is larger by the other operand: it is subtracted again (`mulHiSigned_eq`).
-/
import Mathlib.Algebra.Order.Ring.Abs
import Cccl.Numeric.AddOverflow

namespace Cccl.Numeric

open IntegerTypes

/-! ## 1. The functions -/

section

variable (m : DataModel) (T : IntegerType)

/-- `*` of two values of a type.  A product of signed numbers that the type does not have is undefined. -/
def times (x y : ℤ) : Option ℤ :=
  if T.promoted.signed then if T.promoted.Has m (x * y) then some (x * y) else none
  else some (T.promoted.staticCast m (x * y))

/-- The fallback of `mul_hi`, for a signed type. -/
def mulHiSigned (lhs rhs : ℤ) : ℤ :=
  let up := T.makeUnsigned
  let lhs1 := up.staticCast m lhs
  let rhs1 := up.staticCast m rhs
  let hi : ℤ := Cmath.mulHiFallback (T.bits m) lhs1.toNat rhs1.toNat
  let hi := if lhs < 0 then up.staticCast m (hi - rhs1) else hi
  let hi := if rhs < 0 then up.staticCast m (hi - lhs1) else hi
  T.staticCast m hi

def mulHi (hasInt128 : Bool) (lhs rhs : ℤ) : Option ℤ :=
  if T.bits m < 64 ∨ T.bits m = 64 ∧ hasInt128 then
    let larger := IntegerType.ofBits (2 * T.bits m) T.signed
    (times m larger (larger.staticCast m lhs) rhs).map fun product => T.staticCast m (product / 2 ^ T.bits m)
  else some (if T.signed then mulHiSigned m T lhs rhs else Cmath.mulHiFallback (T.bits m) lhs.toNat rhs.toNat)

end

variable {m : DataModel} {T U : IntegerType}

/-! ## 2. Products -/

theorem times_of_has {x y : ℤ} (h : T.Has m (x * y)) : times m T x y = some (x * y) := by
  have hpromoted := IntegerType.has_promoted h
  rw [times, if_pos hpromoted, IntegerType.staticCast_of_has hpromoted, ite_self]

/-- A negative value is larger by the power of two as an unsigned number. -/
theorem cast_unsigned {v : ℤ} (hv : T.Has m v) :
    T.makeUnsigned.staticCast m v = v + (if v < 0 then 1 else 0) * 2 ^ T.bits m := by
  have habs := hv.natAbs_le
  have hpow : ((2 ^ T.bits m : ℕ) : ℤ) = 2 ^ T.bits m := Nat.cast_pow 2 _
  have hpos : 0 < 2 ^ T.bits m := Nat.two_pow_pos _
  split
  · rename_i hneg
    refine IntegerType.staticCast_eq ?_ ⟨-1, by rw [IntegerType.bits_makeUnsigned]; ring⟩
    obtain ⟨n, hn⟩ : ∃ n : ℕ, v + 1 * 2 ^ T.bits m = n := by
      rw [IntegerType.max_makeUnsigned] at habs
      exact ⟨2 ^ T.bits m - v.natAbs, by rw [← hpow]; omega⟩
    rw [hn]
    refine IntegerType.has_of_le ?_
    rw [IntegerType.max_makeUnsigned]
    rw [← hpow] at hn
    omega
  · rename_i hpos
    rw [zero_mul, add_zero]
    exact cast_makeUnsigned hv (Int.not_lt.mp hpos)

/-- The product of the magnitudes bounds the product, and is less than twice as wide. -/
theorem has_higher {lhs rhs : ℤ} (hsigned : T.signed = true) (hl : T.Has m lhs) (hr : T.Has m rhs) :
    T.Has m (lhs * rhs / 2 ^ T.bits m) := by
  obtain ⟨H, hH⟩ : ∃ H : ℤ, H = 2 ^ T.digits m := ⟨_, rfl⟩
  have hpos : 0 < H := hH ▸ pow_pos (by decide) _
  have hbits : (2 : ℤ) ^ T.bits m = H * 2 := by rw [← IntegerType.digits_of_signed hsigned, pow_succ, hH]
  have hmax : (T.max m : ℤ) = H - 1 := by
    rw [IntegerType.max, Int.natCast_sub (Nat.two_pow_pos _), Nat.cast_pow, hH]
    rfl
  rw [IntegerType.Has, IntegerType.min, if_pos hsigned, hmax, ← hH] at hl hr ⊢
  have hsquare : 0 ≤ H * H := (mul_pos hpos hpos).le
  have habs : |lhs * rhs| ≤ H * H := by
    rw [abs_mul]
    exact mul_le_mul (abs_le.mpr ⟨hl.1, by omega⟩) (abs_le.mpr ⟨hr.1, by omega⟩) (abs_nonneg _) hpos.le
  obtain ⟨hlow, hhigh⟩ := abs_le.mp habs
  have hwide : 0 < H * 2 := by omega
  rw [hbits]
  refine ⟨Int.le_ediv_of_mul_le hwide ?_, Int.le_sub_one_of_lt (Int.ediv_lt_of_lt_mul hwide ?_)⟩
  · rw [← mul_assoc, neg_mul]
    omega
  · have hless : 0 < H * H := mul_pos hpos hpos
    rw [← mul_assoc]
    omega

theorem exists_corrected (c : Prop) [Decidable c] (hi x : ℤ) : ∃ k : ℤ,
    (if c then U.staticCast m (hi - x) else hi) = hi - (if c then 1 else 0) * x + 2 ^ U.bits m * k := by
  split
  · obtain ⟨k, hk⟩ := IntegerType.dvd_staticCast_sub (m := m) (T := U) (hi - x)
    exact ⟨k, by rw [← hk]; ring⟩
  · exact ⟨0, by ring⟩

/-- **The higher half of a product of signed numbers** from that of unsigned ones. -/
theorem mulHiSigned_eq {lhs rhs : ℤ} (hsigned : T.signed = true) (hl : T.Has m lhs) (hr : T.Has m rhs) :
    mulHiSigned m T lhs rhs = lhs * rhs / 2 ^ T.bits m := by
  obtain ⟨W, hW⟩ : ∃ W : ℤ, W = 2 ^ T.bits m := ⟨_, rfl⟩
  have hWpos : W ≠ 0 := hW ▸ (pow_pos (by decide) _).ne'
  have hunsigned : ∀ v, ∃ n : ℕ, T.makeUnsigned.staticCast m v = n ∧ n < 2 ^ T.bits m := fun v => by
    obtain ⟨hmin, -⟩ := IntegerType.has_staticCast (m := m) (T := T.makeUnsigned) v
    obtain ⟨n, hn⟩ := Int.eq_ofNat_of_zero_le hmin
    refine ⟨n, hn, ?_⟩
    have hlt := (IntegerType.has_staticCast (m := m) (T := T.makeUnsigned) v).lt_two_pow
    rw [hn, IntegerType.bits_makeUnsigned] at hlt
    exact_mod_cast hlt
  obtain ⟨a, ha, halt⟩ := hunsigned lhs
  obtain ⟨b, hb, hblt⟩ := hunsigned rhs
  obtain ⟨h, heven⟩ : ∃ h, T.bits m = 2 * h := ⟨T.bits m / 2, by have := even_bits (m := m) (T := T); omega⟩
  have hfallback : Cmath.mulHiFallback (T.bits m) a b = a * b / 2 ^ T.bits m := by
    rw [heven] at halt hblt ⊢
    exact Cmath.mulHiFallback_eq halt hblt
  -- the operands are larger by the power of two if they are negative
  obtain ⟨s, hs⟩ : ∃ s : ℤ, s = if lhs < 0 then 1 else 0 := ⟨_, rfl⟩
  obtain ⟨t, ht⟩ : ∃ t : ℤ, t = if rhs < 0 then 1 else 0 := ⟨_, rfl⟩
  have ha' : (a : ℤ) = lhs + s * W := by rw [← ha, cast_unsigned hl, hs, hW]
  have hb' : (b : ℤ) = rhs + t * W := by rw [← hb, cast_unsigned hr, ht, hW]
  have hhigher : ((a * b / 2 ^ T.bits m : ℕ) : ℤ) = lhs * rhs / W + (s * rhs + t * lhs + s * t * W) := by
    have hproduct : (a * b : ℤ) = lhs * rhs + W * (s * rhs + t * lhs + s * t * W) := by
      rw [ha', hb']
      ring
    rw [Int.natCast_ediv, Int.natCast_mul, hproduct, Nat.cast_pow]
    change (_ / (2 : ℤ) ^ _) = _
    rw [← hW, Int.add_mul_ediv_left _ _ hWpos]
  rw [mulHiSigned, ha, hb, Int.toNat_natCast, Int.toNat_natCast, hfallback]
  obtain ⟨k, hk⟩ := exists_corrected (m := m) (U := T.makeUnsigned) (lhs < 0) ((a * b / 2 ^ T.bits m : ℕ) : ℤ) b
  obtain ⟨l, hl'⟩ := exists_corrected (m := m) (U := T.makeUnsigned) (rhs < 0)
    (if lhs < 0 then T.makeUnsigned.staticCast m (((a * b / 2 ^ T.bits m : ℕ) : ℤ) - b)
      else ((a * b / 2 ^ T.bits m : ℕ) : ℤ)) a
  refine IntegerType.staticCast_eq (has_higher hsigned hl hr) ⟨k + l - s * t, ?_⟩
  rw [hl', hk, hhigher, ← hs, ← ht, IntegerType.bits_makeUnsigned, ← hW, ha', hb']
  ring

/-! ## 3. Products in a wider type -/

theorem natAbs_lt_two_pow {v : ℤ} (h : T.Has m v) : v.natAbs < 2 ^ T.bits m := by
  have hle := h.natAbs_le
  have hpos : 0 < 2 ^ T.bits m := Nat.two_pow_pos _
  rw [IntegerType.max_makeUnsigned] at hle
  omega

theorem natAbs_le_two_pow {v : ℤ} (h : T.Has m v) : v.natAbs ≤ 2 ^ T.digits m := by
  have hlt := h.lt
  have hmin := h.1
  have hpow : (2 : ℤ) ^ T.digits m = ((2 ^ T.digits m : ℕ) : ℤ) := (Nat.cast_pow 2 _).symm
  rw [IntegerType.min, hpow] at hmin
  rw [hpow] at hlt
  split at hmin <;> omega

theorem has_of_natAbs_lt (hU : U.signed = true) {v : ℤ} (h : v.natAbs < 2 ^ U.digits m) : U.Has m v := by
  rcases Int.natAbs_eq v with heq | heq
  · rw [heq]
    exact IntegerType.has_natCast_iff.mpr h
  · rw [heq]
    exact (IntegerType.has_neg_natCast_iff hU).mpr h.le

/-- **A product in a type of twice the width.** -/
theorem has_product {L R : IntegerType} {lhs rhs : ℤ} (hl : L.Has m lhs) (hr : R.Has m rhs)
    (hbits : U.bits m = 2 * max (L.bits m) (R.bits m)) (hsigned : U.signed = (L.signed || R.signed)) :
    U.Has m (lhs * rhs) := by
  have hL := natAbs_lt_two_pow hl
  have hR := natAbs_lt_two_pow hr
  by_cases hsome : U.signed = true
  · refine has_of_natAbs_lt hsome ?_
    have hdigits := IntegerType.digits_of_signed (m := m) hsome
    rw [Int.natAbs_mul]
    rw [hsigned, Bool.or_eq_true] at hsome
    -- a signed operand has one digit less
    rcases hsome with hside | hside
    · have hone := IntegerType.digits_of_signed (m := m) hside
      refine (Nat.mul_lt_mul_of_le_of_lt (natAbs_le_two_pow hl) hR (Nat.two_pow_pos _)).trans_le ?_
      rw [← Nat.pow_add]
      exact Nat.pow_le_pow_right (by decide) (by omega)
    · have hone := IntegerType.digits_of_signed (m := m) hside
      refine (Nat.mul_lt_mul_of_lt_of_le hL (natAbs_le_two_pow hr) (Nat.two_pow_pos _)).trans_le ?_
      rw [← Nat.pow_add]
      exact Nat.pow_le_pow_right (by decide) (by omega)
  · have hnone := eq_false_of_ne_true hsome
    rw [hsigned, Bool.or_eq_false_iff] at hnone
    obtain ⟨a, ha⟩ := Int.eq_ofNat_of_zero_le (nonneg_of_unsigned hl hnone.1)
    obtain ⟨b, hb⟩ := Int.eq_ofNat_of_zero_le (nonneg_of_unsigned hr hnone.2)
    rw [ha, Int.natAbs_natCast] at hL
    rw [hb, Int.natAbs_natCast] at hR
    rw [ha, hb, ← Int.natCast_mul]
    refine IntegerType.has_natCast_iff.mpr ((Nat.mul_lt_mul'' hL hR).trans_le ?_)
    rw [IntegerType.digits_of_unsigned (eq_false_of_ne_true hsome), ← Nat.pow_add]
    exact Nat.pow_le_pow_right (by decide) (by omega)

theorem bits_larger (signed : Bool) (h : T.bits m ≤ 64) :
    (IntegerType.ofBits (2 * T.bits m) signed).bits m = 2 * T.bits m := by
  obtain ⟨rank, signedT⟩ := T
  revert h
  cases m <;> cases rank <;> decide +revert

theorem mulHiFallback_toNat {lhs rhs : ℤ} (hunsigned : T.signed = false) (hl : T.Has m lhs) (hr : T.Has m rhs) :
    (Cmath.mulHiFallback (T.bits m) lhs.toNat rhs.toNat : ℤ) = lhs * rhs / 2 ^ T.bits m := by
  obtain ⟨a, rfl⟩ := Int.eq_ofNat_of_zero_le (nonneg_of_unsigned hl hunsigned)
  obtain ⟨b, rfl⟩ := Int.eq_ofNat_of_zero_le (nonneg_of_unsigned hr hunsigned)
  have ha := IntegerType.has_natCast_iff.mp hl
  have hb := IntegerType.has_natCast_iff.mp hr
  obtain ⟨h, heven⟩ : ∃ h, T.bits m = 2 * h := ⟨T.bits m / 2, by have := even_bits (m := m) (T := T); omega⟩
  rw [IntegerType.digits_of_unsigned hunsigned, heven] at ha hb
  rw [Int.toNat_natCast, Int.toNat_natCast, heven, Cmath.mulHiFallback_eq ha hb, Int.natCast_ediv, Int.natCast_mul,
    Nat.cast_pow]
  rfl

theorem has_higher_unsigned {lhs rhs : ℤ} (hunsigned : T.signed = false) (hl : T.Has m lhs) (hr : T.Has m rhs) :
    T.Has m (lhs * rhs / 2 ^ T.bits m) := by
  obtain ⟨a, rfl⟩ := Int.eq_ofNat_of_zero_le (nonneg_of_unsigned hl hunsigned)
  obtain ⟨b, rfl⟩ := Int.eq_ofNat_of_zero_le (nonneg_of_unsigned hr hunsigned)
  have ha := IntegerType.has_natCast_iff.mp hl
  have hb := IntegerType.has_natCast_iff.mp hr
  have hpow : (2 : ℤ) ^ T.bits m = ((2 ^ T.bits m : ℕ) : ℤ) := (Nat.cast_pow 2 _).symm
  rw [IntegerType.digits_of_unsigned hunsigned] at ha hb
  rw [hpow, ← Int.natCast_mul, ← Int.natCast_ediv, IntegerType.has_natCast_iff,
    IntegerType.digits_of_unsigned hunsigned]
  exact Nat.div_lt_of_lt_mul (Nat.mul_lt_mul'' ha hb)

theorem mulHi_wide {lhs rhs : ℤ} {larger : IntegerType} (hl : T.Has m lhs) (hr : T.Has m rhs)
    (hbits : larger.bits m = 2 * T.bits m) (hsigned : larger.signed = T.signed) :
    times m larger (larger.staticCast m lhs) rhs = some (lhs * rhs) := by
  have hdigits : T.digits m ≤ larger.digits m := by
    rw [IntegerType.digits, IntegerType.digits, hbits, hsigned]
    omega
  have hlarger := hl.of_digits hdigits fun h => hsigned.trans h
  rw [IntegerType.staticCast_of_has hlarger]
  refine times_of_has (has_product hl hr ?_ ?_)
  · rw [hbits, max_self]
  · rw [hsigned, Bool.or_self]

/-- The function, for every type, whether there is a wider one or not. -/
theorem mulHi_eq (hasInt128 : Bool) {lhs rhs : ℤ} (hl : T.Has m lhs) (hr : T.Has m rhs) :
    mulHi m T hasInt128 lhs rhs = some (lhs * rhs / 2 ^ T.bits m) := by
  unfold mulHi
  split
  · rename_i hnarrow
    have hbits := bits_larger (m := m) (T := T) T.signed (by omega)
    dsimp only
    rw [mulHi_wide hl hr hbits rfl, Option.map_some]
    by_cases hsigned : T.signed = true
    · rw [IntegerType.staticCast_of_has (has_higher hsigned hl hr)]
    · rw [IntegerType.staticCast_of_has (has_higher_unsigned (eq_false_of_ne_true hsigned) hl hr)]
  · split
    · rename_i hsigned
      rw [mulHiSigned_eq hsigned hl hr]
    · rename_i hunsigned
      rw [mulHiFallback_toNat (eq_false_of_ne_true hunsigned) hl hr]

/-- **`mul_hi` is the floor quotient of the product**: its fallback for every width of halves and for every signed
type, and the function for every type. -/
theorem mulHi_floor :
    (∀ h lhs rhs : ℕ, lhs < 2 ^ (2 * h) → rhs < 2 ^ (2 * h) →
      Cmath.mulHiFallback (2 * h) lhs rhs = lhs * rhs / 2 ^ (2 * h)) ∧
    (∀ (m : DataModel) (T : IntegerType) (lhs rhs : ℤ), T.signed = true → T.Has m lhs → T.Has m rhs →
      mulHiSigned m T lhs rhs = lhs * rhs / 2 ^ T.bits m) ∧
    ∀ (m : DataModel) (T : IntegerType) (hasInt128 : Bool) (lhs rhs : ℤ), T.Has m lhs → T.Has m rhs →
      mulHi m T hasInt128 lhs rhs = some (lhs * rhs / 2 ^ T.bits m) :=
  ⟨fun _ _ _ hl hr => Cmath.mulHiFallback_eq hl hr, fun _ _ _ _ hsigned hl hr => mulHiSigned_eq hsigned hl hr,
    fun _ _ hasInt128 _ _ hl hr => mulHi_eq hasInt128 hl hr⟩

/-- The least 64-bit number with itself, by the fallback. -/
theorem mulHi_floor_min :
    Cmath.mulHiFallback (2 * 4) 255 255 = 255 * 255 / 2 ^ (2 * 4) ∧
      mulHiSigned .lp64 ⟨.long, true⟩ (-2 ^ 63) (-2 ^ 63) = -2 ^ 63 * -2 ^ 63 / 2 ^ 64 ∧
      mulHi .lp64 ⟨.long, true⟩ false (-2 ^ 63) 3 = some (-2 ^ 63 * 3 / 2 ^ 64) :=
  ⟨mulHi_floor.1 4 255 255 (by decide) (by decide), mulHi_floor.2.1 _ _ _ _ rfl (by decide) (by decide),
    mulHi_floor.2.2 _ _ _ _ _ (by decide) (by decide)⟩

end Cccl.Numeric
