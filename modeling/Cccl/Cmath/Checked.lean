/-
# Arithmetic with a check

`neg` and `uabs`, which are defined for the least value of a signed type, too (`uabs_eq`), and
`mul_overflow` and `add_overflow` of an unsigned type: their result is cut to the type, and they say
whether it was (`mulOverflow_eq`, `addOverflow_eq`).

A product is computed in a type of twice the width, where there is one; else its higher half says
whether it was cut.
-/
import Cccl.Cmath.MulHi
import Cccl.Lib.IntegerTypes

namespace Cccl.Cmath

open IntegerTypes

/-! ## 1. `neg` and `uabs` -/

section

variable (m : DataModel) (T : IntegerType)

/-- `neg`: the complement plus one, in the unsigned type. -/
def neg (v : ℤ) : ℤ :=
  T.staticCast m (2 ^ T.bits m - 1 - T.makeUnsigned.staticCast m v + 1)

def uabs (v : ℤ) : ℤ :=
  if T.signed then T.makeUnsigned.staticCast m (if v < 0 then neg m T v else v) else v

variable {m T}

theorem dvd_neg_add (v : ℤ) : (2 ^ T.bits m : ℤ) ∣ neg m T v + v := by
  have hcast := IntegerType.dvd_staticCast_sub (m := m) (T := T)
    (2 ^ T.bits m - 1 - T.makeUnsigned.staticCast m v + 1)
  have hunsigned := IntegerType.dvd_staticCast_sub (m := m) (T := T.makeUnsigned) v
  rw [IntegerType.bits_makeUnsigned] at hunsigned
  have hsum := Int.dvd_add (Int.dvd_sub hcast hunsigned) (Int.dvd_refl (2 ^ T.bits m))
  have heq : neg m T v + v = neg m T v - (2 ^ T.bits m - 1 - T.makeUnsigned.staticCast m v + 1) -
      (T.makeUnsigned.staticCast m v - v) + 2 ^ T.bits m := by ring
  rw [heq]
  exact hsum

/-- **The magnitude**, also of the least value, which has no negative one in its own type. -/
theorem uabs_eq {v : ℤ} (hv : T.Has m v) : uabs m T v = v.natAbs := by
  have habs : T.makeUnsigned.Has m v.natAbs := IntegerType.has_of_le hv.natAbs_le
  unfold uabs
  split
  · refine IntegerType.staticCast_eq habs ?_
    rw [IntegerType.bits_makeUnsigned]
    split
    · rename_i hless
      rw [Int.ofNat_natAbs_of_nonpos hless.le, sub_neg_eq_add]
      exact dvd_neg_add v
    · rename_i hge
      rw [Int.natAbs_of_nonneg (Int.not_lt.mp hge), sub_self]
      exact dvd_zero _
  · rename_i hunsigned
    have hmin := hv.1
    rw [IntegerType.min, if_neg hunsigned] at hmin
    exact (Int.natAbs_of_nonneg hmin).symm

end

/-! ## 2. `mul_overflow` and `add_overflow` -/

structure OverflowResult where
  value : ℕ
  overflow : Bool
  deriving DecidableEq

/-- The width of `__cccl_uintmax_t`. -/
def uintmaxBits (hasInt128 : Bool) : ℕ := if hasInt128 then 128 else 64

/-- `overflow_cast` to an unsigned type. -/
def overflowCast (bits : ℕ) (v : ℕ) : OverflowResult :=
  { value := v % 2 ^ bits, overflow := decide (2 ^ bits ≤ v) }

/-- `mul_overflow` of an unsigned type. -/
def mulOverflow (hasInt128 : Bool) (bits lhs rhs : ℕ) : OverflowResult :=
  if bits < uintmaxBits hasInt128 then overflowCast bits (lhs * rhs % 2 ^ (2 * bits))
  else
    let result := overflowCast bits (lhs * rhs % 2 ^ bits)
    { result with
      overflow := result.overflow || decide (mulHi hasInt128 (uintmaxBits hasInt128) lhs rhs ≠ 0) }

/-- `add_overflow` of an unsigned type. -/
def addOverflow (bits lhs rhs : ℕ) : OverflowResult :=
  let sum := (lhs + rhs) % 2 ^ bits
  { value := sum, overflow := decide (sum < lhs) }

theorem mulOverflow_eq {hasInt128 : Bool} {bits lhs rhs : ℕ} (hbits : bits ≤ uintmaxBits hasInt128)
    (hlhs : lhs < 2 ^ bits) (hrhs : rhs < 2 ^ bits) :
    mulOverflow hasInt128 bits lhs rhs = overflowCast bits (lhs * rhs) := by
  unfold mulOverflow
  split
  · have hproduct : lhs * rhs < 2 ^ (2 * bits) := by
      rw [Nat.two_mul, Nat.pow_add]
      exact Nat.mul_lt_mul'' hlhs hrhs
    rw [Nat.mod_eq_of_lt hproduct]
  · rename_i hwide
    have heq : uintmaxBits hasInt128 = bits := Nat.le_antisymm (Nat.not_lt.mp hwide) hbits
    have heven : bits % 2 = 0 := by
      rw [← heq]
      cases hasInt128 <;> rfl
    have hlt : lhs * rhs % 2 ^ bits < 2 ^ bits := Nat.mod_lt _ (Nat.two_pow_pos _)
    rw [heq, mulHi_eq hasInt128 heven hlhs hrhs]
    simp only [overflowCast, Nat.mod_mod, OverflowResult.mk.injEq, true_and]
    rw [decide_eq_false (Nat.not_le.mpr hlt), Bool.false_or]
    refine decide_eq_decide.mpr ?_
    rw [Nat.div_ne_zero_iff]
    exact ⟨fun h => h.2, fun h => ⟨(Nat.two_pow_pos _).ne', h⟩⟩

theorem addOverflow_eq {bits lhs rhs : ℕ} (hlhs : lhs < 2 ^ bits) (hrhs : rhs < 2 ^ bits) :
    addOverflow bits lhs rhs = overflowCast bits (lhs + rhs) := by
  have hcut : (lhs + rhs) % 2 ^ bits < lhs ↔ 2 ^ bits ≤ lhs + rhs := by
    rcases Nat.lt_or_ge (lhs + rhs) (2 ^ bits) with hless | hmore
    · rw [Nat.mod_eq_of_lt hless]
      omega
    · rw [Nat.mod_eq_sub_mod hmore, Nat.mod_eq_of_lt (by omega)]
      omega
  simp only [addOverflow, overflowCast, hcut]

end Cccl.Cmath
