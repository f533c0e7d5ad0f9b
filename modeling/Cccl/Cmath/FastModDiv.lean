/-
# `fast_mod_div`

Division by a divisor that is known before: the constructor computes a multiplier and a shift, so that a quotient
is the higher half of a product, shifted.  For a signed divisor type the multiplier is a power of two over the
divisor, rounded up.  For an unsigned one it is rounded up or down, whichever is closer, and if it is rounded
down then one is added to the dividend; a power of two has the multiplier 0.

The multiplier is made for the width of the divisor type, but the product is computed in the common type of
divisor and dividend.
-/
import Cccl.Cmath.Ilog
import Cccl.Cmath.MulHi
import Cccl.Lib.IntegerTypes

namespace Cccl.Cmath

open IntegerTypes

/-! ## 1. `__divmod_pow2` -/

/-- One bit of the dividend: it is appended to the remainder. -/
def divmodStep (bits divisor : ℕ) (dividendBit : Bool) (s : ℕ × ℕ) : ℕ × ℕ :=
  let carryFlag := decide (s.2 >>> (bits - 1) ≠ 0)
  let remainder := (s.2 <<< 1) % 2 ^ bits ||| dividendBit.toNat
  let quotientBit := carryFlag || decide (divisor ≤ remainder)
  ((s.1 <<< 1) % 2 ^ bits ||| quotientBit.toNat,
    if quotientBit then (remainder + 2 ^ bits - divisor) % 2 ^ bits else remainder)

/-- The loop, with the number of bits that remain: only the first one is set. -/
def divmodLoop (bits power divisor : ℕ) : ℕ → ℕ × ℕ → ℕ × ℕ
  | 0, s => s
  | bit + 1, s => divmodLoop bits power divisor bit (divmodStep bits divisor (decide (bit = power)) s)

def divmodPow2 (bits power divisor : ℕ) : ℕ × ℕ := divmodLoop bits power divisor (power + 1) (0, 0)

/-! ## 2. The class -/

structure FastModDiv where
  divisor : ℤ
  multiplier : ℕ
  add : ℕ
  shift : ℤ

namespace FastModDiv

variable (m : DataModel) (hasInt128 : Bool) (T L : IntegerType) (divisorIsNeverOne : Bool)

/-- What the constructor asserts. -/
def Accepts (divisor : ℤ) : Prop :=
  T.Has m divisor ∧ 0 < divisor ∧ (divisorIsNeverOne = true → divisor ≠ 1)

instance (divisor : ℤ) : Decidable (Accepts m T divisorIsNeverOne divisor) := inferInstanceAs (Decidable (_ ∧ _))

/-- The rounded-up quotient of the constructor, before it is stored. -/
def roundedUp (power uDivisor : ℕ) : ℕ :=
  let pow2Div := divmodPow2 (T.bits m) power uDivisor
  pow2Div.1 + (decide (pow2Div.2 ≠ 0)).toNat

/-- The quotient of an unsigned divisor, which is rounded to the closer side. -/
def rounded (shift uDivisor : ℕ) : ℕ :=
  let pow2Div := divmodPow2 (T.bits m) (T.bits m + shift) uDivisor
  pow2Div.1 + (decide (uDivisor - 2 ^ shift ≤ pow2Div.2)).toNat

/-- The constructor, for a signed divisor type. -/
def ofSigned (divisor : ℤ) : FastModDiv :=
  let uDivisor := divisor.toNat
  let shift : ℤ := ceilIlog2 uDivisor - 1
  let k := (T.bits m + shift).toNat
  { divisor := divisor, multiplier := roundedUp m T k uDivisor % 2 ^ T.bits m, add := 0, shift := shift }

/-- The constructor, for an unsigned divisor type. -/
def ofUnsigned (divisor : ℤ) : FastModDiv :=
  let uDivisor := divisor.toNat
  let shift := ilog2 uDivisor
  if isPowerOfTwo uDivisor then { divisor := divisor, multiplier := 0, add := 0, shift := shift }
  else
    let k := T.bits m + shift
    let pow2Div := divmodPow2 (T.bits m) k uDivisor
    let threshold := uDivisor - 2 ^ shift
    { divisor := divisor
      multiplier := rounded m T shift uDivisor % 2 ^ T.bits m
      add := (decide (pow2Div.2 < threshold)).toNat
      shift := shift }

/-- The constructor. -/
def create (divisor : ℤ) : FastModDiv := if T.signed then ofSigned m T divisor else ofUnsigned m T divisor

/-- What `operator/` asserts of dividend and dividend type. -/
def AcceptsDividend (dividend : ℤ) : Prop := L.max m ≤ T.max m ∧ L.Has m dividend ∧ 0 ≤ dividend

instance (dividend : ℤ) : Decidable (AcceptsDividend m T L dividend) := inferInstanceAs (Decidable (_ ∧ _))

/-- The dividend, after one is added to it, in its own unsigned type. -/
def incremented (dividend : ℤ) (f : FastModDiv) : ℕ :=
  let uDividend := dividend.toNat
  if L.signed ∨ uDividend ≠ L.makeUnsigned.max m then uDividend + f.add else uDividend

/-- The higher half of the product, shifted, in the common type. -/
def quotient (uDividend : ℕ) (f : FastModDiv) : ℤ :=
  let common := commonType m T L
  common.staticCast m ((mulHi hasInt128 (common.bits m) (uDividend % 2 ^ common.bits m)
    (f.multiplier % 2 ^ common.bits m)) >>> f.shift.toNat)

/-- `operator/`. -/
def div (dividend : ℤ) (f : FastModDiv) : ℤ :=
  let common := commonType m T L
  if T.signed then
    if divisorIsNeverOne = false ∧ f.divisor = 1 then common.staticCast m dividend
    else quotient m hasInt128 T L dividend.toNat f
  else
    if f.multiplier = 0 then common.staticCast m ((dividend.toNat % 2 ^ common.bits m) >>> f.shift.toNat)
    else quotient m hasInt128 T L (incremented m L dividend f % 2 ^ L.bits m) f

/-- The result of an operation in a type: a signed result that the type has not is an overflow. -/
def evaluate (U : IntegerType) (v : ℤ) : Option ℤ :=
  if U.signed then if U.Has m v then some v else none else some (U.staticCast m v)

/-- `operator%`. -/
def mod (dividend : ℤ) (f : FastModDiv) : Option ℤ :=
  let common := commonType m T L
  let product := arithmeticType m common T
  let difference := arithmeticType m L product
  (evaluate m product (product.staticCast m (div m hasInt128 T L divisorIsNeverOne dividend f) *
    product.staticCast m f.divisor)).bind fun p =>
      (evaluate m difference (difference.staticCast m dividend - difference.staticCast m p)).map
        (common.staticCast m)

end FastModDiv

end Cccl.Cmath
