/-
# The integer square root

`isqrt` finds the root one binary digit after the other, the highest first.  With `r` for the digits that are known,
and `4 ^ j / 4` for the weight of the next one, the loop keeps what is left of the number, `n - r * r`, and `2 * r`
times the weight of the next digit of the root (`isqrtLoop_spec`).

The next square is further away than the loop may go, so that the sum of root and weight is a number of the unsigned
type, also at its highest bits (`sum_lt`).
-/
import Cccl.Cmath.Ilog
import Cccl.Lib.Wrapping
import Mathlib.Data.Nat.Bitwise
import Mathlib.Tactic.Linarith
import Mathlib.Tactic.Ring

namespace Cccl.Cmath

open IntegerTypes Wrapped

/-! ## 1. The code -/

/-- The loop of `isqrt`, with the number of bits of the unsigned type. -/
def isqrtLoop (bits uv ret bit : ℕ) : Wrapped ℕ :=
  if bit = 0 then pure ret
  else do
    -- narrow types are promoted, so that nothing is cut here in any case
    let sum ← cutNat bits (ret + bit : ℕ)
    if sum ≤ uv then do
      let uv ← cutNat bits (uv - sum)
      let ret ← cutNat bits (ret / 2 + bit : ℕ)
      isqrtLoop bits uv ret (bit / 4)
    else isqrtLoop bits uv (ret / 2) (bit / 4)
termination_by bit
decreasing_by all_goals omega

def isqrt (m : DataModel) (T : IntegerType) (v : ℤ) : Wrapped ℤ :=
  if v ≤ 1 then pure v
  else do
    let uv ← cutNat (T.bits m) v
    let bit ← cutNat (T.bits m) (2 ^ Nat.ldiff (bitWidth uv - 1) 1)
    let ret ← isqrtLoop (T.bits m) uv 0 bit
    cut m T ret

/-! ## 2. A digit of the root -/

variable {bits n : ℕ}

theorem square_add (q j : ℕ) : (q * 2 ^ (j + 1) + 2 ^ j) * (q * 2 ^ (j + 1) + 2 ^ j) =
    q * 2 ^ (j + 1) * (q * 2 ^ (j + 1)) + (q * 4 ^ (j + 1) + 4 ^ j) := by
  have hfour : (4 : ℕ) ^ j = 2 ^ j * 2 ^ j := by rw [← Nat.mul_pow]
  rw [Nat.pow_succ, Nat.pow_succ, hfour]
  ring

/-- The sum of root and weight stays below the square of any power of two that the root stays below. -/
theorem sum_lt {h q j : ℕ} (hj : j + 1 ≤ h) (hroot : q * 2 ^ (j + 1) < 2 ^ h) :
    q * 4 ^ (j + 1) + 4 ^ j < 2 ^ (2 * h) := by
  obtain ⟨d, rfl⟩ := Nat.exists_eq_add_of_le hj
  have hsplit : 2 ^ (j + 1 + d) = 2 ^ d * 2 ^ (j + 1) := by rw [Nat.pow_add, Nat.mul_comm]
  rw [hsplit] at hroot
  have hq : q + 1 ≤ 2 ^ d := Nat.lt_of_mul_lt_mul_right hroot
  have hless : (4 : ℕ) ^ j < 4 ^ (j + 1) := Nat.pow_lt_pow_right (by decide) (Nat.lt_succ_self j)
  calc q * 4 ^ (j + 1) + 4 ^ j < q * 4 ^ (j + 1) + 4 ^ (j + 1) := Nat.add_lt_add_left hless _
    _ = (q + 1) * 4 ^ (j + 1) := (Nat.add_one_mul _ _).symm
    _ ≤ 2 ^ d * 4 ^ (j + 1) := Nat.mul_le_mul_right _ hq
    _ ≤ 2 ^ d * 2 ^ d * 4 ^ (j + 1) := Nat.mul_le_mul_right _ (Nat.le_mul_of_pos_right _ (Nat.two_pow_pos d))
    _ = 2 ^ (2 * (j + 1 + d)) := by
      rw [show (4 : ℕ) = 2 ^ 2 from rfl, ← Nat.pow_mul, ← Nat.pow_add, ← Nat.pow_add]
      congr 1
      omega

/-- **The loop finds the digits of the root** that are left.  The digits that are known are those of
`q * 2 ^ j`. -/
theorem isqrtLoop_spec {h : ℕ} (hbits : bits = 2 * h) (hn : n < 2 ^ bits) : ∀ {j q : ℕ} {uv : ℕ}, j ≤ h →
    q * 2 ^ j * (q * 2 ^ j) + uv = n → n < (q + 1) * 2 ^ j * ((q + 1) * 2 ^ j) →
    ∃ r, (isqrtLoop bits uv (q * 4 ^ j) (4 ^ j / 4)).Is r ∧ r * r ≤ n ∧ n < (r + 1) * (r + 1)
  | 0, q, uv, _, hleft, habove => by
    rw [Nat.pow_zero, Nat.mul_one] at hleft habove
    rw [isqrtLoop, if_pos (by decide), Nat.pow_zero, Nat.mul_one]
    exact ⟨q, Is.pure, by omega, habove⟩
  | j + 1, q, uv, hj, hleft, habove => by
    have hbit : (4 : ℕ) ^ (j + 1) / 4 = 4 ^ j := by rw [Nat.pow_succ, Nat.mul_div_cancel _ (by decide)]
    have hpos : 0 < (4 : ℕ) ^ j := Nat.pow_pos (by decide)
    have hroot : q * 2 ^ (j + 1) < 2 ^ h := by
      refine Nat.mul_self_lt_mul_self_iff.mp ?_
      rw [← Nat.pow_add, ← Nat.two_mul, ← hbits]
      exact (Nat.le_add_right _ uv).trans_lt (hleft.trans_lt hn)
    have hsum := sum_lt hj hroot
    have hsquare := square_add q j
    have hhalf : q * 4 ^ (j + 1) / 2 = 2 * q * 4 ^ j := by
      rw [Nat.pow_succ, show q * (4 ^ j * 4) = 2 * q * 4 ^ j * 2 by ring, Nat.mul_div_cancel _ (by decide)]
    have hdigit : ∀ x, x * 2 ^ (j + 1) = 2 * x * 2 ^ j := fun x => by rw [Nat.pow_succ]; ring
    rw [← hbits] at hsum
    rw [hbit, isqrtLoop, if_neg hpos.ne', (is_cutNat rfl hsum).bind_eq, hhalf]
    split
    next hle =>
      -- the digit is one
      rw [(is_cutNat (n := uv - (q * 4 ^ (j + 1) + 4 ^ j)) (by omega) (by omega)).bind_eq]
      have hret : 2 * q * 4 ^ j + 4 ^ j = (2 * q + 1) * 4 ^ j := by ring
      have hfits : (2 * q + 1) * 4 ^ j < 2 ^ bits := by
        have : (2 * q + 1) * 4 ^ j ≤ q * 4 ^ (j + 1) + 4 ^ j := by
          rw [← hret, Nat.pow_succ, show q * (4 ^ j * 4) = 4 * q * 4 ^ j by ring]
          exact Nat.add_le_add_right (Nat.mul_le_mul_right _ (by omega)) _
        omega
      rw [hret, (is_cutNat rfl hfits).bind_eq]
      have hnext : (2 * q + 1) * 2 ^ j = q * 2 ^ (j + 1) + 2 ^ j := by rw [hdigit, Nat.add_one_mul]
      refine isqrtLoop_spec hbits hn (by omega) ?_ ?_
      · rw [hnext, hsquare]
        omega
      · rw [show 2 * q + 1 + 1 = 2 * (q + 1) by ring, ← hdigit]
        exact habove
    next hmore =>
      -- the digit is zero
      refine isqrtLoop_spec hbits hn (by omega) ?_ ?_
      · rwa [← hdigit]
      · rw [Nat.add_one_mul (2 * q), ← hdigit, hsquare]
        omega

/-! ## 3. The result -/

theorem ldiff_one (k : ℕ) : Nat.ldiff k 1 = 2 * (k / 2) := by
  refine Nat.eq_of_testBit_eq fun i => ?_
  rw [Nat.testBit_ldiff]
  cases i with
  | zero => simp
  | succ i =>
    rw [Nat.testBit_succ, Nat.testBit_succ, Nat.testBit_succ, Nat.mul_div_cancel_left _ (by decide)]
    simp

/-- **`isqrt` is the floor of the square root.**  For every integer type and every number of it that is not
negative, and no number on the way is cut. -/
theorem isqrt_floor (m : DataModel) (T : IntegerType) (n : ℕ) (hn : T.Has m n) :
    ∃ r : ℕ, (isqrt m T n).Is r ∧ r * r ≤ n ∧ n < (r + 1) * (r + 1) := by
  rcases Nat.lt_or_ge 1 n with hlarge | hsmall
  swap
  · refine ⟨n, ?_, ?_, ?_⟩
    · rw [isqrt, if_pos (by exact_mod_cast hsmall)]
      exact Is.pure
    · exact (Nat.mul_le_mul_left n hsmall).trans_eq (Nat.mul_one n)
    · exact (Nat.lt_succ_self n).trans_le (Nat.le_mul_of_pos_right _ (Nat.succ_pos n))
  have hlt : n < 2 ^ T.bits m := by exact_mod_cast hn.lt_two_pow
  have hlog : Nat.log2 n < T.bits m := (Nat.log2_lt (by omega)).mpr hlt
  have hbits : T.bits m = 2 * (T.bits m / 2) := by
    have := even_bits (m := m) (T := T)
    omega
  -- the weight of the highest digit
  have hweight : 2 ^ (2 * (Nat.log2 n / 2)) = 4 ^ (Nat.log2 n / 2 + 1) / 4 := by
    rw [Nat.pow_succ, Nat.mul_div_cancel _ (by decide), Nat.pow_mul]
  have habove : n < (0 + 1) * 2 ^ (Nat.log2 n / 2 + 1) * ((0 + 1) * 2 ^ (Nat.log2 n / 2 + 1)) := by
    rw [Nat.zero_add, Nat.one_mul, ← Nat.pow_add]
    exact Nat.lt_log2_self.trans_le (Nat.pow_le_pow_right (by decide) (by omega))
  obtain ⟨r, hr, hle, hless⟩ := isqrtLoop_spec (j := Nat.log2 n / 2 + 1) (q := 0) hbits hlt (by omega)
    (by rw [Nat.zero_mul, Nat.zero_mul, Nat.zero_add]) habove
  have hmax : (r : ℤ) ≤ T.max m := by
    have hsquare : r ≤ n := (Nat.le_mul_self r).trans hle
    exact (Int.ofNat_le.mpr hsquare).trans hn.2
  refine ⟨r, ?_, hle, hless⟩
  rw [isqrt, if_neg (by exact_mod_cast Nat.not_le.mpr hlarge), (is_cutNat rfl hlt).bind_eq, bitWidth,
    if_neg (show n ≠ 0 by omega), Nat.add_sub_cancel, ldiff_one]
  refine (is_cutNat (n := 2 ^ (2 * (Nat.log2 n / 2))) (by push_cast; rfl) ?_).bind ?_
  · exact Nat.pow_lt_pow_right (by decide) (by omega)
  · rw [hweight, ← Nat.zero_mul (4 ^ (Nat.log2 n / 2 + 1))]
    exact hr.bind (is_cut_natCast rfl (by exact_mod_cast hmax))

/-- The largest number of 64 bits. -/
theorem isqrt_floor_most : ∃ r : ℕ, (isqrt .lp64 ⟨.longLong, false⟩ (2 ^ 64 - 1 : ℕ)).Is r ∧
    r * r ≤ 2 ^ 64 - 1 ∧ 2 ^ 64 - 1 < (r + 1) * (r + 1) :=
  isqrt_floor .lp64 ⟨.longLong, false⟩ (2 ^ 64 - 1) (by decide)

end Cccl.Cmath
