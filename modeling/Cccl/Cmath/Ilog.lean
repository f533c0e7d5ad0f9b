/-
# Powers of two and logarithms

`is_power_of_two`, `ilog2` and `ceil_ilog2` of `cuda/__cmath`: the rounded-up logarithm of a number is the exponent
of the least power of two that is not below it (`ceilIlog2_le_iff`).
-/
import Mathlib.Algebra.Order.Ring.Nat
import Mathlib.Data.Nat.Log

namespace Cccl.Cmath

/-- `is_power_of_two`, and `has_single_bit`. -/
def isPowerOfTwo (n : ℕ) : Bool := n == 2 ^ Nat.log2 n

def bitWidth (n : ℕ) : ℕ := if n = 0 then 0 else Nat.log2 n + 1

def ilog2 (t : ℕ) : ℕ := Nat.log2 t

def ceilIlog2 (t : ℕ) : ℕ := Nat.log2 t + if isPowerOfTwo t then 0 else 1

theorem isPowerOfTwo_iff {n : ℕ} : isPowerOfTwo n = true ↔ ∃ k, n = 2 ^ k := by
  rw [isPowerOfTwo, beq_iff_eq]
  constructor
  · exact fun h => ⟨_, h⟩
  · rintro ⟨k, rfl⟩
    rw [Nat.log2_two_pow]

theorem isPowerOfTwo_two_pow (k : ℕ) : isPowerOfTwo (2 ^ k) = true := isPowerOfTwo_iff.mpr ⟨k, rfl⟩

theorem ceilIlog2_two_pow (k : ℕ) : ceilIlog2 (2 ^ k) = k := by
  rw [ceilIlog2, Nat.log2_two_pow, isPowerOfTwo_two_pow, if_pos rfl, Nat.add_zero]

theorem le_two_pow_ceilIlog2 (t : ℕ) : t ≤ 2 ^ ceilIlog2 t := by
  rw [ceilIlog2]
  split
  · rename_i h
    rw [Nat.add_zero]
    exact (beq_iff_eq.mp h).le
  · exact (Nat.lt_log2_self).le

theorem two_pow_ceilIlog2_lt {t : ℕ} (ht : 0 < t) : 2 ^ ceilIlog2 t < 2 * t := by
  have hlog := Nat.log2_self_le ht.ne'
  rw [ceilIlog2]
  split
  · rw [Nat.add_zero]
    omega
  · rename_i h
    rw [isPowerOfTwo, beq_iff_eq] at h
    rw [Nat.pow_succ]
    omega

theorem ceilIlog2_le_iff {t k : ℕ} (ht : 0 < t) : ceilIlog2 t ≤ k ↔ t ≤ 2 ^ k := by
  constructor
  · intro h
    exact (le_two_pow_ceilIlog2 t).trans (Nat.pow_le_pow_right (by decide) h)
  · intro h
    have hlt : 2 ^ ceilIlog2 t < 2 ^ (k + 1) := by
      rw [Nat.pow_succ]
      exact (two_pow_ceilIlog2_lt ht).trans_le (by omega)
    exact Nat.lt_succ_iff.mp ((Nat.pow_lt_pow_iff_right (by decide)).mp hlt)

theorem ceilIlog2_mono {s t : ℕ} (hs : 0 < s) (h : s ≤ t) : ceilIlog2 s ≤ ceilIlog2 t :=
  (ceilIlog2_le_iff hs).mpr (h.trans (le_two_pow_ceilIlog2 t))

end Cccl.Cmath
