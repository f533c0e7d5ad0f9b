/-
# Division by a product

A quotient is a product with an approximation of the reciprocal, without its lower digits: `n * m / K` is `n / d`
if `m * d` is close to `K`.  If `m` is rounded up, the error may only be small (`mul_div_of_up`).  If it is rounded
down, one is added to the dividend (`succ_mul_div_of_down`); without that, only multiples of the divisor go wrong
(`mul_div_of_down`).
-/
import Mathlib.Tactic.Ring

namespace Cccl.Reciprocal

variable {n d m K e r : ℕ}

theorem lt_succ_div_mul (n : ℕ) (hd : 0 < d) : n < (n / d + 1) * d := by
  rw [Nat.mul_comm]
  exact Nat.lt_mul_div_succ n hd

/-- A quotient, from bounds that are multiplied by the divisor. -/
theorem div_eq_of_mul_le {x q : ℕ} (hd : 0 < d) (hlow : q * d * K ≤ x * d) (hhigh : x * d < (q + 1) * d * K) :
    x / K = q := by
  refine Nat.div_eq_of_lt_le (Nat.le_of_mul_le_mul_right ?_ hd) (Nat.lt_of_mul_lt_mul_right (a := d) ?_)
  · rwa [Nat.mul_right_comm]
  · rwa [Nat.mul_right_comm]

/-- **A multiplier that is rounded up.** -/
theorem mul_div_of_up (hd : 0 < d) (hm : m * d = K + e) (he : n * e < K) : n * m / K = n / d := by
  have hle : n / d * d ≤ n := Nat.div_mul_le_self n d
  have hlt := lt_succ_div_mul n hd
  have hproduct : n * m * d = n * K + n * e := by rw [Nat.mul_assoc, hm, Nat.mul_add]
  refine div_eq_of_mul_le hd ?_ ?_
  · calc n / d * d * K ≤ n * K := Nat.mul_le_mul_right K hle
      _ ≤ n * m * d := by rw [hproduct]; exact Nat.le_add_right _ _
  · calc n * m * d = n * K + n * e := hproduct
      _ < n * K + K := Nat.add_lt_add_left he _
      _ = (n + 1) * K := (Nat.succ_mul n K).symm
      _ ≤ (n / d + 1) * d * K := Nat.mul_le_mul_right K hlt

/-- **A multiplier that is rounded down**, with one more in the dividend. -/
theorem succ_mul_div_of_down (hd : 0 < d) (hm : m * d + r = K) (hr : 0 < r) (hle : (n + 1) * r ≤ K) :
    (n + 1) * m / K = n / d := by
  have hlow : n / d * d ≤ n := Nat.div_mul_le_self n d
  have hlt := lt_succ_div_mul n hd
  have hproduct : (n + 1) * m * d + (n + 1) * r = (n + 1) * K := by
    rw [Nat.mul_assoc, ← Nat.mul_add, hm]
  refine div_eq_of_mul_le hd ?_ ?_
  · have hnext : n * K + K = (n + 1) * K := (Nat.succ_mul n K).symm
    calc n / d * d * K ≤ n * K := Nat.mul_le_mul_right K hlow
      _ ≤ (n + 1) * m * d := by omega
  · have hpos : 0 < (n + 1) * r := Nat.mul_pos (Nat.succ_pos n) hr
    calc (n + 1) * m * d < (n + 1) * K := by omega
      _ ≤ (n / d + 1) * d * K := Nat.mul_le_mul_right K hlt

/-- A multiplier that is rounded down is right for all that the divisor does not divide. -/
theorem mul_div_of_down (hd : 0 < d) (hK : 0 < K) (hm : m * d + r = K) (hle : n * r ≤ K) (hn : ¬ d ∣ n) :
    n * m / K = n / d := by
  have hlow : n / d * d + 1 ≤ n := by
    refine Nat.lt_of_le_of_ne (Nat.div_mul_le_self n d) fun heq => hn ⟨n / d, ?_⟩
    rw [Nat.mul_comm]
    exact heq.symm
  have hlt := lt_succ_div_mul n hd
  have hproduct : n * m * d + n * r = n * K := by rw [Nat.mul_assoc, ← Nat.mul_add, hm]
  refine div_eq_of_mul_le hd ?_ ?_
  · have hnext : n / d * d * K + K ≤ n * K := by
      rw [← Nat.succ_mul]
      exact Nat.mul_le_mul_right K hlow
    omega
  · calc n * m * d ≤ n * K := by omega
      _ < (n / d + 1) * d * K := Nat.mul_lt_mul_of_pos_right hlt hK

end Cccl.Reciprocal
