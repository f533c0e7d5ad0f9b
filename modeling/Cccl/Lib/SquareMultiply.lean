/-
# Square and multiply

A power is computed from the binary digits of its exponent: what stands for `2 ^ i` steps is doubled at each
digit, and joined to the result where the digit is one (`powerLoop`).

What it means that something stands for a number of steps is left open.  Doubling and joining need to respect
it only where the loop comes by: at a digit of the exponent, the result so far stands for the digits below
(`powerLoop_spec`).  So the rule can be used where an operation is right for some operands only.
-/
import Mathlib.Algebra.Order.Ring.Nat
import Mathlib.Data.Nat.Bitwise

namespace Cccl.SquareMultiply

variable {A : Type}

/-- The loop over the digits of an exponent, with the result so far and the power of the digit. -/
def powerLoop (join : A → A → A) (double : A → A) (acc cur : A) (z : ℕ) : A :=
  if z = 0 then acc
  else powerLoop join double (if z % 2 = 1 then join acc cur else acc) (double cur) (z / 2)
termination_by z
decreasing_by omega

variable {join : A → A → A} {double : A → A} {Stands : ℕ → A → Prop}

theorem powerLoop_zero (acc cur : A) : powerLoop join double acc cur 0 = acc := by
  rw [powerLoop, if_pos rfl]

theorem mod_two_pow_succ (z i : ℕ) :
    z % 2 ^ (i + 1) = if z / 2 ^ i % 2 = 1 then z % 2 ^ i + 2 ^ i else z % 2 ^ i := by
  rw [Nat.pow_succ, Nat.mod_mul]
  rcases Nat.mod_two_eq_zero_or_one (z / 2 ^ i) with h | h
  · rw [h, if_neg (by decide), Nat.mul_zero, Nat.add_zero]
  · rw [h, if_pos rfl, Nat.mul_one]

theorem powerLoop_from {z : ℕ}
    (hjoin : ∀ i a b, z / 2 ^ i % 2 = 1 → Stands (z % 2 ^ i) a → Stands (2 ^ i) b →
      Stands (z % 2 ^ i + 2 ^ i) (join a b))
    (hdouble : ∀ i b, 2 ^ (i + 1) ≤ z → Stands (2 ^ i) b → Stands (2 ^ (i + 1)) (double b)) :
    ∀ {q i : ℕ} {acc cur : A}, q = z / 2 ^ i → Stands (z % 2 ^ i) acc →
      (2 ^ i ≤ z → Stands (2 ^ i) cur) → Stands z (powerLoop join double acc cur q) := by
  intro q
  -- the exponent that is left decides how far the loop still goes
  induction q using Nat.strong_induction_on with
  | _ q ih =>
    intro i acc cur hq hacc hcur
    rw [powerLoop]
    split
    · rename_i hzero
      have hlt : z < 2 ^ i := by
        rw [hq, Nat.div_eq_zero_iff] at hzero
        exact hzero.resolve_left (Nat.two_pow_pos i).ne'
      rwa [Nat.mod_eq_of_lt hlt] at hacc
    · rename_i hne
      have hle : 2 ^ i ≤ z := by
        by_contra hlt
        exact hne (hq.trans (Nat.div_eq_of_lt (Nat.not_le.mp hlt)))
      have hnext : q / 2 = z / 2 ^ (i + 1) := by rw [hq, Nat.div_div_eq_div_mul, Nat.pow_succ]
      refine ih (q / 2) (by omega) hnext ?_ fun hmore => hdouble i cur hmore (hcur hle)
      rw [mod_two_pow_succ, hq]
      split
      · rename_i hdigit
        exact hjoin i acc cur hdigit hacc (hcur hle)
      · exact hacc

/-- **The rule of square and multiply.** -/
theorem powerLoop_spec {z : ℕ} {acc cur : A} (hzero : Stands 0 acc) (hone : Stands 1 cur)
    (hjoin : ∀ i a b, z / 2 ^ i % 2 = 1 → Stands (z % 2 ^ i) a → Stands (2 ^ i) b →
      Stands (z % 2 ^ i + 2 ^ i) (join a b))
    (hdouble : ∀ i b, 2 ^ (i + 1) ≤ z → Stands (2 ^ i) b → Stands (2 ^ (i + 1)) (double b)) :
    Stands z (powerLoop join double acc cur z) := by
  refine powerLoop_from (i := 0) hjoin hdouble (by rw [Nat.pow_zero, Nat.div_one]) ?_ fun _ => ?_
  · rwa [Nat.pow_zero, Nat.mod_one]
  · rwa [Nat.pow_zero]

theorem powerLoop_add_two_pow : ∀ {i r : ℕ}, r < 2 ^ i → ∀ acc cur : A,
    powerLoop join double acc cur (r + 2 ^ i) =
      join (powerLoop join double acc cur r) (double^[i] cur)
  | 0, r, hr, acc, cur => by
    obtain rfl : r = 0 := by omega
    rw [powerLoop, if_neg (by decide), if_pos (by decide), powerLoop_zero]
    exact powerLoop_zero _ _
  | i + 1, r, hr, acc, cur => by
    rw [Nat.pow_succ] at hr ⊢
    have hhalf : (r + 2 ^ i * 2) / 2 = r / 2 + 2 ^ i := by omega
    have hdigit : (r + 2 ^ i * 2) % 2 = r % 2 := by omega
    have hlower : powerLoop join double acc cur r =
        powerLoop join double (if r % 2 = 1 then join acc cur else acc) (double cur) (r / 2) := by
      rcases Nat.eq_zero_or_pos r with rfl | hpos
      · rw [if_neg (by decide), powerLoop_zero, Nat.zero_div, powerLoop_zero]
      · conv_lhs => rw [powerLoop, if_neg hpos.ne']
    have hpos := Nat.two_pow_pos i
    rw [powerLoop, if_neg (by omega), hhalf, hdigit, powerLoop_add_two_pow (by omega), ← hlower,
      Function.iterate_succ_apply]

end Cccl.SquareMultiply
