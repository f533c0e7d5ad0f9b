/-
# `mul_hi`

The higher half of a product.  Where a type of twice the width exists, the product is computed in it; else it is
put together from the products of halves (`__mul_hi_fallback`).  Both are the quotient of the product by the
power of two (`mulHi_eq`), and none of the sums in between is too large.
-/
import Mathlib.Tactic.Ring

namespace Cccl.Cmath

def mulHiFallback (bits lhs rhs : ℕ) : ℕ :=
  let halfBits := bits / 2
  let lhsLow := lhs % 2 ^ halfBits
  let lhsHigh := (lhs >>> halfBits) % 2 ^ halfBits
  let rhsLow := rhs % 2 ^ halfBits
  let rhsHigh := (rhs >>> halfBits) % 2 ^ halfBits
  let poHalf := (lhsLow * rhsLow % 2 ^ bits) >>> halfBits
  let p1 := lhsLow * rhsHigh % 2 ^ bits
  let p2 := lhsHigh * rhsLow % 2 ^ bits
  let p3 := lhsHigh * rhsHigh % 2 ^ bits
  let p1Half := p1 % 2 ^ halfBits
  let p2Half := p2 % 2 ^ halfBits
  let carry := ((poHalf + p1Half + p2Half) % 2 ^ bits) >>> halfBits
  (p3 + (p1 >>> halfBits) + (p2 >>> halfBits) + carry) % 2 ^ bits

/-- `mul_hi` of an unsigned type.  The intrinsics of the device are the product in a wider type, too. -/
def mulHi (hasInt128 : Bool) (bits lhs rhs : ℕ) : ℕ :=
  if bits < 64 ∨ bits = 64 ∧ hasInt128 then (lhs * rhs % 2 ^ (2 * bits)) >>> bits % 2 ^ bits
  else mulHiFallback bits lhs rhs

/-- A product of numbers with two digits, without the lower half. -/
theorem mul_div_sq (B a₀ a₁ b₀ b₁ : ℕ) (hB : 0 < B) : (a₁ * B + a₀) * (b₁ * B + b₀) / (B * B) =
    a₁ * b₁ + a₀ * b₁ / B + a₁ * b₀ / B + (a₀ * b₀ / B + a₀ * b₁ % B + a₁ * b₀ % B) / B := by
  have hproduct : (a₁ * B + a₀) * (b₁ * B + b₀) =
      a₀ * b₀ + (a₁ * b₁ * B + a₀ * b₁ + a₁ * b₀) * B := by ring
  have h₁ := Nat.div_add_mod (a₀ * b₁) B
  have h₂ := Nat.div_add_mod (a₁ * b₀) B
  have hhigh : a₀ * b₀ / B + (a₁ * b₁ * B + a₀ * b₁ + a₁ * b₀) =
      a₀ * b₀ / B + a₀ * b₁ % B + a₁ * b₀ % B + (a₁ * b₁ + a₀ * b₁ / B + a₁ * b₀ / B) * B := by
    calc a₀ * b₀ / B + (a₁ * b₁ * B + a₀ * b₁ + a₁ * b₀)
        = a₀ * b₀ / B + (a₁ * b₁ * B + (B * (a₀ * b₁ / B) + a₀ * b₁ % B) +
            (B * (a₁ * b₀ / B) + a₁ * b₀ % B)) := by rw [h₁, h₂]
      _ = _ := by ring
  rw [hproduct, ← Nat.div_div_eq_div_mul, Nat.add_mul_div_right _ _ hB, hhigh, Nat.add_mul_div_right _ _ hB,
    Nat.add_comm]

theorem mulHiFallback_eq {h lhs rhs : ℕ} (hlhs : lhs < 2 ^ (2 * h)) (hrhs : rhs < 2 ^ (2 * h)) :
    mulHiFallback (2 * h) lhs rhs = lhs * rhs / 2 ^ (2 * h) := by
  have hsq : 2 ^ (2 * h) = 2 ^ h * 2 ^ h := by rw [Nat.two_mul, Nat.pow_add]
  have hhalf : 2 * h / 2 = h := by omega
  have hlt : lhs * rhs / 2 ^ (2 * h) < 2 ^ (2 * h) :=
    Nat.div_lt_of_lt_mul (Nat.mul_lt_mul'' hlhs hrhs)
  rw [hsq] at hlhs hrhs hlt ⊢
  generalize hB : 2 ^ h = B at hlhs hrhs hlt hsq ⊢
  have hpos : 0 < B := hB ▸ Nat.two_pow_pos h
  have hdiv : ∀ {n}, n < B * B → n / B < B := fun hn => Nat.div_lt_of_lt_mul hn
  have hmod : ∀ n, n % B < B := fun n => Nat.mod_lt n hpos
  have hsmall : ∀ {a b}, a < B → b < B → a * b < B * B := fun ha hb => Nat.mul_lt_mul'' ha hb
  -- the sum of three halves is at most a word
  have hthree : ∀ {a b c}, a < B → b < B → c < B → a + b + c < B * B := by
    intro a b c ha hb hc
    rcases Nat.lt_or_ge B 3 with hB3 | hB3
    · have hpow : h = 0 ∨ h = 1 := by
        by_contra hne
        have : 2 ^ 2 ≤ 2 ^ h := Nat.pow_le_pow_right (by decide) (by omega)
        omega
      rcases hpow with rfl | rfl
      · omega
      · have hB2 : B = 2 := hB.symm
        subst hB2
        omega
    · have : 3 * B ≤ B * B := Nat.mul_le_mul_right B hB3
      omega
  have hproduct := mul_div_sq B (lhs % B) (lhs / B) (rhs % B) (rhs / B) hpos
  rw [Nat.div_add_mod' lhs B, Nat.div_add_mod' rhs B] at hproduct
  simp only [mulHiFallback, hhalf, hsq, Nat.shiftRight_eq_div_pow, hB, Nat.mod_eq_of_lt (hdiv hlhs),
    Nat.mod_eq_of_lt (hdiv hrhs), Nat.mod_eq_of_lt (hsmall (hmod lhs) (hmod rhs)),
    Nat.mod_eq_of_lt (hsmall (hmod lhs) (hdiv hrhs)), Nat.mod_eq_of_lt (hsmall (hdiv hlhs) (hmod rhs)),
    Nat.mod_eq_of_lt (hsmall (hdiv hlhs) (hdiv hrhs)),
    Nat.mod_eq_of_lt (hthree (hdiv (hsmall (hmod lhs) (hmod rhs))) (hmod (lhs % B * (rhs / B)))
      (hmod (lhs / B * (rhs % B)))), ← hproduct, Nat.mod_eq_of_lt hlt]

/-- **The higher half of the product**, whichever way it is computed. -/
theorem mulHi_eq (hasInt128 : Bool) {bits lhs rhs : ℕ} (heven : bits % 2 = 0) (hlhs : lhs < 2 ^ bits)
    (hrhs : rhs < 2 ^ bits) : mulHi hasInt128 bits lhs rhs = lhs * rhs / 2 ^ bits := by
  unfold mulHi
  split
  · have hproduct : lhs * rhs < 2 ^ (2 * bits) := by
      rw [Nat.two_mul, Nat.pow_add]
      exact Nat.mul_lt_mul'' hlhs hrhs
    rw [Nat.mod_eq_of_lt hproduct, Nat.shiftRight_eq_div_pow, Nat.mod_eq_of_lt]
    exact Nat.div_lt_of_lt_mul (Nat.mul_lt_mul'' hlhs hrhs)
  · obtain ⟨h, rfl⟩ : ∃ h, bits = 2 * h := ⟨bits / 2, by omega⟩
    exact mulHiFallback_eq hlhs hrhs

end Cccl.Cmath
