/-
# Fields of a number

A number as fields of the same width, the lowest first (`pack`).  While no field is too large, the fields are read back
(`pack_field`), and the number of fields bounds the number (`pack_lt`).  Sums of such numbers are those of their fields
(`sum_pack`), as long as these fit.
-/
import Mathlib.Algebra.BigOperators.Group.List.Lemmas
import Mathlib.Algebra.Order.Ring.Nat

namespace Cccl.Fields

/-- The number with the fields `t 0, t 1, ..` of `b` bits. -/
def pack (b : ℕ) (t : ℕ → ℕ) : ℕ → ℕ
  | 0 => 0
  | n + 1 => pack b t n + 2 ^ (b * n) * t n

variable {b n : ℕ} {t : ℕ → ℕ}

attribute [local simp] pack in
theorem pack_lt : ∀ {n : ℕ}, (∀ k < n, t k < 2 ^ b) → pack b t n < 2 ^ (b * n)
  | 0, _ => Nat.two_pow_pos _
  | n + 1, h => by
    have hlower : pack b t n < 2 ^ (b * n) := pack_lt fun k hk => h k (by omega)
    have hupper : 2 ^ (b * n) * (t n + 1) ≤ 2 ^ (b * n) * 2 ^ b := Nat.mul_le_mul_left _ (h n (Nat.lt_succ_self n))
    rw [pack, Nat.mul_succ, Nat.pow_add]
    rw [Nat.mul_succ] at hupper
    omega

theorem pack_congr {t' : ℕ → ℕ} : ∀ {n : ℕ}, (∀ k < n, t k = t' k) → pack b t n = pack b t' n
  | 0, _ => rfl
  | n + 1, h => by
    rw [pack, pack, pack_congr fun k hk => h k (by omega), h n (Nat.lt_succ_self n)]

theorem pack_zero (n : ℕ) : pack b (fun _ => 0) n = 0 := by
  induction n with
  | zero => rfl
  | succ n ih => rw [pack, ih, Nat.mul_zero]

theorem pack_of_zero (h : ∀ k < n, t k = 0) : pack b t n = 0 := (pack_congr h).trans (pack_zero n)

theorem pack_add (t t' : ℕ → ℕ) : ∀ n, pack b (fun k => t k + t' k) n = pack b t n + pack b t' n
  | 0 => rfl
  | n + 1 => by
    rw [pack, pack, pack, pack_add t t' n, Nat.mul_add]
    omega

theorem pack_single (v : ℕ) {k : ℕ} : ∀ {n : ℕ}, k < n → pack b (fun j => if k = j then v else 0) n = v * 2 ^ (b * k)
  | n + 1, hk => by
    rw [pack]
    rcases Nat.lt_or_ge k n with hless | hmore
    · rw [pack_single v hless, if_neg hless.ne, Nat.mul_zero, Nat.add_zero]
    · obtain rfl : k = n := by omega
      rw [if_pos rfl, pack_of_zero fun j hj => if_neg (Nat.ne_of_gt hj), Nat.zero_add,
        Nat.mul_comm]

theorem sum_pack {A : Type} (t : A → ℕ → ℕ) (l : List A) :
    (l.map fun a => pack b (t a) n).sum = pack b (fun k => (l.map fun a => t a k).sum) n := by
  induction l with
  | nil => exact (pack_zero n).symm
  | cons a l ih =>
    rw [List.map_cons, List.sum_cons, ih, ← pack_add]
    exact pack_congr fun k _ => (List.sum_cons).symm

theorem field_below {p c : ℕ} {k g : ℕ} (hk : b * (k + 1) ≤ g) :
    (p + 2 ^ g * c) / 2 ^ (b * k) % 2 ^ b = p / 2 ^ (b * k) % 2 ^ b := by
  rw [Nat.mul_succ] at hk
  obtain ⟨d, rfl⟩ := Nat.exists_eq_add_of_le hk
  rw [Nat.pow_add, Nat.pow_add, Nat.mul_assoc, Nat.mul_assoc, Nat.add_mul_div_left _ _ (Nat.two_pow_pos _),
    Nat.add_mul_mod_self_left]

theorem div_behind {p c g : ℕ} (hp : p < 2 ^ g) (k : ℕ) : (p + 2 ^ g * c) / 2 ^ (g + k) = c / 2 ^ k := by
  rw [Nat.pow_add, ← Nat.div_div_eq_div_mul, Nat.add_mul_div_left _ _ (Nat.two_pow_pos g), Nat.div_eq_of_lt hp,
    Nat.zero_add]

/-- **Fields are read back.** -/
theorem pack_field : ∀ {n : ℕ}, (∀ k < n, t k < 2 ^ b) → ∀ {k : ℕ}, k < n → pack b t n / 2 ^ (b * k) % 2 ^ b = t k
  | n + 1, h, k, hk => by
    rw [pack]
    rcases Nat.lt_or_ge k n with hless | hmore
    · rw [field_below (Nat.mul_le_mul_left b hless), pack_field (fun j hj => h j (by omega)) hless]
    · obtain rfl : k = n := by omega
      have hlower : pack b t k < 2 ^ (b * k) := pack_lt fun j hj => h j (by omega)
      rw [Nat.add_mul_div_left _ _ (Nat.two_pow_pos _), Nat.div_eq_of_lt hlower, Nat.zero_add, Nat.mod_eq_of_lt (h k hk)]

end Cccl.Fields
