/-
# Intervals between cuts

A sequence of cuts that does not go down divides what is between two of them into intervals: each number is in one of
them (`exists_interval`), and in no other one (`interval_unique`).

Intervals of the same size need as many cuts as the quotient that is rounded up: one less is not enough
(`ceilDiv_spec`).
-/
import Mathlib.Algebra.Order.Floor.Div

namespace Cccl.Cuts

variable {α : Type*} [LinearOrder α] {s : ℕ → α}

/-- **Each number is in an interval.** -/
theorem exists_interval {i : α} (hlo : s 0 ≤ i) : ∀ {n : ℕ}, i < s n → ∃ b < n, s b ≤ i ∧ i < s (b + 1) := by
  intro n
  induction n with
  | zero => exact fun hhi => absurd hhi (not_lt_of_ge hlo)
  | succ n ih =>
    intro hhi
    rcases lt_or_ge i (s n) with h | h
    · obtain ⟨b, hb, hinterval⟩ := ih h
      exact ⟨b, hb.trans (Nat.lt_succ_self n), hinterval⟩
    · exact ⟨n, Nat.lt_succ_self n, h, hhi⟩

theorem interval_unique (hmono : Monotone s) {i : α} {b c : ℕ} (hb : s b ≤ i ∧ i < s (b + 1))
    (hc : s c ≤ i ∧ i < s (c + 1)) : b = c := by
  rcases lt_trichotomy b c with h | h | h
  · exact absurd (hb.2.trans_le ((hmono h).trans hc.1)) (lt_irrefl i)
  · exact h
  · exact absurd (hc.2.trans_le ((hmono h).trans hb.1)) (lt_irrefl i)

/-- So many intervals of the size `b` are enough for `a`, and one less is not. -/
theorem ceilDiv_spec {a b : ℕ} (ha : 0 < a) (hb : 0 < b) :
    0 < a ⌈/⌉ b ∧ (a ⌈/⌉ b - 1) * b < a ∧ a ≤ a ⌈/⌉ b * b := by
  have henough : a ≤ a ⌈/⌉ b * b := by
    have h := le_smul_ceilDiv (b := a) hb
    rwa [smul_eq_mul, Nat.mul_comm] at h
  have hpos : 0 < a ⌈/⌉ b := by
    refine Nat.pos_of_ne_zero fun hzero => ?_
    rw [hzero, Nat.zero_mul] at henough
    exact Nat.not_le_of_lt ha henough
  refine ⟨hpos, ?_, henough⟩
  by_contra hnot
  rw [Nat.not_lt, Nat.mul_comm] at hnot
  have hless : a ⌈/⌉ b ≤ a ⌈/⌉ b - 1 := (ceilDiv_le_iff_le_mul hb).mpr hnot
  exact absurd hless (Nat.not_le_of_lt (Nat.sub_lt hpos Nat.one_pos))

end Cccl.Cuts
