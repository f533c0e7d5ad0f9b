/-
# Gathering and scattering bits

The bits of a number at the places of a mask, one behind the other (`Gathered`), and the lowest bits of a number at the
places of a mask (`Scattered`).  The place of a bit is the number of places below it (`rank`).

Pieces of the mask can be gathered one by one and in any order, as two neighbours make up one (`Gathered.join`).  Pieces
without places give nothing (`gathered_zeros`), and pieces of places only give the bits as they are (`gathered_ones`).
-/
import Mathlib.Data.Nat.Bitwise
import Mathlib.Data.Nat.Count

namespace Cccl.BitGather

/-- The number of places of a mask below a bit. -/
def rank (m n : ℕ) : ℕ := Nat.count (fun i => m.testBit i = true) n

/-- The bits of `v` between `p` and `q` at the places of the mask `m` are those of `r`. -/
structure Gathered (v m p q r : ℕ) : Prop where
  lt : r < 2 ^ (rank m q - rank m p)
  bit : ∀ i, p ≤ i → i < q → m.testBit i = true → r.testBit (rank m i - rank m p) = v.testBit i

/-- The lowest bits of `v` are those of `r` at the places of `m` below `q`, and there are no other bits. -/
def Scattered (v m q r : ℕ) : Prop :=
  ∀ i, r.testBit i = (decide (i < q) && (m.testBit i && v.testBit (rank m i)))

variable {v m p q k r s n : ℕ}

theorem rank_mono (m : ℕ) {p q : ℕ} (h : p ≤ q) : rank m p ≤ rank m q := Nat.count_monotone _ h

theorem rank_lt (hp : m.testBit p = true) (h : p < q) : rank m p < rank m q := Nat.count_strict_mono hp h

theorem rank_le (m n : ℕ) : rank m n ≤ n := Nat.count_le _

theorem rank_zeros (h : ∀ i, p ≤ i → i < p + n → m.testBit i = false) : rank m (p + n) = rank m p := by
  have hzero : Nat.count (fun k => m.testBit (p + k) = true) n = 0 :=
    Nat.count_iff_forall_not.mpr fun i hi hbit => by
      rw [h (p + i) (Nat.le_add_right _ _) (by omega)] at hbit
      exact Bool.false_ne_true hbit
  rw [rank, Nat.count_add, hzero, rank, Nat.add_zero]

theorem rank_ones (h : ∀ i, p ≤ i → i < p + n → m.testBit i = true) : rank m (p + n) = rank m p + n := by
  have hall : Nat.count (fun k => m.testBit (p + k) = true) n = n :=
    Nat.count_iff_forall.mpr fun i hi => h (p + i) (Nat.le_add_right _ _) (by omega)
  rw [rank, Nat.count_add, hall, rank]

theorem exists_rank : ∀ {q : ℕ}, n < rank m q → ∃ i < q, m.testBit i = true ∧ rank m i = n
  | 0, h => absurd h (Nat.not_lt.mpr (Nat.zero_le n))
  | q + 1, h => by
    rcases Nat.lt_or_ge n (rank m q) with hless | hmore
    · obtain ⟨i, hi, hbit, hrank⟩ := exists_rank hless
      exact ⟨i, hi.trans (Nat.lt_succ_self q), hbit, hrank⟩
    · rw [rank, Nat.count_succ] at h
      change n < rank m q + _ at h
      split at h
      · rename_i hbit
        exact ⟨q, Nat.lt_succ_self q, hbit, by omega⟩
      · omega

/-! ## Pieces -/

theorem gathered_zeros (h : ∀ i, p ≤ i → i < q → m.testBit i = false) : Gathered v m p q 0 where
  lt := Nat.two_pow_pos _
  bit i hp hq hbit := by
    rw [h i hp hq] at hbit
    exact absurd hbit Bool.false_ne_true

theorem gathered_ones (h : ∀ i, p ≤ i → i < p + n → m.testBit i = true) : Gathered v m p (p + n) (v >>> p % 2 ^ n) where
  lt := by
    rw [rank_ones h, Nat.add_sub_cancel_left]
    exact Nat.mod_lt _ (Nat.two_pow_pos n)
  bit i hp hq _ := by
    obtain ⟨d, rfl⟩ := Nat.exists_eq_add_of_le hp
    rw [rank_ones fun j hj hjd => h j hj (by omega), Nat.add_sub_cancel_left, Nat.testBit_mod_two_pow,
      Nat.testBit_shiftRight, decide_eq_true (by omega), Bool.true_and]

/-- **Neighbours make up one piece.** -/
theorem Gathered.join (hlow : Gathered v m p k r) (hhigh : Gathered v m k q s) (hpk : p ≤ k) (hkq : k ≤ q) :
    Gathered v m p q (r ||| s <<< (rank m k - rank m p)) := by
  have hrank := rank_mono m hpk
  have hrank' := rank_mono m hkq
  refine ⟨Nat.or_lt_two_pow (hlow.lt.trans_le (Nat.pow_le_pow_right (by decide) (by omega))) ?_, fun i hpi hiq hbit => ?_⟩
  · have hshift := Nat.mul_lt_mul_of_pos_right hhigh.lt (Nat.two_pow_pos (rank m k - rank m p))
    rw [← Nat.pow_add] at hshift
    rw [Nat.shiftLeft_eq]
    exact hshift.trans_le (Nat.pow_le_pow_right (by decide) (by omega))
  · rw [Nat.testBit_or, Nat.testBit_shiftLeft]
    have hp := rank_mono m hpi
    rcases Nat.lt_or_ge i k with hik | hki
    · have hless := rank_lt hbit hik
      rw [hlow.bit i hpi hik hbit, decide_eq_false (by omega), Bool.false_and, Bool.or_false]
    · have hmore := rank_mono m hki
      rw [Nat.testBit_lt_two_pow (hlow.lt.trans_le (Nat.pow_le_pow_right (by decide) (by omega))), Bool.false_or,
        decide_eq_true (by omega), Bool.true_and,
        show rank m i - rank m p - (rank m k - rank m p) = rank m i - rank m k by omega, hhigh.bit i hki hiq hbit]

theorem Gathered.eq {r' : ℕ} (h : Gathered v m 0 q r) (h' : Gathered v m 0 q r') : r = r' := by
  refine Nat.eq_of_testBit_eq fun n => ?_
  have hzero : rank m 0 = 0 := rfl
  rcases Nat.lt_or_ge n (rank m q) with hless | hmore
  · obtain ⟨i, hi, hbit, rfl⟩ := exists_rank hless
    exact (h.bit i (Nat.zero_le i) hi hbit).trans (h'.bit i (Nat.zero_le i) hi hbit).symm
  · have hpow : 2 ^ (rank m q - rank m 0) ≤ 2 ^ n := Nat.pow_le_pow_right (by decide) (by omega)
    rw [Nat.testBit_lt_two_pow (h.lt.trans_le hpow), Nat.testBit_lt_two_pow (h'.lt.trans_le hpow)]

theorem Scattered.zeros (hr : Scattered v m k r) (h : ∀ i, k ≤ i → i < k + n → m.testBit i = false) :
    Scattered v m (k + n) r := by
  intro i
  rw [hr i]
  rcases Nat.lt_or_ge i k with hless | hmore
  · rw [decide_eq_true hless, decide_eq_true (show i < k + n by omega)]
  · rw [decide_eq_false (Nat.not_lt.mpr hmore), Bool.false_and]
    rcases Nat.lt_or_ge i (k + n) with hinside | hbehind
    · rw [h i hmore hinside, Bool.false_and, Bool.and_false]
    · rw [decide_eq_false (Nat.not_lt.mpr hbehind), Bool.false_and]

theorem Scattered.ones (hr : Scattered v m k r) (h : ∀ i, k ≤ i → i < k + n → m.testBit i = true) :
    Scattered v m (k + n) (r ||| (v >>> rank m k % 2 ^ n) <<< k) := by
  intro i
  rw [Nat.testBit_or, hr i, Nat.testBit_shiftLeft, Nat.testBit_mod_two_pow, Nat.testBit_shiftRight]
  rcases Nat.lt_or_ge i k with hless | hmore
  · rw [decide_eq_true hless, decide_eq_true (show i < k + n by omega), decide_eq_false (Nat.not_le.mpr hless),
      Bool.false_and, Bool.or_false]
  · obtain ⟨d, rfl⟩ := Nat.exists_eq_add_of_le hmore
    rw [decide_eq_false (Nat.not_lt.mpr hmore), decide_eq_true hmore, Bool.false_and, Bool.false_or, Bool.true_and,
      Nat.add_sub_cancel_left, decide_eq_decide.mpr (show d < n ↔ k + d < k + n by omega)]
    by_cases hd : k + d < k + n
    · rw [rank_ones fun j hj hjd => h j hj (by omega), h (k + d) hmore hd, Bool.true_and]
    · rw [decide_eq_false hd, Bool.false_and, Bool.false_and]

/-! ## Back again -/

/-- Scattering what was gathered leaves the bits at the places. -/
theorem Scattered.of_gathered (hg : Gathered v m 0 q r) (hs : Scattered r m q s) (hm : m < 2 ^ q) : s = v &&& m := by
  refine Nat.eq_of_testBit_eq fun i => ?_
  rw [hs i, Nat.testBit_and]
  rcases Nat.lt_or_ge i q with hless | hmore
  · rw [decide_eq_true hless, Bool.true_and]
    cases hbit : m.testBit i with
    | false => rw [Bool.false_and, Bool.and_false]
    | true => rw [Bool.true_and, Bool.and_true, ← hg.bit i (Nat.zero_le i) hless hbit]; rfl
  · rw [Nat.testBit_lt_two_pow (hm.trans_le (Nat.pow_le_pow_right (by decide) hmore)), Bool.false_and, Bool.and_false,
      Bool.and_false]

theorem Gathered.of_scattered (hs : Scattered v m q s) (hg : Gathered s m 0 q r) : r = v % 2 ^ rank m q := by
  refine hg.eq ⟨Nat.mod_lt _ (Nat.two_pow_pos _), fun i _ hi hbit => ?_⟩
  have hzero : rank m i - rank m 0 = rank m i := rfl
  rw [hzero, Nat.testBit_mod_two_pow, hs i, decide_eq_true hi, decide_eq_true (rank_lt hbit hi), hbit, Bool.true_and,
    Bool.true_and]

end Cccl.BitGather
