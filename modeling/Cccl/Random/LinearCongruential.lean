/-
# `linear_congruential_engine`

A step of the engine is `(a * x + c) mod m`, where `m = 0` stands for the range of the type.  The product may
leave the type, so the formula is chosen by three predicates of the constants (`LceAlgPicker`): whether a
product can be too large, whether that does no harm because `m` is a power of two, and whether Schrage's
decomposition of `m` by `a` can be used.

The second predicate holds of every even `m` (`overflowOk_iff`).  And where products can be too large although
nothing helps against it, the plain formula is used: the assertion that should refuse such constants only
refuses them if `a` and `m` are both zero.  So the step is right in four cases (`Exact`), and in all others
there is a state where it is wrong (`isExact_iff`): the first product that is too large.
-/
import Cccl.Lib.IntegerTypes
import Mathlib.Data.Nat.Bitwise
import Mathlib.Data.Nat.ModEq
import Mathlib.Data.Nat.Prime.Basic
import Mathlib.Tactic.Ring

namespace Cccl.Random

/-! ## 1. The engine -/

/-- The constants that the assertions of the engine let pass, for an unsigned type of 8 to 64 bits. -/
structure LinearCongruentialEngine where
  bits : ℕ
  a : ℕ
  c : ℕ
  m : ℕ
  supported : bits = 8 ∨ bits = 16 ∨ bits = 32 ∨ bits = 64
  a_lt : a < 2 ^ bits
  c_lt : c < 2 ^ bits
  m_lt : m < 2 ^ bits
  a_lt_m : m = 0 ∨ a < m
  c_lt_m : m = 0 ∨ c < m
  /-- `_Min < _Max`. -/
  min_lt_max : (if c = 0 then 1 else 0) < if m = 0 then 2 ^ bits - 1 else m - 1

namespace LceAlgPicker

def mightOverflow (a c m mpMax : ℕ) : Bool := a ≠ 0 && m ≠ 0 && (mpMax - c) / a < m - 1

/-- `_OverflowOk`.  The predecessor of zero is the largest number. -/
def overflowOk (m : ℕ) : Bool := m < m ||| (m + (2 ^ 64 - 1)) % 2 ^ 64

def schrageOk (a m : ℕ) : Bool := a ≠ 0 && m ≠ 0 && m % a ≤ m / a

def useSchrage (a c m mpMax : ℕ) : Bool :=
  mightOverflow a c m mpMax && !overflowOk m && schrageOk a m

end LceAlgPicker

open LceAlgPicker

/-- Schrage's algorithm, up to the summand. -/
def schrage (w a m x : ℕ) : ℕ :=
  let q := m / a
  let r := m % a
  let t0 := a * (x % q) % 2 ^ w
  let t1 := r * (x / q) % 2 ^ w
  ((t0 + if t0 < t1 then m else 0) + (2 ^ w - t1)) % 2 ^ w

/-- `__lce_ta::next` for words of 32 or 64 bits. -/
def lceNext (w a c m x : ℕ) : ℕ :=
  if useSchrage a c m (2 ^ w - 1) then
    if c = 0 then schrage w a m x
    else
      let x := schrage w a m x
      (x + (c + (2 ^ w - if m - c ≤ x then m else 0))) % 2 ^ w
  else if m = 0 then (a * x + c) % 2 ^ w
  else (a * x + c) % 2 ^ w % m

namespace LinearCongruentialEngine

variable (E : LinearCongruentialEngine)

/-- The width that a step is computed in. -/
def wordBits : ℕ := if E.bits < 32 then 32 else E.bits

/-- `operator()`, which returns the next state. -/
def next (x : ℕ) : ℕ := lceNext E.wordBits E.a E.c E.m x % 2 ^ E.bits

/-- The modulus that is meant. -/
def modulus : ℕ := if E.m = 0 then 2 ^ E.bits else E.m

/-- **A step is the recurrence**, for every state. -/
def IsExact : Prop := ∀ x < E.modulus, E.next x = (E.a * x + E.c) % E.modulus

/-- Products do not leave the word, or it does no harm, or Schrage's algorithm is chosen and can be used. -/
def Exact : Prop :=
  E.m = 0 ∨ E.a * (E.m - 1) + E.c < 2 ^ E.wordBits ∨ (∃ k, E.m = 2 ^ k) ∨
    E.m % 2 = 1 ∧ E.m % E.a ≤ E.m / E.a

end LinearCongruentialEngine

/-! ## 2. The predicates -/

variable {w a c m : ℕ}

/-- **Every even number passes as a power of two.** -/
theorem overflowOk_iff (hm : m < 2 ^ 64) : overflowOk m = true ↔ m % 2 = 0 := by
  rw [overflowOk, decide_eq_true_eq]
  rcases Nat.eq_zero_or_pos m with rfl | hpos
  · decide
  · have hpred : (m + (2 ^ 64 - 1)) % 2 ^ 64 = m - 1 := by omega
    have hle : m ≤ m ||| (m - 1) := Nat.left_le_or
    rw [hpred]
    constructor
    · intro h
      by_contra hodd
      have hsame : m ||| (m - 1) = m := by
        refine Nat.eq_of_testBit_eq fun i => ?_
        rw [Nat.testBit_or]
        cases i with
        | zero =>
          rw [Nat.testBit_zero, Nat.testBit_zero, decide_eq_true (by omega : m % 2 = 1), Bool.true_or]
        | succ i =>
          have hhalf : (m - 1) / 2 = m / 2 := by omega
          rw [Nat.testBit_succ, Nat.testBit_succ, hhalf, Bool.or_self]
      omega
    · intro heven
      refine lt_of_le_of_ne hle fun h => ?_
      have hbit : m.testBit 0 = (m.testBit 0 || (m - 1).testBit 0) := by rw [← Nat.testBit_or, ← h]
      rw [Nat.testBit_zero, Nat.testBit_zero, decide_eq_false (by omega), decide_eq_true (by omega)] at hbit
      exact absurd hbit (by decide)

theorem mightOverflow_iff (hm : m ≠ 0) (hc : c < 2 ^ w) :
    mightOverflow a c m (2 ^ w - 1) = true ↔ 2 ^ w ≤ a * (m - 1) + c := by
  simp only [mightOverflow, Bool.and_eq_true, decide_eq_true_eq]
  rcases Nat.eq_zero_or_pos a with rfl | ha
  · simp
    omega
  · rw [Nat.div_lt_iff_lt_mul ha, Nat.mul_comm (m - 1)]
    omega

/-! ## 3. The plain formula -/

/-- A sum that leaves the word has the right remainder if the modulus divides what was cut off. -/
theorem mod_mod_eq_iff {v : ℕ} : v % 2 ^ w % m = v % m ↔ m ∣ 2 ^ w * (v / 2 ^ w) := by
  have hsum := Nat.div_add_mod v (2 ^ w)
  have hcut : v - v % 2 ^ w = 2 ^ w * (v / 2 ^ w) := by omega
  rw [← hcut]
  exact Nat.modEq_iff_dvd' (Nat.mod_le v (2 ^ w))

/-- **Where no power of two is the modulus, the first product that is too large is wrong.** -/
theorem exists_wrong (ha : a < 2 ^ w) (hc : c < 2 ^ w) (hover : 2 ^ w ≤ a * (m - 1) + c)
    (hm : ¬ m ∣ 2 ^ w) : ∃ x < m, (a * x + c) % 2 ^ w % m ≠ (a * x + c) % m := by
  have hexists : ∃ x, 2 ^ w ≤ a * x + c := ⟨m - 1, hover⟩
  obtain ⟨x, hx, hfirst⟩ : ∃ x, 2 ^ w ≤ a * x + c ∧ ∀ y < x, ¬ 2 ^ w ≤ a * y + c :=
    ⟨Nat.find hexists, Nat.find_spec hexists, fun y hy => Nat.find_min hexists hy⟩
  obtain ⟨y, rfl⟩ : ∃ y, x = y + 1 := by
    refine Nat.exists_eq_succ_of_ne_zero fun hzero => ?_
    rw [hzero, Nat.mul_zero, Nat.zero_add] at hx
    omega
  have hbefore := hfirst y (Nat.lt_succ_self y)
  have hlast : y + 1 ≤ m - 1 := by
    by_contra hgt
    exact hfirst (m - 1) (by omega) hover
  -- it is too large by less than a word
  have hquotient : (a * (y + 1) + c) / 2 ^ w = 1 := by
    rw [Nat.mul_succ] at hx ⊢
    exact Nat.div_eq_of_lt_le (by omega) (by omega)
  refine ⟨y + 1, by omega, fun heq => hm ?_⟩
  rwa [mod_mod_eq_iff, hquotient, Nat.mul_one] at heq

/-! ## 4. Schrage's algorithm -/

theorem schrage_eq {x : ℕ} (hm : m < 2 ^ w) (ha : 0 < a) (ham : a < m) (hr : m % a ≤ m / a) (hx : x < m) :
    schrage w a m x = a * x % m := by
  have hq : 0 < m / a := Nat.div_pos ham.le ha
  obtain ⟨q, hq'⟩ : ∃ q, m / a = q := ⟨_, rfl⟩
  obtain ⟨r, hr'⟩ : ∃ r, m % a = r := ⟨_, rfl⟩
  obtain ⟨y, hy⟩ : ∃ y, x / q = y := ⟨_, rfl⟩
  obtain ⟨z, hz⟩ : ∃ z, x % q = z := ⟨_, rfl⟩
  rw [hq'] at hq
  rw [hq', hr'] at hr
  have hmsplit : a * q + r = m := by rw [← hq', ← hr', Nat.div_add_mod]
  have hxsplit : q * y + z = x := by rw [← hy, ← hz, Nat.div_add_mod]
  have hzq : z < q := hz ▸ Nat.mod_lt x hq
  -- the quotient is at most the factor
  have hya : y ≤ a := by
    by_contra hgt
    have hmul : q * (a + 1) ≤ q * y := Nat.mul_le_mul_left q (Nat.not_le.mp hgt)
    rw [Nat.mul_succ, Nat.mul_comm q a] at hmul
    omega
  have ht0 : a * z < m := by
    have hmul : a * (z + 1) ≤ a * q := Nat.mul_le_mul_left a hzq
    rw [Nat.mul_succ] at hmul
    omega
  have ht1 : r * y ≤ m := by
    have hmul : r * y ≤ q * a := Nat.mul_le_mul hr hya
    rw [Nat.mul_comm q a] at hmul
    omega
  have hbalance : a * x + r * y = m * y + a * z := by
    rw [← hxsplit, ← hmsplit]
    ring
  have hcast0 : a * z % 2 ^ w = a * z := Nat.mod_eq_of_lt (ht0.trans hm)
  have hcast1 : r * y % 2 ^ w = r * y := Nat.mod_eq_of_lt (ht1.trans_lt hm)
  simp only [schrage, hq', hr', hy, hz, hcast0, hcast1]
  split
  · rename_i hless
    obtain ⟨n, hn⟩ : ∃ n, y = n + 1 := by
      refine Nat.exists_eq_succ_of_ne_zero fun hzero => ?_
      rw [hzero, Nat.mul_zero] at hless
      omega
    have hone : m * y = m * n + m := by rw [hn, Nat.mul_succ]
    have hvalue : a * x = m * n + (a * z + m - r * y) := by omega
    have hsum : a * z + m + (2 ^ w - r * y) = a * z + m - r * y + 2 ^ w := by omega
    rw [hsum, Nat.add_mod_right, Nat.mod_eq_of_lt (by omega), hvalue, Nat.mul_add_mod,
      Nat.mod_eq_of_lt (by omega)]
  · have hvalue : a * x = m * y + (a * z - r * y) := by omega
    have hsum : a * z + 0 + (2 ^ w - r * y) = a * z - r * y + 2 ^ w := by omega
    rw [hsum, Nat.add_mod_right, Nat.mod_eq_of_lt (by omega), hvalue, Nat.mul_add_mod,
      Nat.mod_eq_of_lt (by omega)]

theorem add_wrap_eq {v : ℕ} (hm : m < 2 ^ w) (hc : c < m) (hv : v < m) :
    (v + (c + (2 ^ w - if m - c ≤ v then m else 0))) % 2 ^ w = (v + c) % m := by
  split
  · have hsum : v + (c + (2 ^ w - m)) = v + c - m + 2 ^ w := by omega
    rw [hsum, Nat.add_mod_right, Nat.mod_eq_of_lt (by omega), Nat.mod_eq_sub_mod (by omega),
      Nat.mod_eq_of_lt (by omega)]
  · have hsum : v + (c + (2 ^ w - 0)) = v + c + 2 ^ w := by omega
    rw [hsum, Nat.add_mod_right, Nat.mod_eq_of_lt (by omega), Nat.mod_eq_of_lt (by omega)]

/-! ## 5. The step -/

theorem lceNext_schrage {x : ℕ} (hm : m < 2 ^ w) (hc : c < m) (ham : a < m) (hx : x < m)
    (h : useSchrage a c m (2 ^ w - 1) = true) : lceNext w a c m x = (a * x + c) % m := by
  have hok : schrageOk a m = true := (Bool.and_eq_true _ _).mp h |>.2
  simp only [schrageOk, Bool.and_eq_true, decide_eq_true_eq] at hok
  have hstep := schrage_eq hm (Nat.pos_of_ne_zero hok.1.1) ham hok.2 hx
  rw [lceNext, if_pos h, hstep]
  split
  · rename_i hzero
    rw [hzero, Nat.add_zero]
  · have hlt : a * x % m < m := Nat.mod_lt _ (by omega)
    dsimp only
    rw [add_wrap_eq hm hc hlt, Nat.mod_add_mod]

theorem lceNext_plain {x : ℕ} (hm : m ≠ 0) (h : useSchrage a c m (2 ^ w - 1) = false) :
    lceNext w a c m x = (a * x + c) % 2 ^ w % m := by
  rw [lceNext, if_neg (by rw [h]; exact Bool.false_ne_true), if_neg hm]

namespace LinearCongruentialEngine

variable (E : LinearCongruentialEngine)

theorem wordBits_eq : E.wordBits = 32 ∧ E.bits ≤ 32 ∨ E.wordBits = 64 ∧ E.bits = 64 := by
  unfold wordBits
  rcases E.supported with h | h | h | h <;> rw [h] <;> decide

theorem two_le_m (hm : E.m ≠ 0) : 2 ≤ E.m := by
  have h := E.min_lt_max
  rw [if_neg hm] at h
  omega

theorem lt_word : 2 ^ E.bits ≤ 2 ^ E.wordBits ∧ 2 ^ E.wordBits ≤ 2 ^ 64 := by
  rcases E.wordBits_eq with ⟨hw, hb⟩ | ⟨hw, hb⟩
  all_goals exact ⟨Nat.pow_le_pow_right (by decide) (by omega), Nat.pow_le_pow_right (by decide) (by omega)⟩

/-- With the range of the type as the modulus, the word cuts off the right multiple. -/
theorem next_of_zero (hm : E.m = 0) (x : ℕ) : E.next x = (E.a * x + E.c) % 2 ^ E.bits := by
  have hdvd : 2 ^ E.bits ∣ 2 ^ E.wordBits := by
    refine Nat.pow_dvd_pow 2 ?_
    rcases E.wordBits_eq with h | h <;> omega
  have hplain : useSchrage E.a E.c E.m (2 ^ E.wordBits - 1) = false := by
    rw [hm]
    simp [useSchrage, mightOverflow]
  rw [next, lceNext, if_neg (by rw [hplain]; exact Bool.false_ne_true), if_pos hm, Nat.mod_mod_of_dvd _ hdvd]

/-- The next state is below the modulus, and not changed by the conversion. -/
theorem next_of_ne_zero (hm : E.m ≠ 0) {x v : ℕ} (h : lceNext E.wordBits E.a E.c E.m x = v % E.m) :
    E.next x = v % E.m := by
  have hlt := E.m_lt
  have hmod : v % E.m < E.m := Nat.mod_lt _ (Nat.pos_of_ne_zero hm)
  rw [next, h, Nat.mod_eq_of_lt (hmod.trans hlt)]

/-- **Without products that are too large, the step is the recurrence.** -/
theorem next_of_lt (hm : E.m ≠ 0) {x : ℕ} (hx : x < E.m)
    (h : E.a * (E.m - 1) + E.c < 2 ^ E.wordBits) : E.next x = (E.a * x + E.c) % E.m := by
  obtain ⟨hword, -⟩ := E.lt_word
  have hmight : mightOverflow E.a E.c E.m (2 ^ E.wordBits - 1) = false := by
    rw [Bool.eq_false_iff, ne_eq, mightOverflow_iff hm (E.c_lt.trans_le hword)]
    omega
  have hplain : useSchrage E.a E.c E.m (2 ^ E.wordBits - 1) = false := by
    rw [useSchrage, hmight, Bool.false_and, Bool.false_and]
  have hmul : E.a * x ≤ E.a * (E.m - 1) := Nat.mul_le_mul_left _ (by omega)
  have hcut : (E.a * x + E.c) % 2 ^ E.wordBits = E.a * x + E.c := Nat.mod_eq_of_lt (by omega)
  exact E.next_of_ne_zero hm (by rw [lceNext_plain hm hplain, hcut])

variable {E}

/-- Where products can be too large, the plain formula is right for powers of two only. -/
theorem isExact_iff_of_plain (hm : E.m ≠ 0) (hover : 2 ^ E.wordBits ≤ E.a * (E.m - 1) + E.c)
    (hschrage : useSchrage E.a E.c E.m (2 ^ E.wordBits - 1) = false) :
    E.IsExact ↔ ∃ k, E.m = 2 ^ k := by
  obtain ⟨hword, -⟩ := E.lt_word
  have hmword : E.m < 2 ^ E.wordBits := E.m_lt.trans_le hword
  have hmod : E.modulus = E.m := if_neg hm
  have hnext : ∀ x, E.next x = (E.a * x + E.c) % 2 ^ E.wordBits % E.m := fun x =>
    E.next_of_ne_zero hm (lceNext_plain hm hschrage)
  constructor
  · intro h
    by_contra hpow
    have hdvd : ¬ E.m ∣ 2 ^ E.wordBits := by
      rw [Nat.dvd_prime_pow Nat.prime_two]
      exact fun ⟨k, _, hk⟩ => hpow ⟨k, hk⟩
    obtain ⟨x, hx, hne⟩ := exists_wrong (E.a_lt.trans_le hword) (E.c_lt.trans_le hword) hover hdvd
    refine hne ?_
    rw [← hnext, h x (hmod ▸ hx), hmod]
  · rintro ⟨k, hk⟩ x -
    rw [hk, Nat.pow_lt_pow_iff_right (by decide)] at hmword
    have hdvd : E.m ∣ 2 ^ E.wordBits := hk ▸ Nat.pow_dvd_pow 2 hmword.le
    rw [hnext, hmod, Nat.mod_mod_of_dvd _ hdvd]

/-- Schrage's algorithm is chosen for odd numbers that it can be used for. -/
theorem useSchrage_eq_true_iff (hm : E.m ≠ 0) (hover : 2 ^ E.wordBits ≤ E.a * (E.m - 1) + E.c) :
    useSchrage E.a E.c E.m (2 ^ E.wordBits - 1) = true ↔ E.m % 2 = 1 ∧ E.m % E.a ≤ E.m / E.a := by
  obtain ⟨hword, hword64⟩ := E.lt_word
  have hc : E.c < E.m := E.c_lt_m.resolve_left hm
  have hmword : E.m < 2 ^ E.wordBits := E.m_lt.trans_le hword
  have hmight := (mightOverflow_iff hm (E.c_lt.trans_le hword)).mpr hover
  have hok := overflowOk_iff (hmword.trans_le hword64)
  have ha : E.a ≠ 0 := by
    intro hzero
    rw [hzero, Nat.zero_mul, Nat.zero_add] at hover
    omega
  have hodd : (!overflowOk E.m) = true ↔ E.m % 2 = 1 := by
    rw [Bool.not_eq_true', Bool.eq_false_iff, ne_eq, hok]
    omega
  have hle : schrageOk E.a E.m = true ↔ E.m % E.a ≤ E.m / E.a := by simp [schrageOk, ha, hm]
  rw [useSchrage, hmight, Bool.true_and, Bool.and_eq_true, hodd, hle]

variable (E)

/-- **When a step is the recurrence.** -/
theorem isExact_iff : E.IsExact ↔ E.Exact := by
  obtain ⟨hword, -⟩ := E.lt_word
  by_cases hm : E.m = 0
  · refine iff_of_true (fun x _ => ?_) (.inl hm)
    rw [E.next_of_zero hm, modulus, if_pos hm]
  have hmod : E.modulus = E.m := if_neg hm
  by_cases hover : 2 ^ E.wordBits ≤ E.a * (E.m - 1) + E.c
  swap
  · refine iff_of_true (fun x hx => ?_) (.inr (.inl (Nat.not_le.mp hover)))
    rw [hmod] at hx ⊢
    exact E.next_of_lt hm hx (Nat.not_le.mp hover)
  have hchosen := useSchrage_eq_true_iff hm hover
  rw [Exact, ← hchosen]
  cases hschrage : useSchrage E.a E.c E.m (2 ^ E.wordBits - 1) with
  | true =>
    refine iff_of_true (fun x hx => ?_) (.inr (.inr (.inr rfl)))
    rw [hmod] at hx ⊢
    exact E.next_of_ne_zero hm (lceNext_schrage (E.m_lt.trans_le hword) (E.c_lt_m.resolve_left hm)
      (E.a_lt_m.resolve_left hm) hx hschrage)
  | false =>
    rw [isExact_iff_of_plain hm hover hschrage]
    constructor
    · exact fun h => .inr (.inr (.inl h))
    · rintro (h | h | h | h)
      · exact absurd h hm
      · omega
      · exact h
      · exact absurd h Bool.false_ne_true

/-- `linear_congruential_engine<uint32_t, 4294967291, 0, 4294967294>`. -/
def evenModulus : LinearCongruentialEngine :=
  ⟨32, 4294967291, 0, 4294967294, by decide, by decide, by decide, by decide, by decide, by decide, by decide⟩

/-- An even modulus passes as a power of two: the state after 3 should be 4294967285. -/
theorem not_isExact_evenModulus : ¬ evenModulus.IsExact := by
  intro h
  have hstep : evenModulus.next 3 = (evenModulus.a * 3 + evenModulus.c) % evenModulus.modulus :=
    h 3 (by decide)
  exact absurd hstep (by decide)

end LinearCongruentialEngine

end Cccl.Random
