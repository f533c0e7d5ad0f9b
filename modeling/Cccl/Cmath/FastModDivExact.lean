/-
# When `fast_mod_div` is exact

If the product is computed in the width for which the multiplier was made, then the quotient is exact for all
divisors and dividends: also for the largest dividend of its type, to which one cannot be added, because the
divisors of that number have a multiplier that is rounded up (`div_of_bits`).

If the divisor type is narrower than `int` and the dividend has another type, then both meet in `int`.  The product
with the narrow multiplier has no higher half there, and the quotient is 0 (`div_of_narrow`).
-/
import Cccl.Cmath.FastModDiv
import Cccl.Lib.Reciprocal
import Mathlib.Algebra.Ring.GeomSum
import Mathlib.Data.Nat.ModEq
import Mathlib.Data.Nat.Prime.Basic

namespace Cccl.Cmath

open IntegerTypes Reciprocal

/-! ## 1. `__divmod_pow2` -/

theorem two_mul_or_toNat (a : ℕ) (b : Bool) : 2 * a ||| b.toNat = 2 * a + b.toNat := by
  have h := Nat.two_pow_add_eq_or_of_lt (i := 1) (b := b.toNat) (by cases b <;> decide) a
  rw [Nat.pow_one] at h
  exact h.symm

theorem shiftLeft_mod (a n : ℕ) : (a <<< 1) % 2 ^ (n + 1) = 2 * (a % 2 ^ n) := by
  rw [Nat.shiftLeft_eq, Nat.pow_one, Nat.mul_comm, Nat.pow_succ', Nat.mul_mod_mul_left]

/-- Whether the divisor is subtracted, if the highest bit was set or without it. -/
theorem quotientBit_eq {n d r : ℕ} (hlt : d < 2 ^ (n + 1)) (b : Bool) :
    (decide (r >>> (n + 1 - 1) ≠ 0) || decide (d ≤ 2 * (r % 2 ^ n) + b.toNat)) =
      decide (d ≤ 2 * r + b.toNat) := by
  have hcarry : decide (r >>> (n + 1 - 1) ≠ 0) = decide (2 ^ n ≤ r) := by
    rw [Nat.add_sub_cancel, Nat.shiftRight_eq_div_pow]
    refine decide_eq_decide.mpr ?_
    rw [Nat.div_ne_zero_iff]
    exact ⟨fun h => h.2, fun h => ⟨(Nat.two_pow_pos n).ne', h⟩⟩
  have hpow : 2 ^ (n + 1) = 2 * 2 ^ n := Nat.pow_succ'
  rw [hcarry]
  rcases Nat.lt_or_ge r (2 ^ n) with hsmall | hlarge
  · rw [Nat.mod_eq_of_lt hsmall, decide_eq_false (Nat.not_le.mpr hsmall), Bool.false_or]
  · rw [decide_eq_true hlarge, Bool.true_or, decide_eq_true (by omega)]

/-- What is subtracted from is cut to a word, but the difference is right. -/
theorem difference_eq {n d r : ℕ} (hr : r < d) (hlt : d < 2 ^ (n + 1)) (b : Bool) (hmore : d ≤ 2 * r + b.toNat) :
    (2 * (r % 2 ^ n) + b.toNat + 2 ^ (n + 1) - d) % 2 ^ (n + 1) = 2 * r + b.toNat - d := by
  have hb : b.toNat ≤ 1 := by cases b <;> decide
  have hpow : 2 ^ (n + 1) = 2 * 2 ^ n := Nat.pow_succ'
  rcases Nat.lt_or_ge r (2 ^ n) with hsmall | hlarge
  · have heq : 2 * r + b.toNat + 2 ^ (n + 1) - d = 2 * r + b.toNat - d + 2 ^ (n + 1) := by omega
    rw [Nat.mod_eq_of_lt hsmall, heq, Nat.add_mod_right, Nat.mod_eq_of_lt (by omega)]
  · have hless : r - 2 ^ n < 2 ^ n := by omega
    have heq : 2 * (r - 2 ^ n) + b.toNat + 2 ^ (n + 1) - d = 2 * r + b.toNat - d := by omega
    rw [Nat.mod_eq_sub_mod hlarge, Nat.mod_eq_of_lt hless, heq, Nat.mod_eq_of_lt (by omega)]

/-- **One bit more**: the step keeps quotient and remainder of what the bits so far are. -/
theorem divmodStep_spec {n d : ℕ} (hd : 0 < d) (hlt : d < 2 ^ (n + 1)) (a : ℕ) (b : Bool) :
    divmodStep (n + 1) d b (a / d % 2 ^ (n + 1), a % d) =
      ((2 * a + b.toNat) / d % 2 ^ (n + 1), (2 * a + b.toNat) % d) := by
  have hr := Nat.mod_lt a hd
  have ha := Nat.div_add_mod a d
  have hb : b.toNat ≤ 1 := by cases b <;> decide
  have hpow : 2 ^ (n + 1) = 2 * 2 ^ n := Nat.pow_succ'
  generalize hrem : a % d = r at hr ha
  generalize hquo : a / d = q at ha
  -- the remainder, with the bit behind it
  have hvalue : 2 * a + b.toNat = d * (2 * q) + (2 * r + b.toNat) := by
    rw [← ha]
    ring
  have hquotient : (2 * a + b.toNat) / d = 2 * q + (2 * r + b.toNat) / d := by
    rw [hvalue, Nat.mul_add_div hd]
  have hremainder : (2 * a + b.toNat) % d = (2 * r + b.toNat) % d := by rw [hvalue, Nat.mul_add_mod]
  have hdouble : 2 * (q % 2 ^ n) = 2 * q % 2 ^ (n + 1) := by rw [hpow, Nat.mul_mod_mul_left]
  have hsum : 2 * (q % 2 ^ n) + 1 = (2 * q + 1) % 2 ^ (n + 1) := by
    have hq := Nat.div_add_mod q (2 ^ n)
    have hsmall := Nat.mod_lt q (Nat.two_pow_pos n)
    have hsplit : 2 * q + 1 = 2 ^ (n + 1) * (q / 2 ^ n) + (2 * (q % 2 ^ n) + 1) := by
      rw [hpow, Nat.mul_assoc]
      omega
    have hcut : 2 * (q % 2 ^ n) + 1 < 2 ^ (n + 1) := by omega
    rw [hsplit, Nat.mul_add_mod, Nat.mod_eq_of_lt hcut]
  simp only [divmodStep, shiftLeft_mod, two_mul_or_toNat, quotientBit_eq hlt,
    Nat.mod_mod_of_dvd _ (Nat.pow_dvd_pow 2 (Nat.le_succ n)), hquotient, hremainder]
  rcases Nat.lt_or_ge (2 * r + b.toNat) d with hless | hmore
  · have hsmall : r < 2 ^ n := by omega
    rw [decide_eq_false (Nat.not_le.mpr hless), if_neg Bool.false_ne_true, Nat.div_eq_of_lt hless,
      Nat.mod_eq_of_lt hless, Nat.mod_eq_of_lt hsmall, Bool.toNat_false, Nat.add_zero, Nat.add_zero, hdouble]
  · have hone : (2 * r + b.toNat) / d = 1 := Nat.div_eq_of_lt_le (by omega) (by omega)
    have hmod : (2 * r + b.toNat) % d = 2 * r + b.toNat - d := by
      rw [Nat.mod_eq_sub_mod hmore, Nat.mod_eq_of_lt (by omega)]
    rw [decide_eq_true hmore, if_pos rfl, hone, hmod, difference_eq hr hlt b hmore, Bool.toNat_true, hsum]

theorem divmodLoop_spec {n power d : ℕ} (hd : 0 < d) (hlt : d < 2 ^ (n + 1)) :
    ∀ {bit}, bit ≤ power → ∀ a, divmodLoop (n + 1) power d bit (a / d % 2 ^ (n + 1), a % d) =
      (a * 2 ^ bit / d % 2 ^ (n + 1), a * 2 ^ bit % d)
  | 0, _, a => by rw [divmodLoop, Nat.pow_zero, Nat.mul_one]
  | bit + 1, hbit, a => by
    have hnext : 2 * a * 2 ^ bit = a * 2 ^ (bit + 1) := by
      rw [Nat.mul_comm 2, Nat.mul_assoc, ← Nat.pow_succ']
    have hstep := divmodStep_spec hd hlt a false
    rw [Bool.toNat_false, Nat.add_zero (2 * a)] at hstep
    rw [divmodLoop, decide_eq_false (by omega), hstep, divmodLoop_spec hd hlt (by omega), hnext]

/-- **Quotient and remainder of a power of two**, of which the quotient may be cut. -/
theorem divmodPow2_eq {bits d : ℕ} (hd : 0 < d) (hlt : d < 2 ^ bits) (hbits : 0 < bits) (power : ℕ) :
    divmodPow2 bits power d = (2 ^ power / d % 2 ^ bits, 2 ^ power % d) := by
  obtain ⟨n, rfl⟩ : ∃ n, bits = n + 1 := ⟨bits - 1, by omega⟩
  have hstart : ((0, 0) : ℕ × ℕ) = (0 / d % 2 ^ (n + 1), 0 % d) := by
    rw [Nat.zero_div, Nat.zero_mod, Nat.zero_mod]
  rw [divmodPow2, divmodLoop, hstart, decide_eq_true rfl, divmodStep_spec hd hlt, Nat.mul_zero, Nat.zero_add,
    Bool.toNat_true, divmodLoop_spec hd hlt (Nat.le_refl power), Nat.one_mul]

/-! ## 2. The multiplier -/

namespace FastModDiv

variable {m : DataModel} {hasInt128 : Bool} {T L : IntegerType} {divisorIsNeverOne : Bool} {f : FastModDiv}

/-- A multiplier that is rounded up, for dividends below a bound. -/
structure RoundedUp (bits d bound : ℕ) (f : FastModDiv) (s e : ℕ) : Prop where
  shift : f.shift = s
  add : f.add = 0
  lt : f.multiplier < 2 ^ bits
  product : f.multiplier * d = 2 ^ (bits + s) + e
  error : bound * e ≤ 2 ^ (bits + s)

/-- A multiplier that is rounded down: then one is added to the dividend. -/
structure RoundedDown (bits d : ℕ) (f : FastModDiv) (s r : ℕ) : Prop where
  shift : f.shift = s
  add : f.add = 1
  lt : f.multiplier < 2 ^ bits
  product : f.multiplier * d + r = 2 ^ (bits + s)
  pos : 0 < r
  error : r + 2 ^ s < d
  divisor : d < 2 ^ (s + 1)

theorem div_succ_lt {N s d : ℕ} (hlow : 2 ^ s < d) (hlt : d < 2 ^ N) : 2 ^ (N + s) / d + 1 < 2 ^ N := by
  have hmul : 2 ^ N * 2 ^ s + 2 ^ N ≤ 2 ^ N * d := by
    rw [← Nat.mul_succ]
    exact Nat.mul_le_mul_left _ hlow
  have hle : 2 ^ (N + s) / d < 2 ^ N - 1 := by
    rw [Nat.div_lt_iff_lt_mul (Nat.zero_lt_of_lt hlow), Nat.pow_add, Nat.sub_mul, Nat.one_mul]
    omega
  omega

/-- What `__divmod_pow2` returns to the constructor is not cut. -/
theorem divmodPow2_of_lt {N s d : ℕ} (hlow : 2 ^ s < d) (hlt : d < 2 ^ N) (hN : 0 < N) :
    divmodPow2 N (N + s) d = (2 ^ (N + s) / d, 2 ^ (N + s) % d) := by
  rw [divmodPow2_eq (Nat.zero_lt_of_lt hlow) hlt hN, Nat.mod_eq_of_lt (Nat.lt_of_succ_lt (div_succ_lt hlow hlt))]

theorem roundedUp_lt {s d : ℕ} (hlow : 2 ^ s < d) (hlt : d < 2 ^ T.bits m) :
    roundedUp m T (T.bits m + s) d < 2 ^ T.bits m := by
  have hbool := Bool.toNat_le (decide (2 ^ (T.bits m + s) % d ≠ 0))
  have hquotient := div_succ_lt hlow hlt
  rw [roundedUp, divmodPow2_of_lt hlow hlt IntegerType.bits_pos]
  dsimp only
  omega

theorem rounded_lt {s d : ℕ} (hlow : 2 ^ s < d) (hlt : d < 2 ^ T.bits m) : rounded m T s d < 2 ^ T.bits m := by
  have hbool := Bool.toNat_le (decide (d - 2 ^ s ≤ 2 ^ (T.bits m + s) % d))
  have hquotient := div_succ_lt hlow hlt
  rw [rounded, divmodPow2_of_lt hlow hlt IntegerType.bits_pos]
  dsimp only
  omega

/-- The logarithm of a divisor that is not one, without the one that is subtracted from it. -/
theorem exists_ceilIlog2 {d : ℕ} (hd : 2 ≤ d) : ∃ s, ceilIlog2 d = s + 1 ∧ 2 ^ s < d ∧ d ≤ 2 ^ (s + 1) := by
  have hhigh := le_two_pow_ceilIlog2 d
  have hlow := two_pow_ceilIlog2_lt (show 0 < d by omega)
  obtain ⟨s, hs⟩ : ∃ s, ceilIlog2 d = s + 1 := by
    refine Nat.exists_eq_succ_of_ne_zero fun hzero => ?_
    rw [hzero] at hhigh
    omega
  rw [hs] at hhigh
  rw [hs, Nat.pow_succ'] at hlow
  exact ⟨s, hs, by omega, hhigh⟩

/-- **A signed divisor** has a multiplier that is rounded up. -/
theorem ofSigned_spec {d : ℕ} (hd : 2 ≤ d) (hlt : d < 2 ^ (T.bits m - 1)) :
    ∃ s e, RoundedUp (T.bits m) d (2 ^ (T.bits m - 1)) (ofSigned m T d) s e := by
  have hbits : 0 < T.bits m := IntegerType.bits_pos
  obtain ⟨n, hn⟩ : ∃ n, T.bits m = n + 1 := ⟨T.bits m - 1, by omega⟩
  obtain ⟨s, hs, hsmall, hhigh⟩ := exists_ceilIlog2 hd
  have htwo : 2 ^ (s + 1) = 2 * 2 ^ s := Nat.pow_succ'
  rw [hn, Nat.add_sub_cancel] at hlt
  have hword : 2 ^ (n + 1) = 2 * 2 ^ n := Nat.pow_succ'
  have hk : ((T.bits m : ℤ) + ((ceilIlog2 d : ℤ) - 1)).toNat = n + 1 + s := by
    rw [hs, hn]
    omega
  have hproduct : 2 ^ (n + 1 + s) = 2 ^ (n + 1) * 2 ^ s := Nat.pow_add _ _ _
  have hdiv := Nat.div_add_mod (2 ^ (n + 1 + s)) d
  have hmod := Nat.mod_lt (2 ^ (n + 1 + s)) (show 0 < d by omega)
  have hquotient : 2 ^ (n + 1 + s) / d + 1 < 2 ^ (n + 1) := div_succ_lt hsmall (by omega)
  have hpow2 : divmodPow2 (n + 1) (n + 1 + s) d = (2 ^ (n + 1 + s) / d, 2 ^ (n + 1 + s) % d) :=
    divmodPow2_of_lt hsmall (by omega) (Nat.succ_pos n)
  have hmultiplier : (ofSigned m T d).multiplier =
      2 ^ (n + 1 + s) / d + (decide (2 ^ (n + 1 + s) % d ≠ 0)).toNat := by
    have hbool := Bool.toNat_le (decide (2 ^ (n + 1 + s) % d ≠ 0))
    rw [ofSigned, roundedUp]
    dsimp only
    rw [Int.toNat_natCast, hk, hn, hpow2, Nat.mod_eq_of_lt (by dsimp only; omega)]
  have hbound : 2 ^ n * d ≤ 2 ^ (n + 1 + s) := by
    rw [hproduct, hword, Nat.mul_comm 2, Nat.mul_assoc, ← htwo]
    exact Nat.mul_le_mul_left _ hhigh
  rw [hn, Nat.add_sub_cancel]
  have hshift : (ofSigned m T d).shift = s := by
    change ((ceilIlog2 (d : ℤ).toNat : ℤ) - 1) = s
    rw [Int.toNat_natCast, hs]
    omega
  by_cases hzero : 2 ^ (n + 1 + s) % d = 0
  · refine ⟨s, 0, hshift, rfl, ?_, ?_, by omega⟩
    · rw [hmultiplier, hzero]
      simpa using (by omega : 2 ^ (n + 1 + s) / d < 2 ^ (n + 1))
    · rw [hmultiplier, hzero]
      simp only [ne_eq, not_true_eq_false, decide_false, Bool.toNat_false, Nat.add_zero]
      rw [Nat.mul_comm]
      omega
  · refine ⟨s, d - 2 ^ (n + 1 + s) % d, hshift, rfl, ?_, ?_, ?_⟩
    · rw [hmultiplier, decide_eq_true hzero]
      exact hquotient
    · rw [hmultiplier, decide_eq_true hzero, Bool.toNat_true, Nat.succ_mul, Nat.mul_comm]
      omega
    · exact (Nat.mul_le_mul_left _ (Nat.sub_le _ _)).trans hbound

/-- **An unsigned divisor** that is not a power of two has a multiplier that is rounded up or down. -/
theorem ofUnsigned_spec {d : ℕ} (hd : 0 < d) (hlt : d < 2 ^ T.bits m) (hpow : isPowerOfTwo d = false) :
    0 < (ofUnsigned m T d).multiplier ∧
      ((∃ s e, RoundedUp (T.bits m) d (2 ^ T.bits m) (ofUnsigned m T d) s e) ∨
        ∃ s r, RoundedDown (T.bits m) d (ofUnsigned m T d) s r) := by
  have hbits : 0 < T.bits m := IntegerType.bits_pos
  generalize hN : T.bits m = N at hlt hbits
  set s := ilog2 d with hs
  have hlow : 2 ^ s < d := by
    refine Nat.lt_of_le_of_ne (Nat.log2_self_le hd.ne') fun heq => ?_
    rw [← heq, isPowerOfTwo_two_pow] at hpow
    exact absurd hpow (by decide)
  have hhigh : d < 2 ^ (s + 1) := Nat.lt_log2_self
  have htwo : 2 ^ (s + 1) = 2 * 2 ^ s := Nat.pow_succ'
  set K := 2 ^ (N + s) with hK
  have hproduct : K = 2 ^ N * 2 ^ s := Nat.pow_add _ _ _
  have hdiv := Nat.div_add_mod K d
  have hmod := Nat.mod_lt K hd
  have hquotient : K / d + 1 < 2 ^ N := div_succ_lt hlow hlt
  have hquotientPos : 0 < K / d := by
    refine Nat.div_pos ?_ hd
    exact hlt.le.trans (Nat.pow_le_pow_right (by decide) (Nat.le_add_right _ _))
  have hpow2 : divmodPow2 N (N + s) d = (K / d, K % d) := divmodPow2_of_lt hlow hlt hbits
  have hrem : K % d ≠ 0 := by
    intro hzero
    obtain ⟨k, -, hk⟩ := (Nat.dvd_prime_pow Nat.prime_two).mp (Nat.dvd_of_mod_eq_zero hzero)
    rw [hk, isPowerOfTwo_two_pow] at hpow
    exact absurd hpow (by decide)
  have hcreate : ofUnsigned m T d =
      { divisor := d
        multiplier := K / d + (decide (d - 2 ^ s ≤ K % d)).toNat
        add := (decide (K % d < d - 2 ^ s)).toNat
        shift := s } := by
    have hbool := Bool.toNat_le (decide (d - 2 ^ s ≤ K % d))
    rw [ofUnsigned, rounded]
    dsimp only
    rw [Int.toNat_natCast, hpow, if_neg Bool.false_ne_true, ← hs, hN, hpow2, Nat.mod_eq_of_lt]
    dsimp only
    omega
  rw [hcreate]
  refine ⟨Nat.add_pos_left hquotientPos _, ?_⟩
  rcases Nat.lt_or_ge (K % d) (d - 2 ^ s) with hless | hmore
  · right
    refine ⟨s, K % d, rfl, by rw [decide_eq_true hless]; rfl, ?_, ?_, Nat.pos_of_ne_zero hrem, by omega, hhigh⟩
    · rw [decide_eq_false (Nat.not_le.mpr hless)]
      exact Nat.lt_of_succ_lt hquotient
    · rw [decide_eq_false (Nat.not_le.mpr hless), Bool.toNat_false, Nat.add_zero (K / d), Nat.mul_comm]
      exact hdiv
  · left
    refine ⟨s, d - K % d, rfl, by rw [decide_eq_false (Nat.not_lt.mpr hmore)]; rfl, ?_, ?_, ?_⟩
    · rw [decide_eq_true hmore]
      exact hquotient
    · rw [decide_eq_true hmore, Bool.toNat_true, Nat.succ_mul, Nat.mul_comm]
      omega
    · have herror : d - K % d ≤ 2 ^ s := by omega
      calc 2 ^ N * (d - K % d) ≤ 2 ^ N * 2 ^ s := Nat.mul_le_mul_left _ herror
        _ = 2 ^ (N + s) := (Nat.pow_add _ _ _).symm

/-! ## 3. The quotient -/

/-- The divisors of the largest number of a narrower type have no multiplier that is rounded down. -/
theorem RoundedDown.not_dvd {M N d s r : ℕ} (h : RoundedDown N d f s r) (hMN : M ∣ N) : ¬ d ∣ 2 ^ M - 1 := by
  intro hdvd
  obtain ⟨c, rfl⟩ := hMN
  have hone : 2 ^ (M * c) ≡ 1 [MOD d] := by
    have hsub : 2 ^ M - 1 ∣ 2 ^ (M * c) - 1 := by
      simpa only [one_pow, Nat.pow_mul] using Nat.sub_dvd_pow_sub_pow (2 ^ M) 1 c
    exact ((Nat.modEq_iff_dvd' (Nat.two_pow_pos _)).mpr (hdvd.trans hsub)).symm
  have herror := h.error
  have hdivisor := h.divisor
  rw [Nat.pow_succ'] at hdivisor
  have hsmall : 2 ^ s < d := by omega
  have hmod : 2 ^ (M * c + s) % d = 2 ^ s := by
    have hpow : 2 ^ (M * c) * 2 ^ s % d = 1 * 2 ^ s % d := hone.mul_right (2 ^ s)
    rw [Nat.pow_add, hpow, Nat.one_mul, Nat.mod_eq_of_lt hsmall]
  rw [← h.product, Nat.mul_comm, Nat.mul_add_mod, Nat.mod_eq_of_lt (by omega)] at hmod
  omega

theorem RoundedDown.remainder_le {N d s r : ℕ} (h : RoundedDown N d f s r) : r ≤ 2 ^ s := by
  have herror := h.error
  have hdivisor := h.divisor
  rw [Nat.pow_succ'] at hdivisor
  omega

theorem lt_of_max_le {n : ℕ} (hmax : L.max m ≤ T.max m) (hn : L.Has m n) : n < 2 ^ T.digits m := by
  have hle : n ≤ T.max m := (show n ≤ L.max m from by exact_mod_cast hn.2).trans hmax
  exact Nat.lt_of_le_sub_one (Nat.two_pow_pos _) hle

theorem quotient_eq {n : ℕ} {s : ℕ} (hshift : f.shift = s) (hn : n < 2 ^ (commonType m T L).bits m)
    (hf : f.multiplier < 2 ^ (commonType m T L).bits m) :
    quotient m hasInt128 T L n f = (commonType m T L).staticCast m
      ((n * f.multiplier / 2 ^ ((commonType m T L).bits m + s) : ℕ) : ℤ) := by
  rw [quotient, Nat.mod_eq_of_lt hn, Nat.mod_eq_of_lt hf, mulHi_eq hasInt128 even_bits hn hf, hshift, Int.toNat_natCast,
    Nat.shiftRight_eq_div_pow, Nat.div_div_eq_div_mul, ← Nat.pow_add]

/-- A cast to the common type keeps all numbers up to the dividend. -/
theorem staticCast_common {n v : ℕ} (hn : L.Has m n) (hv : v ≤ n) :
    (commonType m T L).staticCast m v = v := by
  refine IntegerType.staticCast_of_has (IntegerType.has_of_le (hv.trans ?_))
  exact (show n ≤ L.max m from by exact_mod_cast hn.2).trans max_le_commonType.2

theorem lt_common {n : ℕ} (hn : L.Has m n) : n < 2 ^ (commonType m T L).bits m := by
  have hhas : (commonType m T L).Has m n :=
    IntegerType.has_of_le ((show n ≤ L.max m from by exact_mod_cast hn.2).trans max_le_commonType.2)
  exact_mod_cast hhas.lt_two_pow

/-- A multiplier that is rounded up, in the width for which it was made. -/
theorem quotient_of_up {n d bound s e : ℕ} (hd : 0 < d) (hf : RoundedUp (T.bits m) d bound f s e)
    (hbits : (commonType m T L).bits m = T.bits m) (hn : L.Has m n) (hbound : n < bound) :
    quotient m hasInt128 T L n f = (n / d : ℕ) := by
  have herror : n * e < 2 ^ (T.bits m + s) := by
    rcases Nat.eq_zero_or_pos e with hzero | hpos
    · rw [hzero]
      exact Nat.two_pow_pos _
    · exact (Nat.mul_lt_mul_of_pos_right hbound hpos).trans_le hf.error
  rw [quotient_eq hf.shift (lt_common hn) (hbits ▸ hf.lt), hbits, mul_div_of_up hd hf.product herror,
    staticCast_common hn (Nat.div_le_self n d)]

/-- One is added to the dividend only if a multiplier is rounded down. -/
theorem incremented_eq {n : ℕ} (hn : L.Has m n) (hadd : f.add ≤ 1) :
    incremented m L n f = n + f.add ∧ n + f.add < 2 ^ L.bits m ∨
      incremented m L n f = n ∧ n + 1 = 2 ^ L.bits m := by
  have hlt : n < 2 ^ L.bits m := by exact_mod_cast hn.lt_two_pow
  have hdigits : n < 2 ^ L.digits m := by exact_mod_cast hn.lt
  rw [incremented, Int.toNat_natCast]
  split
  · rename_i hroom
    refine Or.inl ⟨rfl, ?_⟩
    rcases hroom with hsigned | hmax
    · have hpow : 2 ^ (L.digits m + 1) ≤ 2 ^ L.bits m := by
        refine Nat.pow_le_pow_right (by decide) ?_
        have hpos := IntegerType.bits_pos (m := m) (T := L)
        rw [IntegerType.digits, hsigned]
        exact (Nat.sub_add_cancel hpos).le
      rw [Nat.pow_succ] at hpow
      omega
    · change n ≠ 2 ^ L.bits m - 1 at hmax
      omega
  · rename_i hfull
    refine Or.inr ⟨rfl, ?_⟩
    have hmax : n = 2 ^ L.bits m - 1 := not_not.mp fun hne => hfull (Or.inr hne)
    omega

/-- **A multiplier that is rounded down**: also the largest dividend, to which one cannot be added, has its
quotient. -/
theorem quotient_of_down {n d s r : ℕ} (hd : 0 < d) (hf : RoundedDown (T.bits m) d f s r)
    (hbits : (commonType m T L).bits m = T.bits m) (hmax : L.max m ≤ T.max m) (hn : L.Has m n) :
    quotient m hasInt128 T L (incremented m L n f % 2 ^ L.bits m) f = (n / d : ℕ) := by
  have hdvd := bits_dvd hmax
  have hword : 2 ^ L.bits m ≤ 2 ^ T.bits m := Nat.pow_le_pow_right (by decide) hdvd.2
  have hlt : n < 2 ^ L.bits m := by exact_mod_cast hn.lt_two_pow
  have hr : ∀ {k}, k ≤ 2 ^ T.bits m → k * r ≤ 2 ^ (T.bits m + s) := by
    intro k hk
    rw [Nat.pow_add]
    exact Nat.mul_le_mul hk hf.remainder_le
  have hlower : f.multiplier < 2 ^ (commonType m T L).bits m := hbits ▸ hf.lt
  rcases incremented_eq hn (by rw [hf.add]) with ⟨hsum, hroom⟩ | ⟨hsame, hfull⟩
  · rw [hf.add] at hsum hroom
    rw [hsum, Nat.mod_eq_of_lt hroom, quotient_eq hf.shift (hbits ▸ hroom.trans_le hword) hlower, hbits,
      succ_mul_div_of_down hd hf.product hf.pos (hr (hroom.le.trans hword)),
      staticCast_common hn (Nat.div_le_self n d)]
  · have hndvd : ¬ d ∣ n := by
      have heq : n = 2 ^ L.bits m - 1 := by omega
      rw [heq]
      exact hf.not_dvd hdvd.1
    rw [hsame, Nat.mod_eq_of_lt hlt, quotient_eq hf.shift (lt_common hn) hlower, hbits,
      mul_div_of_down hd (Nat.two_pow_pos _) hf.product (hr (hlt.le.trans hword)) hndvd,
      staticCast_common hn (Nat.div_le_self n d)]

theorem ofUnsigned_of_pow {d : ℕ} (hpow : isPowerOfTwo d = true) : ofUnsigned m T d =
    { divisor := d, multiplier := 0, add := 0, shift := ilog2 d } := by
  rw [ofUnsigned]
  dsimp only
  rw [Int.toNat_natCast, if_pos hpow]

theorem shiftRight_of_pow {d : ℕ} (hpow : isPowerOfTwo d = true) (n : ℕ) : n >>> ilog2 d = n / d := by
  obtain ⟨k, rfl⟩ := isPowerOfTwo_iff.mp hpow
  rw [ilog2, Nat.log2_two_pow, Nat.shiftRight_eq_div_pow]

/-- The divisors for which no product is computed. -/
def Shifts (T : IntegerType) (divisorIsNeverOne : Bool) (divisor : ℤ) : Prop :=
  if T.signed then divisorIsNeverOne = false ∧ divisor = 1 else isPowerOfTwo divisor.toNat = true

instance (divisor : ℤ) : Decidable (Shifts T divisorIsNeverOne divisor) :=
  inferInstanceAs (Decidable (if T.signed then divisorIsNeverOne = false ∧ divisor = 1
    else isPowerOfTwo divisor.toNat = true))

theorem div_of_shifts {d n : ℕ} (hshifts : Shifts T divisorIsNeverOne d) (hn : L.Has m n) :
    div m hasInt128 T L divisorIsNeverOne n (create m T d) = (n / d : ℕ) := by
  rw [Shifts] at hshifts
  rw [div, create]
  split at hshifts
  · rename_i hsigned
    have hone : d = 1 := by exact_mod_cast hshifts.2
    rw [if_pos hsigned, if_pos hsigned, if_pos (by exact hshifts), staticCast_common hn (Nat.le_refl n), hone,
      Nat.div_one]
  · rename_i hunsigned
    rw [Int.toNat_natCast] at hshifts
    rw [if_neg hunsigned, if_neg hunsigned, ofUnsigned_of_pow hshifts, if_pos rfl, Int.toNat_natCast,
      Nat.mod_eq_of_lt (lt_common hn), Int.toNat_natCast, shiftRight_of_pow hshifts,
      staticCast_common hn (Nat.div_le_self n d)]

/-- **The quotient is exact** if the width of the product is the one of the divisor type. -/
theorem div_of_bits {d n : ℕ} (haccepts : Accepts m T divisorIsNeverOne d) (hn : AcceptsDividend m T L n)
    (hbits : (commonType m T L).bits m = T.bits m) :
    div m hasInt128 T L divisorIsNeverOne n (create m T d) = (n / d : ℕ) := by
  by_cases hshifts : Shifts T divisorIsNeverOne d
  · exact div_of_shifts hshifts hn.2.1
  obtain ⟨hhas, hpos, hone⟩ := haccepts
  obtain ⟨hmax, hnL, -⟩ := hn
  have hd : 0 < d := by exact_mod_cast hpos
  have hdigits : d < 2 ^ T.digits m := by exact_mod_cast hhas.lt
  have hnT := lt_of_max_le hmax hnL
  rw [Shifts] at hshifts
  rw [div, create]
  split at hshifts
  · rename_i hsigned
    have htwo : 2 ≤ d := by
      refine Nat.lt_of_le_of_ne hd fun heq => hshifts ⟨?_, by rw [← heq]; rfl⟩
      exact eq_false_of_ne_true fun hnever => hone hnever (by rw [← heq]; rfl)
    have heq : T.digits m = T.bits m - 1 := by rw [IntegerType.digits, hsigned]; rfl
    rw [heq] at hdigits hnT
    obtain ⟨s, e, hup⟩ := ofSigned_spec htwo hdigits
    rw [if_pos hsigned, if_pos hsigned, if_neg (by exact hshifts), Int.toNat_natCast,
      quotient_of_up hd hup hbits hnL hnT]
  · rename_i hunsigned
    rw [Int.toNat_natCast] at hshifts
    have heq : T.digits m = T.bits m := by rw [IntegerType.digits, eq_false_of_ne_true hunsigned]; rfl
    rw [heq] at hdigits hnT
    obtain ⟨hmultiplier, hrounded⟩ := ofUnsigned_spec hd hdigits (eq_false_of_ne_true hshifts)
    rw [if_neg hunsigned, if_neg hunsigned, if_neg hmultiplier.ne']
    rcases hrounded with ⟨s, e, hup⟩ | ⟨s, r, hdown⟩
    · have hsame : incremented m L n (ofUnsigned m T d) % 2 ^ L.bits m = n := by
        have hlt : n < 2 ^ L.bits m := by exact_mod_cast hnL.lt_two_pow
        rcases incremented_eq hnL (by rw [hup.add]; exact Nat.zero_le 1) with ⟨hsum, -⟩ | ⟨hsame, -⟩
        · rw [hsum, hup.add, Nat.add_zero, Nat.mod_eq_of_lt hlt]
        · rw [hsame, Nat.mod_eq_of_lt hlt]
      rw [hsame, quotient_of_up hd hup hbits hnL hnT]
    · exact quotient_of_down hd hdown hbits hmax hnL

/-! ## 4. Narrow types that meet in `int` -/

/-- A narrow dividend times a narrow multiplier has no higher half in `int`. -/
theorem quotient_of_narrow {x n : ℕ} (hint : (commonType m T L).bits m = 32) (hx : x < 2 ^ 16)
    (hf : f.multiplier < 2 ^ 16) (hn : L.Has m n) : quotient m hasInt128 T L x f = 0 := by
  have hword : 2 ^ 16 ≤ 2 ^ (commonType m T L).bits m := by rw [hint]; decide
  have hproduct : x * f.multiplier < 2 ^ (commonType m T L).bits m := by
    calc x * f.multiplier < 2 ^ 16 * 2 ^ 16 := Nat.mul_lt_mul'' hx hf
      _ = 2 ^ (commonType m T L).bits m := by rw [hint, ← Nat.pow_add]
  rw [quotient, Nat.mod_eq_of_lt (hx.trans_le hword), Nat.mod_eq_of_lt (hf.trans_le hword),
    mulHi_eq hasInt128 even_bits (hx.trans_le hword) (hf.trans_le hword), Nat.div_eq_of_lt hproduct,
    Nat.zero_shiftRight, staticCast_common hn (Nat.zero_le n)]
  rfl

theorem multiplier_lt (d : ℤ) : (create m T d).multiplier < 2 ^ T.bits m := by
  rw [create]
  split
  · exact Nat.mod_lt _ (Nat.two_pow_pos _)
  · rw [ofUnsigned]
    dsimp only
    split
    · exact Nat.two_pow_pos _
    · exact Nat.mod_lt _ (Nat.two_pow_pos _)

/-- **The quotient is 0** if both types are narrow and different. -/
theorem div_of_narrow {d n : ℕ} (haccepts : Accepts m T divisorIsNeverOne d) (hn : AcceptsDividend m T L n)
    (hbits : (commonType m T L).bits m ≠ T.bits m) (hshifts : ¬ Shifts T divisorIsNeverOne d) :
    div m hasInt128 T L divisorIsNeverOne n (create m T d) = 0 := by
  obtain ⟨hhas, hpos, -⟩ := haccepts
  obtain ⟨hmax, hnL, -⟩ := hn
  obtain ⟨hint, hnarrow⟩ := (bits_commonType hmax).resolve_left hbits
  have hword : 2 ^ T.bits m ≤ 2 ^ 16 := Nat.pow_le_pow_right (by decide) hnarrow
  have hwordL : 2 ^ L.bits m ≤ 2 ^ 16 := Nat.pow_le_pow_right (by decide) ((bits_dvd hmax).2.trans hnarrow)
  have hmultiplier := (multiplier_lt (m := m) (T := T) d).trans_le hword
  rw [Shifts] at hshifts
  rw [div]
  rw [create] at hmultiplier ⊢
  split at hshifts
  · rename_i hsigned
    have hlt : n < 2 ^ L.bits m := by exact_mod_cast hnL.lt_two_pow
    rw [if_pos hsigned] at hmultiplier ⊢
    rw [if_pos hsigned, if_neg (by exact hshifts), Int.toNat_natCast,
      quotient_of_narrow hint (hlt.trans_le hwordL) hmultiplier hnL]
  · rename_i hunsigned
    have hdigits : d < 2 ^ T.digits m := by exact_mod_cast hhas.lt
    have heq : T.digits m = T.bits m := by rw [IntegerType.digits, eq_false_of_ne_true hunsigned]; rfl
    rw [heq] at hdigits
    rw [Int.toNat_natCast] at hshifts
    obtain ⟨hne, -⟩ := ofUnsigned_spec (by exact_mod_cast hpos) hdigits (eq_false_of_ne_true hshifts)
    have hlt := Nat.mod_lt (incremented m L n (ofUnsigned m T d)) (Nat.two_pow_pos (L.bits m))
    rw [if_neg hunsigned] at hmultiplier ⊢
    rw [if_neg hunsigned, if_neg hne.ne', quotient_of_narrow hint (hlt.trans_le hwordL) hmultiplier hnL]

/-! ## 5. The remainder -/

theorem evaluate_of_le {U : IntegerType} {v : ℕ} (h : v ≤ U.max m) : evaluate m U v = some (v : ℤ) := by
  have hhas := IntegerType.has_of_le h
  rw [evaluate, if_pos hhas]
  split
  · rfl
  · rw [IntegerType.staticCast_of_has hhas]

theorem mod_of_div {d n q : ℕ} (hd : T.Has m d) (hn : L.Has m n) (hq : q ≤ n) (hle : q * d ≤ n)
    (hfd : f.divisor = d) (hdiv : div m hasInt128 T L divisorIsNeverOne n f = q) :
    mod m hasInt128 T L divisorIsNeverOne n f = some ((n - q * d : ℕ) : ℤ) := by
  have hnL : n ≤ L.max m := by exact_mod_cast hn.2
  have hdT : d ≤ T.max m := by exact_mod_cast hd.2
  have hcommon := (max_le_commonType (m := m) (T := T) (U := L)).2
  have hproduct := max_le_arithmeticType (m := m) (T := commonType m T L) (U := T)
  have hdifference := (max_le_arithmeticType (m := m) (T := L) (U := arithmeticType m (commonType m T L) T)).1
  -- all operands are in the types in which they meet
  have hcast : ∀ {U : IntegerType} {v : ℕ}, v ≤ U.max m → U.staticCast m v = v := fun h =>
    IntegerType.staticCast_of_has (IntegerType.has_of_le h)
  rw [mod, hdiv, hfd, hcast (hq.trans (hnL.trans (hcommon.trans hproduct.1))), hcast (hdT.trans hproduct.2), ← Nat.cast_mul,
    evaluate_of_le (hle.trans (hnL.trans (hcommon.trans hproduct.1))), Option.bind_some,
    hcast (hnL.trans hdifference), hcast (hle.trans (hnL.trans hdifference)), ← Nat.cast_sub hle,
    evaluate_of_le ((Nat.sub_le _ _).trans (hnL.trans hdifference)), Option.map_some,
    hcast ((Nat.sub_le _ _).trans (hnL.trans hcommon))]

theorem create_divisor (d : ℤ) : (create m T d).divisor = d := by
  rw [create]
  split
  · rfl
  · rw [ofUnsigned]
    dsimp only
    split <;> rfl

/-! ## 6. Exactly when -/

/-- The sums of the constructor and of `operator/` fit into the words in which they are kept. -/
structure NoOverflow (m : DataModel) (T L : IntegerType) (divisor dividend : ℤ) : Prop where
  multiplier : if T.signed then
      roundedUp m T (T.bits m + (ceilIlog2 divisor.toNat - 1 : ℤ)).toNat divisor.toNat < 2 ^ T.bits m
    else isPowerOfTwo divisor.toNat = false →
      rounded m T (ilog2 divisor.toNat) divisor.toNat < 2 ^ T.bits m
  dividend : incremented m L dividend (create m T divisor) < 2 ^ L.bits m

/-- Quotient and remainder are the mathematical ones, and nothing overflows. -/
def Exact (m : DataModel) (hasInt128 : Bool) (T L : IntegerType) (divisorIsNeverOne : Bool)
    (divisor dividend : ℤ) : Prop :=
  div m hasInt128 T L divisorIsNeverOne dividend (create m T divisor) = dividend / divisor ∧
    mod m hasInt128 T L divisorIsNeverOne dividend (create m T divisor) = some (dividend % divisor) ∧
    NoOverflow m T L divisor dividend

theorem create_add_le (d : ℤ) : (create m T d).add ≤ 1 := by
  rw [create]
  split
  · exact Nat.zero_le 1
  · rw [ofUnsigned]
    dsimp only
    split
    · exact Nat.zero_le 1
    · exact Bool.toNat_le _

theorem noOverflow {d n : ℕ} (haccepts : Accepts m T divisorIsNeverOne d) (hn : L.Has m n) :
    NoOverflow m T L d n := by
  obtain ⟨hhas, hpos, -⟩ := haccepts
  have hd : 0 < d := by exact_mod_cast hpos
  have hlt : d < 2 ^ T.bits m := by exact_mod_cast hhas.lt_two_pow
  constructor
  · rw [Int.toNat_natCast]
    split
    · rcases Nat.lt_or_ge 1 d with htwo | hone
      · obtain ⟨s, hs, hlow, -⟩ := exists_ceilIlog2 htwo
        have hk : (T.bits m + (ceilIlog2 d - 1 : ℤ)).toNat = T.bits m + s := by
          rw [hs]
          omega
        rw [hk]
        exact roundedUp_lt hlow hlt
      · obtain rfl : d = 1 := by omega
        have hbits : 0 < T.bits m := IntegerType.bits_pos
        have hk : (T.bits m + (ceilIlog2 1 - 1 : ℤ)).toNat = T.bits m - 1 := by
          have hceil : ceilIlog2 1 = 0 := by decide
          rw [hceil]
          omega
        rw [hk, roundedUp, divmodPow2_eq hd hlt hbits, Nat.div_one, Nat.mod_one]
        exact Nat.mod_lt _ (Nat.two_pow_pos _)
    · intro hpow
      refine rounded_lt (Nat.lt_of_le_of_ne (Nat.log2_self_le hd.ne') fun heq => ?_) hlt
      rw [← heq, isPowerOfTwo_two_pow] at hpow
      exact absurd hpow (by decide)
  · rcases incremented_eq hn (create_add_le d) with ⟨hsum, hroom⟩ | ⟨hsame, hfull⟩
    · rw [hsum]
      exact hroom
    · rw [hsame]
      omega

/-- **Exactly when division is exact**: if the common type has the width of the divisor type, or no product is
computed, or the quotient is 0. -/
theorem exact_iff (divisor dividend : ℤ) (haccepts : Accepts m T divisorIsNeverOne divisor)
    (hdividend : AcceptsDividend m T L dividend) :
    Exact m hasInt128 T L divisorIsNeverOne divisor dividend ↔
      (commonType m T L).bits m = T.bits m ∨ Shifts T divisorIsNeverOne divisor ∨ dividend < divisor := by
  obtain ⟨d, rfl⟩ := Int.eq_ofNat_of_zero_le haccepts.2.1.le
  obtain ⟨n, rfl⟩ := Int.eq_ofNat_of_zero_le hdividend.2.2
  have hd : 0 < d := by exact_mod_cast haccepts.2.1
  have hexact : div m hasInt128 T L divisorIsNeverOne n (create m T d) = (n / d : ℕ) →
      Exact m hasInt128 T L divisorIsNeverOne d n := by
    intro hdiv
    refine ⟨hdiv, ?_, noOverflow haccepts hdividend.2.1⟩
    have hrem : n - n / d * d = n % d := by
      have := Nat.div_add_mod' n d
      omega
    rw [mod_of_div haccepts.1 hdividend.2.1 (Nat.div_le_self n d) (Nat.div_mul_le_self n d) (create_divisor _)
      hdiv, hrem]
    rfl
  constructor
  · rintro ⟨hdiv, -, -⟩
    by_contra hnot
    obtain ⟨hbits, hnot⟩ := not_or.mp hnot
    obtain ⟨hshifts, hge⟩ := not_or.mp hnot
    rw [div_of_narrow haccepts hdividend hbits hshifts] at hdiv
    have hzero : n / d = 0 := by exact_mod_cast hdiv.symm
    have hlt : n < d := (Nat.div_eq_zero_iff.mp hzero).resolve_left hd.ne'
    exact hge (by exact_mod_cast hlt)
  · rintro (hbits | hshifts | hless)
    · exact hexact (div_of_bits haccepts hdividend hbits)
    · exact hexact (div_of_shifts hshifts hdividend.2.1)
    · by_cases hbits : (commonType m T L).bits m = T.bits m
      · exact hexact (div_of_bits haccepts hdividend hbits)
      by_cases hshifts : Shifts T divisorIsNeverOne d
      · exact hexact (div_of_shifts hshifts hdividend.2.1)
      refine hexact ?_
      have hlt : n < d := by exact_mod_cast hless
      rw [div_of_narrow haccepts hdividend hbits hshifts, Nat.div_eq_of_lt hlt]
      rfl

/-- `unsigned int` divided by the largest divisor, and by a divisor of the largest number. -/
theorem exact_of_uint : Exact .lp64 true ⟨.int, false⟩ ⟨.int, false⟩ false 641 4294967295 :=
  (exact_iff 641 4294967295 (by decide) (by decide)).mpr (Or.inl (by decide))

/-- `short` divided by 3 has the quotient 0 for a dividend of type `signed char`. -/
theorem not_exact_schar : Accepts .lp64 ⟨.short, true⟩ false 3 ∧
    AcceptsDividend .lp64 ⟨.short, true⟩ ⟨.char, true⟩ 100 ∧
    ¬ Exact .lp64 true ⟨.short, true⟩ ⟨.char, true⟩ false 3 100 := by
  refine ⟨by decide, by decide, fun h => ?_⟩
  have hdiv := h.1
  revert hdiv
  decide

end FastModDiv

end Cccl.Cmath
