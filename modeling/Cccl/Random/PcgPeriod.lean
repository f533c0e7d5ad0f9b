/-
# The period of a PCG engine

A map `x ↦ x * a + c` modulo a power of two, with an odd `c` and an `a` that is one more than a multiple of four, goes
through all numbers before it comes back (`affine_dvd_iff`).  So an engine with such constants does, whichever type of
128 bits it has (`fullPeriod`).
-/
import Cccl.Random.PcgStream
import Mathlib

namespace Cccl.Random

open Finset

/-! ## 1. Affine maps modulo a power of two -/

section Affine

variable {a c : ℤ}

/-- A sum of powers has the factors two of the number of its terms. -/
theorem two_pow_dvd_powers_iff (ha : 4 ∣ a - 1) (k n : ℕ) : (2 : ℤ) ^ k ∣ ∑ i ∈ range n, a ^ i ↔ (2 : ℤ) ^ k ∣ n := by
  rcases eq_or_ne a 1 with rfl | hone
  · simp
  have hodd : ¬(2 : ℤ) ∣ a := by omega
  have hpow := Int.two_pow_sub_pow' n ha hodd
  rw [one_pow, ← geom_sum_mul, emultiplicity_mul Int.prime_two, add_comm] at hpow
  have hfinite : emultiplicity 2 (a - 1) ≠ ⊤ :=
    finiteMultiplicity_iff_emultiplicity_ne_top.mp
      (Int.finiteMultiplicity_iff.mpr ⟨by decide, sub_ne_zero.mpr hone⟩)
  rw [pow_dvd_iff_le_emultiplicity, pow_dvd_iff_le_emultiplicity, ENat.add_right_injective_of_ne_top hfinite hpow]

theorem iterate_affine (x : ℤ) (n : ℕ) :
    (fun y => y * a + c)^[n] x - x = (x * (a - 1) + c) * ∑ i ∈ range n, a ^ i := by
  induction n with
  | zero => simp
  | succ n ih =>
    rw [Function.iterate_succ_apply', ← sub_add_cancel ((fun y => y * a + c)^[n] x) x, ih, sum_range_succ]
    have := geom_sum_mul a n
    linear_combination (x * (a - 1) + c) * this

/-- **The map comes back** after as many steps as there are numbers, and not before. -/
theorem affine_dvd_iff (ha : 4 ∣ a - 1) (hc : ¬2 ∣ c) (k n : ℕ) (x : ℤ) :
    (2 : ℤ) ^ k ∣ (fun y => y * a + c)^[n] x - x ↔ (2 : ℤ) ^ k ∣ n := by
  have hodd : ¬(2 : ℤ) ∣ x * (a - 1) + c := fun h =>
    hc ((Int.dvd_add_right ((dvd_trans (by decide) ha).mul_left x)).mp h)
  have hcoprime : IsCoprime ((2 : ℤ) ^ k) (x * (a - 1) + c) :=
    ((Int.prime_two.coprime_iff_not_dvd).mpr hodd).pow_left
  rw [iterate_affine, ← two_pow_dvd_powers_iff ha]
  exact ⟨hcoprime.dvd_of_dvd_mul_left, fun h => h.mul_left _⟩

end Affine

/-! ## 2. The engine -/

/-- From each state on, all states are reached before it comes again. -/
def FullPeriod (W : Type) [Uint128 W] (P : PcgConstants) : Prop :=
  ∀ x : W, (∀ n, (outputs P n x).2 = x ↔ 2 ^ 128 ∣ n) ∧ ∀ y, ∃! n, n < 2 ^ 128 ∧ (outputs P n x).2 = y

variable {P : PcgConstants}

theorem iterate_ofInt (n : ℕ) (v : ℤ) : (step P)^[n] (BitVec.ofInt 128 v) = BitVec.ofInt 128
    ((fun y => y * (multiplier (BitVec 128) P).toInt + (increment (BitVec 128) P).toInt)^[n] v) := by
  induction n with
  | zero => rfl
  | succ n ih =>
    rw [Function.iterate_succ_apply', Function.iterate_succ_apply', ih, BitVec.ofInt_add, BitVec.ofInt_mul,
      BitVec.ofInt_toInt, BitVec.ofInt_toInt]
    rfl

theorem ofInt_eq_iff (v v' : ℤ) : BitVec.ofInt 128 v = BitVec.ofInt 128 v' ↔ (2 : ℤ) ^ 128 ∣ v - v' := by
  rw [← BitVec.toNat_inj, BitVec.toNat_ofInt, BitVec.toNat_ofInt]
  omega

theorem toInt_ofWords (hi lo : BitVec 64) : ∃ z : ℤ, (ofWords hi lo : BitVec 128).toInt = lo.toNat + 2 ^ 64 * z := by
  have hlow : ((ofWords hi lo : BitVec 128).setWidth 64) = lo := by
    change (hi.setWidth 128 <<< 64 ||| lo.setWidth 128).setWidth 64 = lo
    refine BitVec.eq_of_getLsbD_eq fun i hi => ?_
    grind
  have hmod := congrArg BitVec.toNat hlow
  rw [BitVec.toNat_setWidth] at hmod
  refine ⟨((ofWords hi lo : BitVec 128).toInt - lo.toNat) / 2 ^ 64, ?_⟩
  rw [BitVec.toInt_eq_toNat_cond]
  split
  · omega
  · omega

/-- **The period is full** if the factor is one more than a multiple of four and the summand is odd. -/
theorem fullPeriod_native (ha : P.aLo.toNat % 4 = 1) (hc : P.cLo.toNat % 2 = 1) : FullPeriod (BitVec 128) P := by
  have hperiod : ∀ (x : BitVec 128) (n : ℕ), (step P)^[n] x = x ↔ 2 ^ 128 ∣ n := by
    intro x n
    have hstart : x = BitVec.ofInt 128 x.toInt := BitVec.ofInt_toInt.symm
    obtain ⟨z, hz⟩ := toInt_ofWords P.aHi P.aLo
    obtain ⟨z', hz'⟩ := toInt_ofWords P.cHi P.cLo
    have hmult : 4 ∣ (multiplier (BitVec 128) P).toInt - 1 := by
      rw [multiplier, hz]
      omega
    have hincr : ¬2 ∣ (increment (BitVec 128) P).toInt := by
      rw [increment, hz']
      omega
    rw [hstart, iterate_ofInt, ofInt_eq_iff, affine_dvd_iff hmult hincr]
    exact_mod_cast Iff.rfl
  intro x
  have hinj : ∀ {i j}, i < 2 ^ 128 → j < 2 ^ 128 → (step P)^[i] x = (step P)^[j] x → i = j := by
    intro i j hi hj heq
    wlog hle : i ≤ j generalizing i j
    · exact (this hj hi heq.symm (Nat.le_of_not_le hle)).symm
    obtain ⟨d, rfl⟩ := Nat.exists_eq_add_of_le hle
    rw [Nat.add_comm, Function.iterate_add_apply] at heq
    have hdvd := (hperiod _ d).mp heq.symm
    have := Nat.eq_zero_of_dvd_of_lt hdvd (by omega)
    omega
  refine ⟨fun n => by rw [outputs_snd, hperiod], fun y => ?_⟩
  have hsurj : Function.Surjective fun i : Fin (2 ^ 128) => ((step P)^[i] x).toFin :=
    Finite.injective_iff_surjective.mp fun i j h => Fin.ext (hinj i.isLt j.isLt (BitVec.toFin_inj.mp h))
  obtain ⟨n, hn⟩ := hsurj y.toFin
  refine ⟨n, ⟨n.isLt, by rw [outputs_snd]; exact BitVec.toFin_inj.mp hn⟩, fun m hm => ?_⟩
  obtain ⟨hless, hreach⟩ := hm
  rw [outputs_snd] at hreach
  exact hinj hless n.isLt (hreach.trans (BitVec.toFin_inj.mp hn).symm)

/-- **The period of an engine is full**, whichever type it has, if the factor is one more than a multiple of four and
the summand is odd. -/
theorem fullPeriod (P : PcgConstants) (ha : P.aLo.toNat % 4 = 1) (hc : P.cLo.toNat % 2 = 1) :
    FullPeriod (BitVec 128) P ∧ FullPeriod Fallback P := by
  have hnative := fullPeriod_native ha hc
  refine ⟨hnative, fun x => ?_⟩
  have hvalue : ∀ n y, (outputs P n x).2 = y ↔ (outputs P n x.value).2 = y.value := fun n y => by
    rw [← (outputs_value P n x).2]
    exact ⟨congrArg Fallback.value, Fallback.value_injective⟩
  refine ⟨fun n => (hvalue n x).trans ((hnative x.value).1 n), fun y => ?_⟩
  simpa only [hvalue] using (hnative x.value).2 y.value

def pcg64 : PcgConstants := ⟨2549297995355413924, 4865540595714422341, 6364136223846793005, 1442695040888963407⟩

theorem fullPeriod_pcg64 : FullPeriod (BitVec 128) pcg64 ∧ FullPeriod Fallback pcg64 :=
  fullPeriod pcg64 (by decide) (by decide)

end Cccl.Random
