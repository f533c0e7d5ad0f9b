/-
# Bins

`IntPow` is a power of 32 bits (`intPow_toNat`).  `NearestPowerOf` multiplies a `size_t` by the base until it is not
below the value, and returns early if the product of the value and the base is below the value.

Two numbers that are multiplied may wrap to a larger one, too.  Then the loop is entered although no power of the base
is left, and where the powers become zero, it never ends (`not_nearestPowerOf_exact`).  And the product of the largest
power with the base may be too large although the power itself is not.  The early return is right if and only if it is
taken exactly when there is no power between the value and the largest `size_t` (`nearestPowerOf_exact_iff`).
-/
import Cccl.CachingAllocator.Allocator

namespace Cccl.CachingAllocator

/-! ## 1. `IntPow` -/

theorem intPowLoop_toNat : ∀ (fuel : ℕ) (base exp retval : BitVec 32), exp.toNat < 2 ^ fuel →
    (intPowLoop fuel base exp retval).toNat = retval.toNat * base.toNat ^ exp.toNat % 2 ^ 32
  | 0, base, exp, retval, h => by
    have hzero : exp.toNat = 0 := by omega
    rw [intPowLoop, hzero, Nat.pow_zero, Nat.mul_one, Nat.mod_eq_of_lt retval.isLt]
  | fuel + 1, base, exp, retval, h => by
    rw [intPowLoop]
    split
    · have hhalf : (exp >>> 1).toNat = exp.toNat / 2 := by
        rw [BitVec.toNat_ushiftRight, Nat.shiftRight_eq_div_pow, Nat.pow_one]
      have hdigit : exp &&& 1 = 1 ↔ exp.toNat % 2 = 1 := by
        rw [← BitVec.toNat_inj, BitVec.toNat_and]
        exact Eq.congr_left (Nat.and_one_is_mod _)
      rw [intPowLoop_toNat fuel _ _ _ (by rw [hhalf, Nat.pow_succ] at *; omega), hhalf, BitVec.toNat_mul,
        Nat.mul_mod, ← Nat.pow_mod, ← Nat.mul_mod, ← Nat.pow_two, ← Nat.pow_mul]
      split
      · rename_i hodd
        have hexp : exp.toNat = 2 * (exp.toNat / 2) + 1 := by
          have := hdigit.mp hodd
          omega
        conv_rhs => rw [hexp, Nat.pow_succ, Nat.mul_comm (base.toNat ^ _), ← Nat.mul_assoc]
        rw [BitVec.toNat_mul, Nat.mod_mul_mod]
      · rename_i heven
        have hexp : exp.toNat = 2 * (exp.toNat / 2) := by
          have := mt hdigit.mpr heven
          omega
        rw [← hexp]
    · rename_i hnot
      have hzero : exp.toNat = 0 := by
        rw [BitVec.lt_def] at hnot
        exact Nat.eq_zero_of_not_pos hnot
      rw [hzero, Nat.pow_zero, Nat.mul_one, Nat.mod_eq_of_lt retval.isLt]

/-- **`IntPow` is the power**, cut to 32 bits. -/
theorem intPow_toNat (base exp : BitVec 32) : (intPow base exp).toNat = base.toNat ^ exp.toNat % 2 ^ 32 := by
  rw [intPow, intPowLoop_toNat 32 base exp 1 exp.isLt]
  exact congrArg (· % 2 ^ 32) (Nat.one_mul _)

/-! ## 2. The loop of `NearestPowerOf` -/

variable {base : BitVec 32} {value : BitVec 64} {i j fuel : ℕ} {r : BitVec 32 × BitVec 64}

/-- The loop stops after so many rounds. -/
structure StopsAt (base : BitVec 32) (value : BitVec 64) (i j : ℕ) : Prop where
  le : i ≤ j
  reached : value.toNat ≤ base.toNat ^ j % 2 ^ 64
  before : ∀ n, i ≤ n → n < j → base.toNat ^ n % 2 ^ 64 < value.toNat

/-- The state of the loop after so many rounds. -/
def powerPair (base : BitVec 32) (i : ℕ) : BitVec 32 × BitVec 64 :=
  (BitVec.ofNat 32 i, BitVec.ofNat 64 (base.toNat ^ i))

theorem ofNat_pow_succ (i : ℕ) :
    BitVec.ofNat 64 (base.toNat ^ i) * base.setWidth 64 = BitVec.ofNat 64 (base.toNat ^ (i + 1)) := by
  refine BitVec.eq_of_toNat_eq ?_
  rw [BitVec.toNat_mul, BitVec.toNat_ofNat, BitVec.toNat_ofNat, BitVec.toNat_setWidth, ← Nat.mul_mod]
  rfl

/-- **What the loop returns**, if it ends. -/
theorem nearestPowerLoop_eq_some_iff : ∀ {fuel i : ℕ},
    nearestPowerLoop base value fuel (BitVec.ofNat 32 i) (BitVec.ofNat 64 (base.toNat ^ i)) = some r ↔
      ∃ j < i + fuel, StopsAt base value i j ∧ r = powerPair base j
  | 0, i => by
    rw [nearestPowerLoop]
    exact iff_of_false (by simp) fun ⟨j, hlt, hstop, _⟩ => absurd hstop.le (by omega)
  | fuel + 1, i => by
    have hnext : BitVec.ofNat 32 i + 1 = BitVec.ofNat 32 (i + 1) := (BitVec.ofNat_add i 1).symm
    rw [nearestPowerLoop, hnext, ofNat_pow_succ]
    split
    · rename_i hless
      rw [BitVec.lt_def, BitVec.toNat_ofNat] at hless
      rw [nearestPowerLoop_eq_some_iff]
      constructor
      · rintro ⟨j, hlt, hstop, hr⟩
        refine ⟨j, by omega, ⟨(Nat.le_succ i).trans hstop.le, hstop.reached, fun n hn hnj => ?_⟩, hr⟩
        rcases Nat.eq_or_lt_of_le hn with rfl | hmore
        · exact hless
        · exact hstop.before n hmore hnj
      · rintro ⟨j, hlt, hstop, hr⟩
        have hne : i ≠ j := by
          rintro rfl
          exact absurd hstop.reached (Nat.not_le.mpr hless)
        exact ⟨j, by omega, ⟨lt_of_le_of_ne hstop.le hne, hstop.reached,
          fun n hn hnj => hstop.before n (Nat.le_of_succ_le hn) hnj⟩, hr⟩
    · rename_i hmore
      rw [BitVec.lt_def, BitVec.toNat_ofNat] at hmore
      rw [Option.some.injEq]
      constructor
      · rintro rfl
        exact ⟨i, by omega, ⟨le_rfl, Nat.not_lt.mp hmore, fun n hn hni => absurd hn (Nat.not_le.mpr hni)⟩, rfl⟩
      · rintro ⟨j, -, hstop, rfl⟩
        rcases Nat.eq_or_lt_of_le hstop.le with rfl | hlt
        · rfl
        · exact absurd (hstop.before i le_rfl hlt) hmore

/-- The early return. -/
def Overflows (base : BitVec 32) (value : BitVec 64) : Prop := value * base.setWidth 64 < value

/-- **What `NearestPowerOf` returns**, if it ends. -/
theorem nearestPowerOf_eq_some_iff : nearestPowerOf base value = some r ↔
    Overflows base value ∧ r = (64, -1) ∨
      ¬Overflows base value ∧ ∃ j < 2 ^ 64, StopsAt base value 0 j ∧ r = powerPair base j := by
  unfold nearestPowerOf
  split
  · rename_i h
    rw [Option.some.injEq]
    exact ⟨fun hr => Or.inl ⟨h, hr.symm⟩, fun hr => hr.elim (fun hr => hr.2.symm) fun hr => absurd h hr.1⟩
  · rename_i h
    have hloop := @nearestPowerLoop_eq_some_iff base value r (2 ^ 64) 0
    rw [Nat.zero_add] at hloop
    exact hloop.trans ⟨fun hr => Or.inr ⟨h, hr⟩, fun hr => hr.elim (fun hr => absurd hr.1 h) And.right⟩

/-! ## 3. When it is exact -/

/-- A power of the base that is not below the value. -/
def IsPower (base : BitVec 32) (value : BitVec 64) (k : ℕ) : Prop :=
  value.toNat ≤ base.toNat ^ k ∧ base.toNat ^ k < 2 ^ 64

/-- The least power that is not below the value, or the largest numbers if a `size_t` has none. -/
def NearestPower (base : BitVec 32) (value : BitVec 64) (r : BitVec 32 × BitVec 64) : Prop :=
  (∃ k, IsLeast {k | IsPower base value k} k ∧ r = powerPair base k) ∨
    (∀ k, ¬IsPower base value k) ∧ r = (64, -1)

theorem IsPower.lt (hbase : 2 ≤ base.toNat) {k : ℕ} (h : IsPower base value k) : k < 64 :=
  (Nat.pow_lt_pow_iff_right (by decide)).mp ((Nat.pow_le_pow_left hbase k).trans_lt h.2)

theorem stopsAt_of_isLeast (hbase : 2 ≤ base.toNat) {k : ℕ} (h : IsLeast {k | IsPower base value k} k) :
    StopsAt base value 0 k := by
  refine ⟨Nat.zero_le k, ?_, fun n _ hn => ?_⟩
  · rw [Nat.mod_eq_of_lt h.1.2]
    exact h.1.1
  · have hless : base.toNat ^ n < 2 ^ 64 := (Nat.pow_lt_pow_right hbase hn).trans h.1.2
    rw [Nat.mod_eq_of_lt hless]
    by_contra hnot
    exact absurd (h.2 ⟨Nat.not_lt.mp hnot, hless⟩) (Nat.not_le.mpr hn)

theorem exists_isLeast {k : ℕ} (h : IsPower base value k) : ∃ k, IsLeast {k | IsPower base value k} k := by
  classical
  exact ⟨Nat.find ⟨k, h⟩, Nat.find_spec ⟨k, h⟩, fun n hn => Nat.find_min' ⟨k, h⟩ hn⟩

/-- The largest numbers are never the state of the loop: an even power is a square. -/
theorem powerPair_ne (j : ℕ) : powerPair base j ≠ (64, -1) := by
  intro h
  obtain ⟨hpower, hbytes⟩ := Prod.mk.inj h
  have heven : j % 2 = 0 := by
    have := congrArg BitVec.toNat hpower
    rw [BitVec.toNat_ofNat] at this
    change j % 2 ^ 32 = 64 at this
    omega
  have hsquare : base.toNat ^ j % 4 = 0 ∨ base.toNat ^ j % 4 = 1 := by
    rw [← Nat.div_add_mod j 2, heven, Nat.add_zero, Nat.pow_mul', Nat.pow_two, Nat.mul_mod]
    obtain h | h | h | h : base.toNat ^ (j / 2) % 4 = 0 ∨ base.toNat ^ (j / 2) % 4 = 1 ∨
        base.toNat ^ (j / 2) % 4 = 2 ∨ base.toNat ^ (j / 2) % 4 = 3 := by omega
    all_goals
      rw [h]
      decide
  have hmax := congrArg BitVec.toNat hbytes
  rw [BitVec.toNat_ofNat] at hmax
  change base.toNat ^ j % 2 ^ 64 = 2 ^ 64 - 1 at hmax
  omega

/-- **When `NearestPowerOf` is exact.**  For every base from two on and every value it ends with the least power that
is not below the value, or with the largest numbers if there is none, if and only if the early return is taken exactly
when there is none. -/
theorem nearestPowerOf_exact_iff (base : BitVec 32) (value : BitVec 64) (hbase : 2 ≤ base.toNat) :
    (∃ r, nearestPowerOf base value = some r ∧ NearestPower base value r) ↔
      (Overflows base value ↔ ∀ k, ¬IsPower base value k) := by
  constructor
  · rintro ⟨r, hr, hnearest⟩
    rcases nearestPowerOf_eq_some_iff.mp hr with ⟨hover, rfl⟩ | ⟨hnot, j, -, -, rfl⟩
    · refine iff_of_true hover ?_
      rcases hnearest with ⟨k, -, heq⟩ | ⟨hnone, -⟩
      · exact absurd heq.symm (powerPair_ne k)
      · exact hnone
    · refine iff_of_false hnot fun hnone => ?_
      rcases hnearest with ⟨k, hk, -⟩ | ⟨-, heq⟩
      · exact hnone k hk.1
      · exact powerPair_ne j heq
  · intro h
    by_cases hover : Overflows base value
    · exact ⟨_, nearestPowerOf_eq_some_iff.mpr (Or.inl ⟨hover, rfl⟩), Or.inr ⟨h.mp hover, rfl⟩⟩
    · obtain ⟨k, hk⟩ := not_forall.mp (mt h.mpr hover)
      obtain ⟨least, hleast⟩ := exists_isLeast (not_not.mp hk)
      have hlt := hleast.1.lt hbase
      exact ⟨_, nearestPowerOf_eq_some_iff.mpr (Or.inr ⟨hover, least, hlt.trans (by decide),
        stopsAt_of_isLeast hbase hleast, rfl⟩), Or.inl ⟨least, hleast, rfl⟩⟩

/-- 100 bytes, with the base 8 that is the default. -/
theorem nearestPowerOf_exact_hundred : ∃ r, nearestPowerOf 8 100 = some r ∧ NearestPower 8 100 r := by
  refine (nearestPowerOf_exact_iff 8 100 (by decide)).mpr (iff_of_false ?_ fun h => h 3 ⟨by decide, by decide⟩)
  rw [Overflows]
  decide

/-- Half of all bytes, and some more. -/
def largeValue : BitVec 64 := 10952754293765046272

/-- No power of 8 is larger than half of all bytes, and the later ones are zero: the loop never ends. -/
theorem not_nearestPowerOf_exact : ¬∀ (base : BitVec 32) (value : BitVec 64), 2 ≤ base.toNat →
    ∃ r, nearestPowerOf base value = some r ∧ NearestPower base value r := by
  intro h
  obtain ⟨r, hr, -⟩ := h 8 largeValue (by decide)
  rcases nearestPowerOf_eq_some_iff.mp hr with ⟨hover, -⟩ | ⟨-, j, -, hstop, -⟩
  · rw [Overflows] at hover
    revert hover
    decide
  · have hreached := hstop.reached
    rcases Nat.lt_or_ge j 22 with hlt | hge
    · have hle : (8 : BitVec 32).toNat ^ j % 2 ^ 64 ≤ 8 ^ 21 :=
        (Nat.mod_le _ _).trans (Nat.pow_le_pow_right (by decide) (Nat.le_of_lt_succ hlt))
      exact absurd (hreached.trans hle) (by decide)
    · obtain ⟨d, rfl⟩ := Nat.exists_eq_add_of_le hge
      have hzero : (8 : BitVec 32).toNat ^ (22 + d) % 2 ^ 64 = 0 := by
        refine Nat.mod_eq_zero_of_dvd ?_
        rw [show (8 : BitVec 32).toNat = 2 ^ 3 from rfl, ← Nat.pow_mul]
        exact Nat.pow_dvd_pow 2 (by omega)
      rw [hzero] at hreached
      revert hreached
      decide

end Cccl.CachingAllocator
