/-
# Integer powers

`ipow` reads the exponent digit by digit, and with a base that is a power of two it shifts.  What it returns is the
power, cut to the type, under two conditions (`ipow_eq_iff`).

A shift is compared with the number of leading zeros of the base.  Where it is just as many, the highest bit of the
power is the only one, and it is lost.  The shift is counted in `int`, as is the exponent before it.  And where a type
of 16 bits is promoted to `int`, a product of two of its numbers need not be a number of `int`.
-/
import Cccl.Cmath.Checked
import Cccl.Cmath.Ilog
import Mathlib.Algebra.Ring.Divisibility.Basic
import Mathlib.Data.Int.ModEq

namespace Cccl.Cmath

open IntegerTypes

/-! ## 1. The code -/

section

variable (m : DataModel) (T U E : IntegerType)

/-- The product of an unsigned type exists.  Narrow types are promoted, and `int` has no other numbers. -/
def Fits (n : ℕ) : Prop := U.promoted.signed = true → n ≤ U.promoted.max m

instance (n : ℕ) : Decidable (Fits m U n) := inferInstanceAs (Decidable (_ → _))

/-- `*` of an unsigned type; `none` where the behaviour is undefined. -/
def product (x y : ℕ) : Option ℕ := if Fits m U (x * y) then some (x * y % 2 ^ U.bits m) else none

def intType : IntegerType := ⟨.int, true⟩

/-- `__cccl_ipow_impl_base_pow2`. -/
def ipowImplBasePow2 (b e : ℕ) : Option ℕ :=
  let shift := intType.staticCast m ((arithmeticType m E intType).staticCast m ((e : ℤ) - 1)) * ilog2 b
  -- `countl_zero`
  let lz := U.bits m - bitWidth b
  if intType.Has m shift then
    if lz ≤ shift then some 0
    -- a shift by a negative number
    else if shift < 0 then none
    else some (b * 2 ^ shift.toNat % 2 ^ U.bits m)
  else none

/-- The loop of `__cccl_ipow_impl`, and the product after it. -/
def ipowLoop (x y e : ℕ) : Option ℕ :=
  if e ≤ 1 then product m U x y
  else if e % 2 = 1 then
    (product m U y x).bind fun y => (product m U x x).bind fun x => ipowLoop x y ((e - 1) / 2)
  else (product m U x x).bind fun x => ipowLoop x y (e / 2)
termination_by e
decreasing_by all_goals omega

/-- `__cccl_ipow_impl`. -/
def ipowImpl (b e : ℕ) : Option ℕ :=
  if isPowerOfTwo b then ipowImplBasePow2 m U E b e else ipowLoop m U b 1 e

def ipow (b e : ℤ) : Option ℤ :=
  if e = 0 ∨ b = 1 then some 1
  else if e < 0 ∨ b = 0 then some 0
  else
    (ipowImpl m T.makeUnsigned E.makeUnsigned (uabs m T b).toNat (E.makeUnsigned.staticCast m e).toNat).map fun (res : ℕ) =>
      T.staticCast m (if T.signed ∧ b < 0 ∧ e % 2 = 1 then neg m T.makeUnsigned res else res)

/-! ## 2. The conditions -/

/-- The shift by so many bits for each factor is computed as it should be. -/
def ShiftFits (k e : ℕ) : Prop :=
  let count := intType.staticCast m ((e : ℤ) - 1)
  k = 0 ∨ (0 ≤ count ∧ count * k < 2 ^ 31 ∧
    -- the highest bit is lost, and an exponent that has been cut must be large all the same
    if count = e - 1 then k * e + 1 ≠ U.bits m else (U.bits m : ℤ) ≤ k * (count + 1) + 1)

/-- The products of one digit of the exponent exist: the square, if there are higher digits, and what the digits
below make, if the digit is one. -/
def DigitFits (x y e i : ℕ) : Prop :=
  (2 ^ (i + 1) ≤ e → Fits m U (x ^ 2 ^ i % 2 ^ U.bits m * (x ^ 2 ^ i % 2 ^ U.bits m))) ∧
    (e / 2 ^ i % 2 = 1 → Fits m U (y * x ^ (e % 2 ^ i) % 2 ^ U.bits m * (x ^ 2 ^ i % 2 ^ U.bits m)))

/-- When `ipow` is right. -/
def IpowFits (b : ℤ) (e : ℕ) : Prop :=
  e = 0 ∨ b = 0 ∨ if isPowerOfTwo b.natAbs then ShiftFits m U (ilog2 b.natAbs) e
    else ∀ i, DigitFits m U b.natAbs 1 e i

end

variable {m : DataModel} {T U E : IntegerType} {x y e r : ℕ}

/-! ## 3. Square and multiply -/

theorem product_eq_some_iff : product m U x y = some r ↔ Fits m U (x * y) ∧ x * y % 2 ^ U.bits m = r := by
  rw [product]
  split
  · rename_i h
    rw [Option.some.injEq]
    exact ⟨fun heq => ⟨h, heq⟩, And.right⟩
  · rename_i h
    exact ⟨fun heq => absurd heq (by simp), fun heq => absurd heq.1 h⟩

theorem digitFits_zero (hx : x < 2 ^ U.bits m) (hy : y < 2 ^ U.bits m) : DigitFits m U x y e 0 ↔
    (2 ≤ e → Fits m U (x * x)) ∧ (e % 2 = 1 → Fits m U (y * x)) := by
  rw [DigitFits, Nat.zero_add, Nat.pow_zero, Nat.pow_one, Nat.pow_one, Nat.div_one, Nat.mod_one, Nat.pow_zero,
    Nat.mul_one, Nat.mod_eq_of_lt hx, Nat.mod_eq_of_lt hy]

/-- A higher digit is one of the exponent without the lowest one. -/
theorem digitFits_succ (i : ℕ) : DigitFits m U x y e (i + 1) ↔
    DigitFits m U (x * x % 2 ^ U.bits m) (if e % 2 = 1 then y * x % 2 ^ U.bits m else y) (e / 2) i := by
  have hsquare : x ^ 2 ^ (i + 1) % 2 ^ U.bits m = (x * x % 2 ^ U.bits m) ^ 2 ^ i % 2 ^ U.bits m := by
    rw [← Nat.pow_mod, Nat.pow_succ, Nat.mul_comm (2 ^ i), Nat.pow_mul, Nat.pow_two]
  have hlower : e % 2 ^ (i + 1) = e % 2 + 2 * (e / 2 % 2 ^ i) := by
    rw [Nat.pow_succ, Nat.mul_comm (2 ^ i), Nat.mod_mul]
  have hpower : y * x ^ (e % 2 ^ (i + 1)) % 2 ^ U.bits m = (if e % 2 = 1 then y * x % 2 ^ U.bits m else y) *
      (x * x % 2 ^ U.bits m) ^ (e / 2 % 2 ^ i) % 2 ^ U.bits m := by
    rw [hlower, Nat.pow_add, Nat.pow_mul, Nat.pow_two, Nat.mul_mod _ ((x * x % _) ^ _), ← Nat.pow_mod]
    rcases Nat.mod_two_eq_zero_or_one e with h | h
    · rw [h, if_neg (by decide), Nat.pow_zero, Nat.one_mul, ← Nat.mul_mod]
    · rw [h, if_pos rfl, Nat.pow_one, Nat.mod_mod, ← Nat.mul_mod, Nat.mul_assoc]
  have hhigh : 2 ^ (i + 1 + 1) ≤ e ↔ 2 ^ (i + 1) ≤ e / 2 := by
    rw [Nat.le_div_iff_mul_le (by decide), ← Nat.pow_succ]
  have hdigit : e / 2 ^ (i + 1) = e / 2 / 2 ^ i := by
    rw [Nat.div_div_eq_div_mul, Nat.pow_succ, Nat.mul_comm 2]
  rw [DigitFits, DigitFits, hsquare, hpower, hhigh, hdigit]

/-- **The loop computes the power**, as long as the products of each digit exist. -/
theorem ipowLoop_eq_some_iff : ∀ {e x y : ℕ}, 0 < e → x < 2 ^ U.bits m → y < 2 ^ U.bits m →
    (ipowLoop m U x y e = some r ↔ (∀ i, DigitFits m U x y e i) ∧ x ^ e * y % 2 ^ U.bits m = r) := by
  intro e
  induction e using Nat.strong_induction_on with
  | _ e ih =>
    intro x y he hx hy
    have hall : (∀ i, DigitFits m U x y e i) ↔ ((2 ≤ e → Fits m U (x * x)) ∧ (e % 2 = 1 → Fits m U (y * x))) ∧
        ∀ i, DigitFits m U (x * x % 2 ^ U.bits m) (if e % 2 = 1 then y * x % 2 ^ U.bits m else y) (e / 2) i := by
      rw [← digitFits_zero hx hy]
      refine ⟨fun h => ⟨h 0, fun i => (digitFits_succ i).mp (h (i + 1))⟩, fun h i => ?_⟩
      cases i with
      | zero => exact h.1
      | succ i => exact (digitFits_succ i).mpr (h.2 i)
    have hlt : ∀ n, n % 2 ^ U.bits m < 2 ^ U.bits m := fun n => Nat.mod_lt _ (Nat.two_pow_pos _)
    rw [ipowLoop]
    split
    · rename_i hsmall
      obtain rfl : e = 1 := by omega
      have hnone : ∀ i, DigitFits m U (x * x % 2 ^ U.bits m)
          (if 1 % 2 = 1 then y * x % 2 ^ U.bits m else y) (1 / 2) i := by
        refine fun i => ⟨fun h => absurd h (Nat.not_le.mpr (Nat.two_pow_pos _)), fun h => absurd h ?_⟩
        rw [Nat.zero_div]
        decide
      rw [product_eq_some_iff, hall, Nat.pow_one]
      refine ⟨fun h => ⟨⟨⟨fun h2 => absurd h2 (by decide), fun _ => ?_⟩, hnone⟩, h.2⟩, fun h => ⟨?_, h.2⟩⟩
      · rw [Nat.mul_comm]
        exact h.1
      · rw [Nat.mul_comm]
        exact h.1.1.2 rfl
    · rename_i hlarge
      have hmore : 2 ≤ e := by omega
      rw [hall]
      rcases Nat.mod_two_eq_zero_or_one e with heven | hodd
      · have hpower : x ^ e * y % 2 ^ U.bits m = (x * x % 2 ^ U.bits m) ^ (e / 2) * y % 2 ^ U.bits m := by
          rw [Nat.mul_mod ((x * x % _) ^ _), ← Nat.pow_mod, ← Nat.mul_mod, ← Nat.pow_two, ← Nat.pow_mul]
          congr 3
          omega
        rw [heven, if_neg (by decide), if_neg (by decide), Option.bind_eq_some_iff, hpower]
        constructor
        · rintro ⟨x', hx', hloop⟩
          obtain ⟨hfits, rfl⟩ := product_eq_some_iff.mp hx'
          obtain ⟨hrest, hr⟩ := (ih (e / 2) (by omega) (by omega) (hlt _) hy).mp hloop
          exact ⟨⟨⟨fun _ => hfits, fun h => absurd h (by decide)⟩, hrest⟩, hr⟩
        · rintro ⟨⟨⟨hfits, -⟩, hrest⟩, hr⟩
          exact ⟨_, product_eq_some_iff.mpr ⟨hfits hmore, rfl⟩,
            (ih (e / 2) (by omega) (by omega) (hlt _) hy).mpr ⟨hrest, hr⟩⟩
      · have hhalf : (e - 1) / 2 = e / 2 := by omega
        have hpower : x ^ e * y % 2 ^ U.bits m =
            (x * x % 2 ^ U.bits m) ^ (e / 2) * (y * x % 2 ^ U.bits m) % 2 ^ U.bits m := by
          rw [Nat.mul_mod ((x * x % _) ^ _), ← Nat.pow_mod, Nat.mod_mod, ← Nat.mul_mod, ← Nat.pow_two, ← Nat.pow_mul,
            Nat.mul_comm y, ← Nat.mul_assoc, ← Nat.pow_succ]
          congr 3
          omega
        rw [hodd, if_pos rfl, if_pos rfl, Option.bind_eq_some_iff, hpower, hhalf]
        constructor
        · rintro ⟨y', hy', hloop⟩
          obtain ⟨hfits, rfl⟩ := product_eq_some_iff.mp hy'
          obtain ⟨x', hx', hloop⟩ := Option.bind_eq_some_iff.mp hloop
          obtain ⟨hfits', rfl⟩ := product_eq_some_iff.mp hx'
          obtain ⟨hrest, hr⟩ := (ih (e / 2) (by omega) (by omega) (hlt _) (hlt _)).mp hloop
          exact ⟨⟨⟨fun _ => hfits', fun _ => hfits⟩, hrest⟩, hr⟩
        · rintro ⟨⟨⟨hfits', hfits⟩, hrest⟩, hr⟩
          exact ⟨_, product_eq_some_iff.mpr ⟨hfits rfl, rfl⟩, Option.bind_eq_some_iff.mpr
            ⟨_, product_eq_some_iff.mpr ⟨hfits' hmore, rfl⟩,
              (ih (e / 2) (by omega) (by omega) (hlt _) (hlt _)).mpr ⟨hrest, hr⟩⟩⟩

theorem digitFits_of_bits_ne (hunsigned : U.signed = false) (hbits : U.bits m ≠ 16) (i : ℕ) :
    DigitFits m U x y e i := by
  have hfits : ∀ {a b : ℕ}, a < 2 ^ U.bits m → b < 2 ^ U.bits m → Fits m U (a * b) := by
    intro a b ha hb hpromoted
    have hlt := Nat.mul_lt_mul'' ha hb
    obtain ⟨rank, signed⟩ := U
    obtain rfl : signed = false := hunsigned
    cases rank with
    | char =>
      have hmax : IntegerType.max m (IntegerType.promoted ⟨.char, false⟩) = 2 ^ 31 - 1 := by cases m <;> rfl
      rw [hmax]
      exact hlt.le.trans (by cases m <;> decide)
    | short => exact absurd (by cases m <;> rfl) hbits
    | int => cases hpromoted
    | long => cases hpromoted
    | longLong => cases hpromoted
    | int128 => cases hpromoted
  have hlt : ∀ n, n % 2 ^ U.bits m < 2 ^ U.bits m := fun n => Nat.mod_lt _ (Nat.two_pow_pos _)
  exact ⟨fun _ => hfits (hlt _) (hlt _), fun _ => hfits (hlt _) (hlt _)⟩

/-! ## 4. Shifts -/

theorem two_pow_mod (n bits : ℕ) : 2 ^ n % 2 ^ bits = if n < bits then 2 ^ n else 0 := by
  split
  · rename_i h
    exact Nat.mod_eq_of_lt (Nat.pow_lt_pow_right (by decide) h)
  · rename_i h
    exact Nat.mod_eq_zero_of_dvd (Nat.pow_dvd_pow 2 (Nat.not_lt.mp h))

theorem has_intType {v : ℤ} : intType.Has m v ↔ -2 ^ 31 ≤ v ∧ v < 2 ^ 31 := by
  have hmin : intType.min m = -2 ^ 31 := by cases m <;> rfl
  have hmax : (intType.max m : ℤ) = 2 ^ 31 - 1 := by cases m <;> rfl
  rw [IntegerType.Has, hmin, hmax]
  omega

theorem bits_inside : 8 ≤ U.bits m ∧ U.bits m ≤ 128 := by
  change 8 ≤ U.rank.bits m ∧ U.rank.bits m ≤ 128
  cases m <;> cases U.rank <;> decide

/-- The exponent less one is a number of the type in which it is computed. -/
theorem staticCast_pred (he : E.Has m e) (hpos : 0 < e) :
    (arithmeticType m E intType).staticCast m ((e : ℤ) - 1) = (e - 1 : ℕ) := by
  rw [← Int.natCast_pred_of_pos hpos]
  refine IntegerType.staticCast_of_has (IntegerType.has_of_le ?_)
  have hle : e ≤ E.max m := by exact_mod_cast he.2
  exact (Nat.sub_le _ _).trans (hle.trans max_le_arithmeticType.1)

/-- **A power of two is shifted to the power**, exactly when the shift fits. -/
theorem ipowImplBasePow2_eq_some_iff {k : ℕ} (hk : k < U.bits m) (he : E.Has m e) (hpos : 0 < e) :
    ipowImplBasePow2 m U E (2 ^ k) e = some ((2 ^ k) ^ e % 2 ^ U.bits m) ↔ ShiftFits m U k e := by
  obtain ⟨hbits, hbits'⟩ := bits_inside (m := m) (U := U)
  have hwidth : U.bits m - bitWidth (2 ^ k) = U.bits m - (k + 1) := by
    rw [bitWidth, if_neg (Nat.two_pow_pos k).ne', Nat.log2_two_pow]
  rw [ipowImplBasePow2, ShiftFits, staticCast_pred he hpos, hwidth, ilog2, Nat.log2_two_pow, ← Nat.pow_mul,
    two_pow_mod, ← Int.natCast_pred_of_pos hpos]
  clear hwidth
  -- an exponent is cut only if it is large
  have hcut : intType.staticCast m ((e - 1 : ℕ) : ℤ) ≠ (e - 1 : ℕ) → 2 ^ 31 ≤ e - 1 := by
    intro hne
    by_contra hless
    refine hne (IntegerType.staticCast_of_has (has_intType.mpr ⟨by omega, ?_⟩))
    exact_mod_cast Nat.not_le.mp hless
  generalize intType.staticCast m ((e - 1 : ℕ) : ℤ) = c at hcut ⊢
  rcases Nat.eq_zero_or_pos k with rfl | hkpos
  · rw [Nat.cast_zero, mul_zero, Nat.zero_mul, if_pos (has_intType.mpr (by decide)), if_neg (by omega),
      if_neg (by decide), if_pos hk]
    refine iff_of_true ?_ (Or.inl rfl)
    rw [Int.toNat_zero, Nat.pow_zero, Nat.one_mul, Nat.mod_eq_of_lt (Nat.one_lt_two_pow hk.ne')]
  rw [or_iff_right hkpos.ne']
  rcases lt_or_ge c 0 with hneg | hge
  · have hshift : c * k < 0 := mul_neg_of_neg_of_pos hneg (by exact_mod_cast hkpos)
    refine iff_of_false ?_ fun h => absurd h.1 (Int.not_le.mpr hneg)
    have hnot : ¬ ((U.bits m - (k + 1) : ℕ) : ℤ) ≤ c * k := by omega
    rw [if_neg hnot, if_pos hshift, ite_self]
    simp
  obtain ⟨c, rfl⟩ := Int.eq_ofNat_of_zero_le hge
  have hshift : (c : ℤ) * k = (c * k : ℕ) := (Int.natCast_mul c k).symm
  have hsum : k * (c + 1) = c * k + k := by ring
  rw [hshift, and_iff_right hge]
  rcases Nat.lt_or_ge (c * k) (2 ^ 31) with hsmall | hlarge
  swap
  · refine iff_of_false ?_ fun h => absurd h.1 (by exact_mod_cast Nat.not_lt.mpr hlarge)
    rw [if_neg fun h => absurd (has_intType.mp h).2 (by exact_mod_cast Nat.not_lt.mpr hlarge)]
    simp
  have hvalue : (if ((U.bits m - (k + 1) : ℕ) : ℤ) ≤ (c * k : ℕ) then some 0
      else if ((c * k : ℕ) : ℤ) < 0 then none else some (2 ^ k * 2 ^ ((c * k : ℕ) : ℤ).toNat % 2 ^ U.bits m)) =
        some (if U.bits m ≤ c * k + k + 1 then 0 else 2 ^ (c * k + k)) := by
    split
    · rw [if_pos (by omega)]
    · rw [if_neg (by omega), if_neg (by omega), Int.toNat_natCast, ← Nat.pow_add,
        Nat.mod_eq_of_lt (Nat.pow_lt_pow_right (by decide) (by omega)), Nat.add_comm]
  rw [if_pos (has_intType.mpr ⟨by omega, by exact_mod_cast hsmall⟩), hvalue, Option.some.injEq,
    and_iff_right (by exact_mod_cast hsmall)]
  by_cases hexact : c = e - 1
  · -- the exponent has not been cut
    have he' : k * e = c * k + k := by rw [← hsum, hexact, Nat.sub_add_cancel hpos]
    rw [if_pos (c := ((c : ℤ) = _)) (by exact_mod_cast hexact), he']
    split
    · split
      · exact iff_of_false (Nat.two_pow_pos _).ne (by omega)
      · exact iff_of_true rfl (by omega)
    · rw [if_pos (by omega)]
      exact iff_of_true rfl (by omega)
  · -- the exponent has been cut, and the power is zero
    have hmore := hcut (by exact_mod_cast hexact)
    have hzero : ¬ k * e < U.bits m := by
      have := Nat.le_mul_of_pos_left e hkpos
      omega
    have hcast : (k : ℤ) * (c + 1) + 1 = (c * k + k + 1 : ℕ) := by rw [← hsum]; push_cast; rfl
    rw [if_neg (c := ((c : ℤ) = _)) (by exact_mod_cast hexact), if_neg hzero, hcast]
    split
    · exact iff_of_true rfl (by omega)
    · exact iff_of_false (Nat.two_pow_pos _).ne' (by omega)

/-! ## 5. The result -/

theorem staticCast_eq_iff {v w : ℤ} : T.staticCast m v = T.staticCast m w ↔ (2 ^ T.bits m : ℤ) ∣ v - w := by
  have hv := IntegerType.dvd_staticCast_sub (m := m) (T := T) v
  have hw := IntegerType.dvd_staticCast_sub (m := m) (T := T) w
  constructor
  · intro h
    have hdiff := Int.dvd_sub hw hv
    rwa [h, sub_sub_sub_cancel_left] at hdiff
  · intro h
    refine IntegerType.staticCast_eq (IntegerType.has_staticCast w) ?_
    have hdiff := Int.dvd_sub h hw
    rwa [sub_sub_eq_add_sub, sub_add_cancel] at hdiff

theorem staticCast_signed_iff {p : Prop} [Decidable p] {n : ℕ} :
    T.staticCast m (if p then neg m T.makeUnsigned r else r) = T.staticCast m (if p then -n else n) ↔
      r % 2 ^ T.bits m = n % 2 ^ T.bits m := by
  have hmod : r % 2 ^ T.bits m = n % 2 ^ T.bits m ↔ (2 ^ T.bits m : ℤ) ∣ (r : ℤ) - n := by
    rw [← Nat.cast_ofNat (R := ℤ), ← Nat.cast_pow, ← Nat.modEq_iff_dvd]
    exact eq_comm
  rw [staticCast_eq_iff, hmod]
  split
  · have hneg := dvd_neg_add (m := m) (T := T.makeUnsigned) r
    rw [IntegerType.bits_makeUnsigned] at hneg
    have hsplit : neg m T.makeUnsigned r - -(n : ℤ) = neg m T.makeUnsigned r + r - (r - n) := by ring
    rw [hsplit]
    exact dvd_sub_right hneg
  · rfl

theorem pow_eq_natAbs {b : ℤ} (hb : T.Has m b) : b ^ e =
    if T.signed ∧ b < 0 ∧ (e : ℤ) % 2 = 1 then -((b.natAbs ^ e : ℕ) : ℤ) else (b.natAbs ^ e : ℕ) := by
  rw [Nat.cast_pow]
  rcases lt_or_ge b 0 with hneg | hge
  · have hsigned : T.signed = true := by
      by_contra hunsigned
      have hmin := hb.1
      rw [IntegerType.min, if_neg hunsigned] at hmin
      omega
    rw [Int.ofNat_natAbs_of_nonpos hneg.le]
    rcases Nat.even_or_odd e with heven | hodd
    · rw [heven.neg_pow, if_neg]
      have := Nat.even_iff.mp heven
      omega
    · rw [hodd.neg_pow, if_pos ⟨hsigned, hneg, by have := Nat.odd_iff.mp hodd; omega⟩, neg_neg]
  · rw [if_neg fun h => absurd h.2.1 (Int.not_lt.mpr hge), Int.natAbs_of_nonneg hge]

theorem ipowImpl_lt {b : ℕ} (hb : b < 2 ^ U.bits m) (hpos : 0 < e) (h : ipowImpl m U E b e = some r) :
    r < 2 ^ U.bits m := by
  have hpow := Nat.two_pow_pos (U.bits m)
  rw [ipowImpl] at h
  split at h
  · rw [ipowImplBasePow2] at h
    split at h
    · split at h
      · exact Option.some.inj h ▸ hpow
      · split at h
        · cases h
        · exact Option.some.inj h ▸ Nat.mod_lt _ hpow
    · cases h
  · have hone : 1 < 2 ^ U.bits m := Nat.one_lt_two_pow IntegerType.bits_pos.ne'
    exact ((ipowLoop_eq_some_iff hpos hb hone).mp h).2 ▸ Nat.mod_lt _ hpow

theorem ipowImpl_eq_some_iff {b : ℕ} (hb : b < 2 ^ U.bits m) (he : E.Has m e) (hpos : 0 < e) :
    ipowImpl m U E b e = some (b ^ e % 2 ^ U.bits m) ↔
      if isPowerOfTwo b then ShiftFits m U (ilog2 b) e else ∀ i, DigitFits m U b 1 e i := by
  rw [ipowImpl]
  split
  · rename_i hpow
    obtain ⟨k, rfl⟩ := isPowerOfTwo_iff.mp hpow
    rw [ilog2, Nat.log2_two_pow]
    exact ipowImplBasePow2_eq_some_iff ((Nat.pow_lt_pow_iff_right (by decide)).mp hb) he hpos
  · have hone : 1 < 2 ^ U.bits m := Nat.one_lt_two_pow IntegerType.bits_pos.ne'
    rw [ipowLoop_eq_some_iff hpos hb hone, Nat.mul_one, and_iff_left rfl]

theorem staticCast_small {n : ℕ} (h : n ≤ 1) : T.staticCast m n = n := by
  refine IntegerType.staticCast_of_has (IntegerType.has_natCast_iff.mpr ?_)
  have hbits := (bits_inside (m := m) (U := T)).1
  have hdigits : 1 ≤ T.digits m := by
    rw [IntegerType.digits]
    have := Bool.toNat_le T.signed
    omega
  exact h.trans_lt ((by decide : 1 < 2 ^ 1).trans_le (Nat.pow_le_pow_right (by decide) hdigits))

/-- **When `ipow` is right.**  For every integer type of the base and of the exponent, every base, and every exponent
that is not negative, the result is the power, cut to the type, if and only if the shift or the products fit. -/
theorem ipow_eq_iff (m : DataModel) (T E : IntegerType) (b : ℤ) (e : ℕ) (hb : T.Has m b) (he : E.Has m e) :
    ipow m T E b e = some (T.staticCast m (b ^ e)) ↔ IpowFits m T.makeUnsigned b e := by
  have hone : T.staticCast m 1 = 1 := staticCast_small (n := 1) le_rfl
  have hzero : T.staticCast m 0 = 0 := staticCast_small (n := 0) (by decide)
  rw [ipow, IpowFits]
  rcases Nat.eq_zero_or_pos e with rfl | hpos
  · rw [if_pos (Or.inl Nat.cast_zero), pow_zero, hone]
    exact iff_of_true rfl (Or.inl rfl)
  by_cases hb1 : b = 1
  · subst hb1
    rw [if_pos (Or.inr rfl), one_pow, hone]
    exact iff_of_true rfl (Or.inr (Or.inr (by rw [if_pos (by decide)]; exact Or.inl (by decide))))
  by_cases hb0 : b = 0
  · subst hb0
    rw [if_neg (by omega), if_pos (Or.inr rfl), zero_pow hpos.ne', hzero]
    exact iff_of_true rfl (Or.inr (Or.inl rfl))
  have habs : b.natAbs < 2 ^ T.makeUnsigned.bits m := by
    have hle := hb.natAbs_le
    rw [IntegerType.max_makeUnsigned] at hle
    exact Nat.lt_of_le_pred (Nat.two_pow_pos _) hle
  have he' : E.makeUnsigned.Has m e := IntegerType.has_of_le he.natAbs_le
  rw [if_neg (by omega), if_neg (by omega), or_iff_right hpos.ne', or_iff_right hb0, ← ipowImpl_eq_some_iff habs he' hpos,
    uabs_eq hb, IntegerType.staticCast_of_has he', Int.toNat_natCast, Int.toNat_natCast, Option.map_eq_some_iff,
    pow_eq_natAbs hb]
  constructor
  · rintro ⟨res, hres, heq⟩
    have hlt := ipowImpl_lt habs hpos hres
    have hmod := staticCast_signed_iff.mp heq
    rw [← IntegerType.bits_makeUnsigned, Nat.mod_eq_of_lt hlt] at hmod
    rw [hres, hmod]
  · intro h
    exact ⟨_, h, staticCast_signed_iff.mpr (Nat.mod_mod _ _)⟩

/-- Three to the fifth power in 8 bits. -/
theorem ipow_eq_iff_three : ipow .lp64 ⟨.char, false⟩ ⟨.int, true⟩ 3 5 =
    some (IntegerType.staticCast .lp64 ⟨.char, false⟩ (3 ^ 5)) ∧ IpowFits .lp64 ⟨.char, false⟩ 3 5 := by
  have hfits : IpowFits .lp64 ⟨.char, false⟩ 3 5 := by
    refine Or.inr (Or.inr ?_)
    rw [if_neg (by decide)]
    exact digitFits_of_bits_ne rfl (by decide)
  exact ⟨(ipow_eq_iff .lp64 ⟨.char, false⟩ ⟨.int, true⟩ 3 5 (by decide) (by decide)).mpr hfits, hfits⟩

/-- The highest bit is lost. -/
theorem ipow_two_31 : ¬∀ (m : DataModel) (T E : IntegerType) (b : ℤ) (e : ℕ), T.Has m b → E.Has m e →
    ipow m T E b e = some (T.staticCast m (b ^ e)) := by
  intro h
  have hpow := h .lp64 ⟨.int, false⟩ ⟨.int, true⟩ 2 31 (by decide) (by decide)
  revert hpow
  decide

end Cccl.Cmath
