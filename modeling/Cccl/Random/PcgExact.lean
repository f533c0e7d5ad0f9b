/-
# The fallback of `pcg64`, and its jumps

For the sums and products the limbs are taken as numbers: the sum of the lower limbs is smaller than one of
them if there was a carry, and the higher half of a product comes from `mul_hi` (`value_add`, `value_mul`).
The other operations move or join bits, and are compared bit by bit.

A jump over `z` steps is the power of one step, computed by square and multiply over affine maps
(`powerMod_spec`).
-/
import Cccl.Random.Pcg

namespace Cccl.Random

open Cmath SquareMultiply

/-! ## 1. The operations of the fallback -/

namespace Fallback

theorem toNat_value (a : Fallback) : a.value.toNat = 2 ^ 64 * a.hi.toNat + a.lo.toNat := by
  rw [value, BitVec.toNat_append, ← Nat.shiftLeft_add_eq_or_of_lt a.lo.isLt, Nat.shiftLeft_eq,
    Nat.mul_comm]

theorem value_injective {a b : Fallback} (h : a.value = b.value) : a = b := by
  have hnat := congrArg BitVec.toNat h
  rw [toNat_value, toNat_value] at hnat
  have ha := a.lo.isLt
  have hb := b.lo.isLt
  have hhi : a.hi = b.hi := BitVec.eq_of_toNat_eq (by omega)
  have hlo : a.lo = b.lo := BitVec.eq_of_toNat_eq (by omega)
  cases a
  cases b
  exact Fallback.mk.injEq .. |>.mpr ⟨hhi, hlo⟩

theorem value_ofWord (v : BitVec 64) : value ⟨0, v⟩ = v.setWidth 128 := by
  refine BitVec.eq_of_toNat_eq ?_
  have hv := v.isLt
  rw [toNat_value, BitVec.toNat_setWidth, Nat.mod_eq_of_lt (by omega)]
  simp

theorem setWidth_value (a : Fallback) {w : ℕ} (hw : w ≤ 64) : a.value.setWidth w = a.lo.setWidth w := by
  refine BitVec.eq_of_toNat_eq ?_
  rw [BitVec.toNat_setWidth, BitVec.toNat_setWidth, toNat_value]
  obtain ⟨k, hk⟩ : 2 ^ w ∣ 2 ^ 64 := Nat.pow_dvd_pow 2 hw
  rw [hk, Nat.mul_assoc, Nat.mul_add_mod]

theorem value_or (a : Fallback) (rhs : BitVec 64) : (a.or rhs).value = a.value ||| rhs.setWidth 128 := by
  have hhi : a.hi ||| 0 = a.hi := BitVec.or_zero
  rw [← value_ofWord, value, value, value, BitVec.or_append, hhi, or]

theorem value_xor (a rhs : Fallback) : (a.xor rhs).value = a.value ^^^ rhs.value := by
  rw [value, value, value, BitVec.xor_append, xor]

theorem getLsbD_value (a : Fallback) (i : ℕ) :
    a.value.getLsbD i = if i < 64 then a.lo.getLsbD i else a.hi.getLsbD (i - 64) := by
  rw [value, BitVec.getLsbD_append]

theorem value_shiftLeft (a : Fallback) (shift : ℕ) : (a.shiftLeft shift).value = a.value <<< shift := by
  refine BitVec.eq_of_getLsbD_eq fun i hi => ?_
  have hlimb : 64 ≤ shift → i - shift < 64 := by omega
  have hback : 64 ≤ shift → i - 64 - (shift - 64) = i - shift := by omega
  rw [getLsbD_value, BitVec.getLsbD_shiftLeft, getLsbD_value]
  unfold shiftLeft
  -- by the limb that the shifted bits come from
  split_ifs
  any_goals grind
  rw [BitVec.getLsbD_shiftLeft, hback ‹_›]
  grind

theorem value_shiftRight (a : Fallback) (shift : ℕ) :
    (a.shiftRight shift).value = a.value >>> shift := by
  refine BitVec.eq_of_getLsbD_eq fun i hi => ?_
  rw [getLsbD_value, BitVec.getLsbD_ushiftRight, getLsbD_value]
  unfold shiftRight
  split_ifs
  all_goals grind

theorem value_add (a rhs : Fallback) : (a.add rhs).value = a.value + rhs.value := by
  refine BitVec.eq_of_toNat_eq ?_
  have ha := a.lo.isLt
  have hrhs := rhs.lo.isLt
  rw [BitVec.toNat_add, toNat_value, toNat_value, toNat_value]
  dsimp only [add]
  split
  all_goals
    rename_i hcarry
    rw [BitVec.lt_def, BitVec.toNat_add] at hcarry
    simp only [BitVec.toNat_add, BitVec.toNat_ofNat]
    omega

theorem value_mul (a rhs : Fallback) : (a.mul rhs).value = a.value * rhs.value := by
  refine BitVec.eq_of_toNat_eq ?_
  obtain ⟨x, hx⟩ : ∃ x, a.lo.toNat * rhs.lo.toNat = x := ⟨_, rfl⟩
  obtain ⟨y, hy⟩ : ∃ y, a.hi.toNat * rhs.lo.toNat = y := ⟨_, rfl⟩
  obtain ⟨z, hz⟩ : ∃ z, a.lo.toNat * rhs.hi.toNat = z := ⟨_, rfl⟩
  obtain ⟨w, hw⟩ : ∃ w, a.hi.toNat * rhs.hi.toNat = w := ⟨_, rfl⟩
  have hproduct : (2 ^ 64 * a.hi.toNat + a.lo.toNat) * (2 ^ 64 * rhs.hi.toNat + rhs.lo.toNat) =
      x + 2 ^ 64 * (y + z) + 2 ^ 128 * w := by
    rw [← hx, ← hy, ← hz, ← hw]
    ring
  have hhigh := mulHi_eq false (by decide) a.lo.isLt rhs.lo.isLt
  rw [BitVec.toNat_mul, toNat_value, toNat_value, toNat_value, hproduct]
  dsimp only [mul]
  rw [hhigh, hx]
  simp only [BitVec.toNat_add, BitVec.toNat_mul, BitVec.toNat_ofNat, hx, hy, hz]
  omega

theorem eq_iff (a rhs : Fallback) : a.eq rhs = true ↔ a.value = rhs.value := by
  rw [eq, Bool.and_eq_true, beq_iff_eq, beq_iff_eq]
  constructor
  · rintro ⟨hhi, hlo⟩
    rw [value, value, hhi, hlo]
  · intro h
    rw [value_injective h]
    exact ⟨rfl, rfl⟩

/-- The number that an `int` is converted to. -/
theorem toNat_signExtend {w : ℕ} (hw : 32 ≤ w) (x : BitVec 32) :
    ((x.signExtend w).toNat : ℤ) = if x.toInt < 0 then 2 ^ w + x.toInt else x.toInt := by
  have hx := x.isLt
  have hle : 2 ^ 32 ≤ 2 ^ w := Nat.pow_le_pow_right (by decide) hw
  have hcast : (2 : ℤ) ^ w = ((2 ^ w : ℕ) : ℤ) := (Nat.cast_pow 2 w).symm
  rw [BitVec.toNat_signExtend, BitVec.toNat_setWidth, Nat.mod_eq_of_lt (by omega), BitVec.msb_eq_toInt,
    hcast, BitVec.toInt_eq_toNat_cond]
  simp only [decide_eq_true_eq]
  split_ifs
  all_goals omega

/-- **A comparison with an `int`** is that of the native type if the `int` is not negative. -/
theorem gt_eq_iff (a : Fallback) (x : BitVec 32) : a.gt x = Uint128.gt a.value x ↔
    0 ≤ x.toInt ∨ a.value.toNat ≤ 2 ^ 64 + x.toInt ∨ 2 ^ 128 + x.toInt < a.value.toNat := by
  have hlimb := toNat_signExtend (w := 64) (by decide) x
  have hnative := toNat_signExtend (w := 128) (by decide) x
  have hlo := a.lo.isLt
  have hhi := a.hi.isLt
  have hx := x.toInt_lt
  have hx' := x.le_toInt
  have hvalue := a.toNat_value
  have hzero : a.hi = 0 ↔ a.hi.toNat = 0 := BitVec.toNat_inj.symm
  change (a.hi != 0 || decide (x.signExtend 64 < a.lo)) = decide (x.signExtend 128 < a.value) ↔ _
  rw [Bool.eq_iff_iff, Bool.or_eq_true, decide_eq_true_eq, decide_eq_true_eq, bne_iff_ne, ne_eq, hzero,
    BitVec.lt_def, BitVec.lt_def]
  split_ifs at hlimb hnative
  all_goals omega

/-- The bits of a conjunction that went through an `int`. -/
theorem getLsbD_and (a : Fallback) (x : BitVec 32) (i : ℕ) :
    (a.and x).getLsbD i = (decide (i < 32) && (a.value.getLsbD i && x.getLsbD i)) := by
  rw [and, BitVec.getLsbD_setWidth, BitVec.getLsbD_and, BitVec.getLsbD_signExtend, getLsbD_value]
  grind

/-- **A conjunction with an `int`** is that of the native type if the `int` is not negative, or the other
operand could be an `int`, too. -/
theorem and_eq_iff (a : Fallback) (x : BitVec 32) :
    (a.and x).signExtend 128 = a.value &&& x.signExtend 128 ↔
      0 ≤ x.toInt ∨ (a.value.setWidth 32).signExtend 128 = a.value := by
  have hsign : 0 ≤ x.toInt ↔ x.getLsbD 31 = false := by
    rw [← BitVec.msb_eq_getLsbD_last x, BitVec.msb_eq_toInt, decide_eq_false_iff_not, not_lt]
  have hbits : ∀ {b c : BitVec 128}, b = c ↔ ∀ i < 128, b.getLsbD i = c.getLsbD i :=
    ⟨fun h _ _ => h ▸ rfl, fun h => BitVec.eq_of_getLsbD_eq fun i hi => h i hi⟩
  simp only [hsign, hbits, BitVec.getLsbD_signExtend, BitVec.getLsbD_and, BitVec.msb_eq_getLsbD_last,
    getLsbD_and, BitVec.getLsbD_setWidth]
  cases hx : x.getLsbD 31 with
  | false =>
    refine iff_of_true (fun i hi => ?_) (.inl rfl)
    by_cases hlow : i < 32
    all_goals grind
  | true =>
    refine ⟨fun h => .inr fun i hi => ?_, fun h i hi => ?_⟩
    · have hi' := h i hi
      by_cases hlow : i < 32
      all_goals grind
    · have hi' := (h.resolve_left (by decide)) i hi
      by_cases hlow : i < 32
      all_goals grind

/-- Both kinds of operation with an `int` are those of the native type if the `int` is not negative, or the
other operand is an `int` above it. -/
theorem int_operations_iff (a : Fallback) (x : BitVec 32) :
    (a.gt x = Uint128.gt a.value x ∧ (a.and x).signExtend 128 = a.value &&& x.signExtend 128) ↔
      0 ≤ x.toInt ∨ (x.toInt < a.value.toInt ∧ a.value.toInt < 2 ^ 31) := by
  rw [gt_eq_iff, and_eq_iff]
  have hx' := x.le_toInt
  have hlow := (a.value.setWidth 32).toInt_lt
  have hlow' := (a.value.setWidth 32).le_toInt
  have hvalue := a.value.isLt
  have hsame : (a.value.setWidth 32).signExtend 128 = a.value ↔
      -2 ^ 31 ≤ a.value.toInt ∧ a.value.toInt < 2 ^ 31 := by
    rw [← BitVec.toInt_inj, BitVec.toInt_signExtend_of_le (by decide), BitVec.toInt_setWidth]
    have hcast := BitVec.toInt_eq_toNat_cond a.value
    rw [Int.bmod_def]
    split_ifs at hcast ⊢ <;> omega
  rw [hsame, BitVec.toInt_eq_toNat_cond a.value]
  split_ifs
  all_goals omega

/-! ## 2. Refinement -/

/-- **Each operation of the fallback is the native one** on these operands. -/
structure OperationsAgree (a b : Fallback) (v : BitVec 64) (shift : ℕ) (x : BitVec 32) : Prop where
  ofWord : value (Uint128.ofWord v) = Uint128.ofWord v
  toWord : Uint128.toWord a = Uint128.toWord a.value
  toByte : Uint128.toByte a = Uint128.toByte a.value
  or : value (Uint128.or a v) = Uint128.or a.value v
  xor : value (Uint128.xor a b) = Uint128.xor a.value b.value
  and : (a.and x).signExtend 128 = a.value &&& x.signExtend 128
  shiftLeft : value (Uint128.shiftLeft a shift) = Uint128.shiftLeft a.value shift
  shiftRight : value (Uint128.shiftRight a shift) = Uint128.shiftRight a.value shift
  add : value (Uint128.add a b) = Uint128.add a.value b.value
  mul : value (Uint128.mul a b) = Uint128.mul a.value b.value
  gt : Uint128.gt a x = Uint128.gt a.value x
  eq : Uint128.eq a b = Uint128.eq a.value b.value

theorem toWord_eq (a : Fallback) : Uint128.toWord a = Uint128.toWord a.value :=
  (BitVec.setWidth_eq a.lo).symm.trans (a.setWidth_value (w := 64) (by decide)).symm

theorem eq_eq (a b : Fallback) : Uint128.eq a b = Uint128.eq a.value b.value := by
  change a.eq b = (a.value == b.value)
  rw [Bool.eq_iff_iff, eq_iff, beq_iff_eq]

theorem operationsAgree_iff (a b : Fallback) (v : BitVec 64) (shift : ℕ) (x : BitVec 32) :
    OperationsAgree a b v shift x ↔
      0 ≤ x.toInt ∨ (x.toInt < a.value.toInt ∧ a.value.toInt < 2 ^ 31) := by
  rw [← int_operations_iff]
  constructor
  · intro h
    exact ⟨h.gt, h.and⟩
  · rintro ⟨hgt, hand⟩
    exact
      { ofWord := value_ofWord v
        toWord := toWord_eq a
        toByte := (a.setWidth_value (w := 8) (by decide)).symm
        or := value_or a v
        xor := value_xor a b
        and := hand
        shiftLeft := value_shiftLeft a shift
        shiftRight := value_shiftRight a shift
        add := value_add a b
        mul := value_mul a b
        gt := hgt
        eq := eq_eq a b }

theorem agree (a b : Fallback) (v : BitVec 64) (shift : ℕ) {x : BitVec 32} (hx : 0 ≤ x.toInt) :
    OperationsAgree a b v shift x :=
  (operationsAgree_iff a b v shift x).mpr (.inl hx)

end Fallback

/-! ## 3. The engine on the fallback -/

section Engine

open Fallback

@[simp] theorem value_uint128_ofWord (v : BitVec 64) :
    value (Uint128.ofWord v) = Uint128.ofWord v := value_ofWord v

@[simp] theorem value_uint128_or (a : Fallback) (v : BitVec 64) :
    value (Uint128.or a v) = Uint128.or a.value v := value_or a v

@[simp] theorem value_uint128_xor (a b : Fallback) :
    value (Uint128.xor a b) = Uint128.xor a.value b.value := value_xor a b

@[simp] theorem value_uint128_shiftLeft (a : Fallback) (shift : ℕ) :
    value (Uint128.shiftLeft a shift) = Uint128.shiftLeft a.value shift := value_shiftLeft a shift

@[simp] theorem value_uint128_shiftRight (a : Fallback) (shift : ℕ) :
    value (Uint128.shiftRight a shift) = Uint128.shiftRight a.value shift := value_shiftRight a shift

@[simp] theorem value_uint128_add (a b : Fallback) :
    value (Uint128.add a b) = Uint128.add a.value b.value := value_add a b

@[simp] theorem value_uint128_mul (a b : Fallback) :
    value (Uint128.mul a b) = Uint128.mul a.value b.value := value_mul a b

variable (P : PcgConstants)

@[simp] theorem value_multiplier : value (multiplier Fallback P) = multiplier (BitVec 128) P := by
  simp only [multiplier, ofWords, value_uint128_or, value_uint128_shiftLeft, value_uint128_ofWord]

@[simp] theorem value_increment : value (increment Fallback P) = increment (BitVec 128) P := by
  simp only [increment, ofWords, value_uint128_or, value_uint128_shiftLeft, value_uint128_ofWord]

@[simp] theorem value_seed (s : BitVec 64) : value (seed Fallback P s) = seed (BitVec 128) P s := by
  simp only [seed, value_uint128_add, value_uint128_mul, value_uint128_ofWord, value_multiplier,
    value_increment]

@[simp] theorem value_seedSequence (d₀ d₁ d₂ d₃ : BitVec 32) :
    value (seedSequence Fallback P d₀ d₁ d₂ d₃) = seedSequence (BitVec 128) P d₀ d₁ d₂ d₃ := by
  simp only [seedSequence, value_uint128_add, value_uint128_mul, value_uint128_or, value_uint128_shiftLeft,
    value_uint128_ofWord, value_multiplier, value_increment]

theorem value_step (x : Fallback) : value (step P x) = step P x.value := by
  simp only [step, value_uint128_add, value_uint128_mul, value_multiplier, value_increment]

theorem outputTransform_value (x : Fallback) : outputTransform x = outputTransform x.value := by
  have hbyte : ∀ a : Fallback, Uint128.toByte a = Uint128.toByte a.value := fun a =>
    (a.setWidth_value (w := 8) (by decide)).symm
  rw [outputTransform, outputTransform, hbyte, toWord_eq, value_uint128_xor, value_uint128_shiftRight,
    value_uint128_shiftRight]

/-- **Both engines have the same results**, and their states stay the same. -/
theorem outputs_value (n : ℕ) (x : Fallback) :
    (outputs P n x).1 = (outputs P n x.value).1 ∧ value (outputs P n x).2 = (outputs P n x.value).2 := by
  induction n generalizing x with
  | zero => exact ⟨rfl, rfl⟩
  | succ n ih =>
    obtain ⟨hresults, hstate⟩ := ih (step P x)
    rw [value_step] at hresults hstate
    refine ⟨?_, hstate⟩
    simp only [outputs, generate]
    rw [hresults, outputTransform_value, value_step]

/-- The map with the native factor and summand. -/
def PcgMap.native (f : PcgMap Fallback) : PcgMap (BitVec 128) := ⟨f.mult.value, f.plus.value⟩

theorem and_one_value (delta : Fallback) : Uint128.and delta 1 = Uint128.and delta.value 1 := by
  have hsign : (delta.and 1).signExtend 128 = 0 ↔ delta.and 1 = 0 := by
    rw [← BitVec.toInt_inj, BitVec.toInt_signExtend_of_le (by decide), ← BitVec.toInt_inj]
    rfl
  change (delta.and 1 != 0) = (delta.value &&& BitVec.signExtend 128 1 != 0)
  rw [← (agree delta delta 0 0 (x := 1) (by decide)).and, Bool.eq_iff_iff, bne_iff_ne, bne_iff_ne, ne_eq,
    ne_eq, hsign]

theorem powerModLoop_value : ∀ (fuel : ℕ) (acc cur : PcgMap Fallback) (delta : Fallback),
    (powerModLoop fuel acc cur delta).map PcgMap.native =
      powerModLoop fuel acc.native cur.native delta.value
  | 0, acc, cur, delta => by
    rw [powerModLoop, powerModLoop, (agree delta delta 0 0 (x := 0) (by decide)).gt]
    split <;> rfl
  | fuel + 1, acc, cur, delta => by
    have hdouble : cur.double.native = cur.native.double := by
      simp only [PcgMap.native, PcgMap.double, value_uint128_add, value_uint128_mul, value_uint128_ofWord]
    have hjoin : (acc.join cur).native = acc.native.join cur.native := by
      simp only [PcgMap.native, PcgMap.join, value_uint128_add, value_uint128_mul]
    rw [powerModLoop, powerModLoop, (agree delta delta 0 0 (x := 0) (by decide)).gt]
    split
    · rw [powerModLoop_value fuel, value_uint128_shiftRight, hdouble, apply_ite PcgMap.native, hjoin,
        and_one_value]
    · rfl

/-- **A jump on the fallback** is the native one. -/
theorem discard_value (z : BitVec 64) (x : Fallback) :
    (discard P z x).map value = discard P z x.value := by
  have hone : (⟨Uint128.ofWord 1, Uint128.ofWord 0⟩ : PcgMap Fallback).native =
      ⟨Uint128.ofWord 1, Uint128.ofWord 0⟩ := by
    simp only [PcgMap.native, value_uint128_ofWord]
  have hstep : (⟨multiplier Fallback P, increment Fallback P⟩ : PcgMap Fallback).native =
      ⟨multiplier (BitVec 128) P, increment (BitVec 128) P⟩ := by
    simp only [PcgMap.native, value_multiplier, value_increment]
  rw [discard, discard, powerMod, powerMod, ← hone, ← hstep, ← value_uint128_ofWord,
    ← powerModLoop_value, Option.map_map, Option.map_map]
  refine congrArg (Option.map · _) (funext fun power => ?_)
  simp only [Function.comp_apply, value_uint128_add, value_uint128_mul, PcgMap.native]

end Engine

/-! ## 4. Jumps -/

section Jump

variable (P : PcgConstants)

/-- A map that takes so many steps at once. -/
def Stands (n : ℕ) (f : PcgMap (BitVec 128)) : Prop := ∀ x, x * f.mult + f.plus = (step P)^[n] x

theorem Stands.join {r s : ℕ} {acc cur : PcgMap (BitVec 128)} (hacc : Stands P r acc)
    (hcur : Stands P s cur) : Stands P (r + s) (acc.join cur) := by
  intro x
  change x * (acc.mult * cur.mult) + (acc.plus * cur.mult + cur.plus) = _
  rw [Nat.add_comm, Function.iterate_add_apply, ← hacc x, ← hcur]
  ring

theorem Stands.double {s : ℕ} {cur : PcgMap (BitVec 128)} (hcur : Stands P s cur) :
    Stands P (s + s) cur.double := by
  intro x
  change x * (cur.mult * cur.mult) + (cur.mult + 1) * cur.plus = _
  rw [Function.iterate_add_apply, ← hcur x, ← hcur]
  ring

theorem powerModLoop_eq : ∀ (fuel : ℕ) (acc cur : PcgMap (BitVec 128)) (delta : BitVec 128),
    delta.toNat < 2 ^ fuel → powerModLoop fuel acc cur delta =
      some (powerLoop PcgMap.join PcgMap.double acc cur delta.toNat)
  | fuel, acc, cur, delta, hfuel => by
    have hgt : Uint128.gt delta 0 = decide (delta.toNat ≠ 0) := by
      change decide (BitVec.signExtend 128 0 < delta) = _
      refine decide_eq_decide.mpr ?_
      rw [BitVec.lt_def]
      exact Nat.pos_iff_ne_zero
    cases fuel with
    | zero =>
      have hzero : delta.toNat = 0 := by omega
      rw [powerModLoop, hgt, hzero, powerLoop_zero]
      rfl
    | succ fuel =>
      have hhalf : (Uint128.shiftRight delta 1 : BitVec 128).toNat = delta.toNat / 2 := by
        change (delta >>> 1).toNat = _
        rw [BitVec.toNat_ushiftRight, Nat.shiftRight_eq_div_pow, Nat.pow_one]
      have hand : Uint128.and delta 1 = decide (delta.toNat % 2 = 1) := by
        change (delta &&& 1#128 != 0#128) = _
        rw [Bool.eq_iff_iff, bne_iff_ne, ne_eq, ← BitVec.toNat_inj, BitVec.toNat_and, decide_eq_true_eq,
          BitVec.toNat_one (by decide), Nat.and_one_is_mod, BitVec.toNat_zero]
        omega
      rw [Nat.pow_succ] at hfuel
      rw [powerModLoop, hgt, powerLoop]
      by_cases hzero : delta.toNat = 0
      · rw [if_pos hzero, if_neg (by simpa using hzero)]
      · rw [if_neg hzero, if_pos (decide_eq_true hzero), powerModLoop_eq fuel _ _ _ (by omega), hhalf, hand]
        simp only [decide_eq_true_eq]

/-- **A jump is as many steps.** -/
theorem discard_native (z : BitVec 64) (x : BitVec 128) :
    discard P z x = some ((step P)^[z.toNat] x) := by
  have hz : (Uint128.ofWord z : BitVec 128).toNat = z.toNat := by
    change (z.setWidth 128).toNat = _
    rw [BitVec.toNat_setWidth, Nat.mod_eq_of_lt (by omega)]
  have hstands : Stands P z.toNat (powerLoop PcgMap.join PcgMap.double
      ⟨Uint128.ofWord 1, Uint128.ofWord 0⟩ ⟨multiplier (BitVec 128) P, increment (BitVec 128) P⟩ z.toNat) := by
    refine powerLoop_spec (fun x => ?_) (fun x => rfl) (fun i a b _ ha hb => ha.join P hb)
      fun i b _ hb => ?_
    · change x * 1 + 0 = x
      ring
    · rw [Nat.pow_succ, Nat.mul_two]
      exact hb.double P
  rw [discard, powerMod, powerModLoop_eq 128 _ _ _ (by omega), hz, Option.map_some]
  exact congrArg some (hstands x)

end Jump

end Cccl.Random
