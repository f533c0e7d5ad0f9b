/-
# Integer types

The integer types of C++ and what the language says about them: how wide they are, which values they hold,
what `static_cast` makes of a value (`staticCast`), and in which type two operands meet (`arithmeticType`,
`commonType`).

A type that is narrower than `int` is promoted before an operation.  So two different narrow types meet in
`int`, and not in one of them; a narrow type meets itself unchanged (`bits_commonType`).
-/
import Mathlib.Algebra.Order.Ring.Int

namespace Cccl.IntegerTypes

/-! ## 1. Types -/

/-- The integer types up to their signs, by conversion rank. -/
inductive Rank
  | char
  | short
  | int
  | long
  | longLong
  | int128
  deriving DecidableEq

/-- What a platform chooses: whether `long` has 64 bits, or 32. -/
inductive DataModel
  | lp64
  | llp64
  deriving DecidableEq

structure IntegerType where
  rank : Rank
  signed : Bool
  deriving DecidableEq

/-- The place of a rank in the order of conversion ranks. -/
def Rank.order : Rank → ℕ
  | .char => 0
  | .short => 1
  | .int => 2
  | .long => 3
  | .longLong => 4
  | .int128 => 5

def Rank.bits (m : DataModel) : Rank → ℕ
  | .char => 8
  | .short => 16
  | .int => 32
  | .long => match m with
    | .lp64 => 64
    | .llp64 => 32
  | .longLong => 64
  | .int128 => 128

namespace IntegerType

variable (m : DataModel) (T : IntegerType)

def bits : ℕ := T.rank.bits m

def digits : ℕ := T.bits m - T.signed.toNat

def max : ℕ := 2 ^ T.digits m - 1

def min : ℤ := if T.signed then -2 ^ T.digits m else 0

/-- The type has the value. -/
def Has (v : ℤ) : Prop := T.min m ≤ v ∧ v ≤ T.max m

instance (v : ℤ) : Decidable (T.Has m v) := inferInstanceAs (Decidable (_ ∧ _))

/-- `make_unsigned_t`. -/
def makeUnsigned : IntegerType := { T with signed := false }

/-! ## 2. Conversions -/

/-- `static_cast`: the value of the type that is equal modulo a power of two. -/
def staticCast (v : ℤ) : ℤ := if T.signed then Int.bmod v (2 ^ T.bits m) else v % 2 ^ T.bits m

/-- Integral promotion: all narrow types have their values in `int`. -/
def promoted : IntegerType := if T.rank.order < Rank.int.order then ⟨.int, true⟩ else T

variable {m T}

theorem bits_pos : 0 < T.bits m := by
  change 0 < T.rank.bits m
  cases m <;> cases T.rank <;> decide

theorem Has.lt {v : ℤ} (h : T.Has m v) : v < 2 ^ T.digits m := by
  have hmax := h.2
  have hpos : 0 < 2 ^ T.digits m := Nat.two_pow_pos _
  rw [max, Int.natCast_sub hpos, Nat.cast_pow] at hmax
  exact Int.lt_of_le_sub_one hmax

theorem digits_le : T.digits m ≤ T.bits m := Nat.sub_le _ _

theorem Has.lt_two_pow {v : ℤ} (h : T.Has m v) : v < 2 ^ T.bits m :=
  h.lt.trans_le (by exact_mod_cast Nat.pow_le_pow_right (by decide) digits_le)

theorem has_of_le {v : ℕ} (h : v ≤ T.max m) : T.Has m v := by
  refine ⟨?_, by exact_mod_cast h⟩
  have hpow : (0 : ℤ) ≤ 2 ^ T.digits m := pow_nonneg (by decide) _
  rw [min]
  split
  · exact (Int.neg_nonpos_of_nonneg hpow).trans (Int.natCast_nonneg v)
  · exact Int.natCast_nonneg v

/-- A value of the type is not changed by a conversion to the type. -/
theorem staticCast_of_has {v : ℤ} (h : T.Has m v) : T.staticCast m v = v := by
  have hpos := bits_pos (m := m) (T := T)
  have hlt := h.lt
  obtain ⟨hmin, -⟩ := h
  unfold staticCast
  split
  · rename_i hsigned
    have hdigits : T.digits m + 1 = T.bits m := by
      rw [digits, hsigned]
      exact Nat.sub_add_cancel hpos
    rw [min, if_pos hsigned] at hmin
    refine Int.bmod_eq_of_le ?_ ?_
    all_goals
      rw [← hdigits, Nat.pow_succ]
      push_cast
      omega
  · rename_i hsigned
    have hdigits : T.digits m = T.bits m := by
      rw [digits, eq_false_of_ne_true hsigned]
      rfl
    rw [min, if_neg hsigned] at hmin
    rw [hdigits] at hlt
    exact Int.emod_eq_of_lt hmin hlt

theorem digits_of_signed (h : T.signed = true) : T.digits m + 1 = T.bits m := by
  rw [digits, h]
  exact Nat.sub_add_cancel bits_pos

theorem digits_of_unsigned (h : T.signed = false) : T.digits m = T.bits m := by
  rw [digits, h]
  rfl

theorem has_natCast_iff {v : ℕ} : T.Has m v ↔ v < 2 ^ T.digits m := by
  constructor
  · intro h
    exact_mod_cast h.lt
  · intro h
    exact has_of_le (Nat.le_sub_one_of_lt h)

theorem has_neg_natCast_iff (hsigned : T.signed = true) {v : ℕ} :
    T.Has m (-v) ↔ v ≤ 2 ^ T.digits m := by
  have hcast : (2 : ℤ) ^ T.digits m = ((2 ^ T.digits m : ℕ) : ℤ) := (Nat.cast_pow 2 _).symm
  have hmax : (0 : ℤ) ≤ T.max m := Int.natCast_nonneg _
  rw [Has, min, if_pos hsigned, hcast]
  omega

/-- A conversion changes a value by a multiple of the power of two. -/
theorem dvd_staticCast_sub (v : ℤ) : (2 ^ T.bits m : ℤ) ∣ T.staticCast m v - v := by
  have hcast : ((2 ^ T.bits m : ℕ) : ℤ) = 2 ^ T.bits m := Nat.cast_pow 2 _
  unfold staticCast
  split
  · rw [← hcast]
    exact Int.dvd_bmod_sub_self
  · exact Int.dvd_emod_sub_self

/-- **The result of a conversion** is the value of the type that differs by such a multiple. -/
theorem staticCast_eq {v w : ℤ} (hw : T.Has m w) (h : (2 ^ T.bits m : ℤ) ∣ v - w) :
    T.staticCast m v = w := by
  have hcast : ((2 ^ T.bits m : ℕ) : ℤ) = 2 ^ T.bits m := Nat.cast_pow 2 _
  have hmod : v % 2 ^ T.bits m = w % 2 ^ T.bits m :=
    Int.emod_eq_emod_iff_emod_sub_eq_zero.mpr (Int.emod_eq_zero_of_dvd h)
  calc T.staticCast m v = T.staticCast m w := by
        unfold staticCast
        rw [hmod, ← Int.emod_bmod v, ← Int.emod_bmod w, hcast, hmod]
    _ = w := staticCast_of_has hw

theorem has_staticCast (v : ℤ) : T.Has m (T.staticCast m v) := by
  have hcast : (2 : ℤ) ^ T.digits m = ((2 ^ T.digits m : ℕ) : ℤ) := (Nat.cast_pow 2 _).symm
  have hpos : 0 < 2 ^ T.digits m := Nat.two_pow_pos _
  rw [Has, min, max, Int.natCast_sub hpos]
  unfold staticCast
  split
  · rename_i hsigned
    have hbits : 2 ^ T.bits m = 2 * 2 ^ T.digits m := by
      rw [← digits_of_signed hsigned, Nat.pow_succ, Nat.mul_comm]
    have hle := Int.le_bmod (x := v) (m := 2 ^ T.bits m) (Nat.two_pow_pos _)
    have hlt := Int.bmod_lt (x := v) (m := 2 ^ T.bits m) (Nat.two_pow_pos _)
    rw [hbits] at hle hlt ⊢
    rw [hcast]
    omega
  · rename_i hunsigned
    rw [digits_of_unsigned (eq_false_of_ne_true hunsigned)]
    have hpow : (0 : ℤ) < 2 ^ T.bits m := pow_pos (by decide) _
    have hlt := Int.emod_lt_of_pos v hpow
    refine ⟨Int.emod_nonneg v hpow.ne', ?_⟩
    push_cast
    omega

theorem bits_makeUnsigned : T.makeUnsigned.bits m = T.bits m := rfl

theorem max_makeUnsigned : T.makeUnsigned.max m = 2 ^ T.bits m - 1 := rfl

theorem Has.natAbs_le {v : ℤ} (h : T.Has m v) : v.natAbs ≤ T.makeUnsigned.max m := by
  have hlt := h.lt
  obtain ⟨hmin, -⟩ := h
  have hcast : (2 : ℤ) ^ T.digits m = ((2 ^ T.digits m : ℕ) : ℤ) := (Nat.cast_pow 2 _).symm
  have hpos : 0 < 2 ^ T.digits m := Nat.two_pow_pos _
  rw [max_makeUnsigned]
  rw [min, hcast] at hmin
  rw [hcast] at hlt
  split at hmin
  · rename_i hsigned
    rw [← digits_of_signed hsigned, Nat.pow_succ]
    omega
  · rename_i hunsigned
    rw [← digits_of_unsigned (eq_false_of_ne_true hunsigned)]
    omega

/-- A conversion to another type before does not show, if that type is not narrower. -/
theorem staticCast_staticCast {U : IntegerType} (h : T.bits m ≤ U.bits m) (v : ℤ) :
    T.staticCast m (U.staticCast m v) = T.staticCast m v := by
  have hpow : (2 ^ T.bits m : ℤ) ∣ 2 ^ U.bits m := pow_dvd_pow 2 h
  have houter := dvd_staticCast_sub (m := m) (T := T) v
  have hinner := hpow.trans (dvd_staticCast_sub (m := m) (T := U) v)
  refine staticCast_eq (has_staticCast v) ?_
  have hdiff := Int.dvd_sub hinner houter
  rwa [sub_sub_sub_cancel_right] at hdiff

/-- Conversions of the terms do not show in the conversion of a sum. -/
theorem staticCast_add_staticCast (v w : ℤ) :
    T.staticCast m (T.staticCast m v + T.staticCast m w) = T.staticCast m (v + w) := by
  refine staticCast_eq (has_staticCast _) ?_
  have hv := dvd_staticCast_sub (m := m) (T := T) v
  have hw := dvd_staticCast_sub (m := m) (T := T) w
  have hsum := dvd_staticCast_sub (m := m) (T := T) (v + w)
  have hall := Int.dvd_sub (Int.dvd_add hv hw) hsum
  rwa [← add_sub_add_comm, sub_sub_sub_cancel_right] at hall

theorem Has.of_digits {U : IntegerType} {v : ℤ} (h : T.Has m v) (hdigits : T.digits m ≤ U.digits m)
    (hsigned : T.signed = true → U.signed = true) : U.Has m v := by
  have hpow : (2 : ℤ) ^ T.digits m ≤ 2 ^ U.digits m := pow_le_pow_right₀ (by decide) hdigits
  have hpos : (0 : ℤ) < 2 ^ T.digits m := pow_pos (by decide) _
  have hnat : 0 < 2 ^ U.digits m := Nat.two_pow_pos _
  have hmax : (U.max m : ℤ) = 2 ^ U.digits m - 1 := by
    rw [max, Int.natCast_sub hnat, Nat.cast_pow]
    rfl
  have hlt := h.lt
  obtain ⟨hmin, -⟩ := h
  rw [min] at hmin
  rw [Has, hmax, min]
  split at hmin
  · rename_i hT
    rw [if_pos (hsigned hT)]
    omega
  · split <;> omega

theorem has_promoted {v : ℤ} (h : T.Has m v) : T.promoted.Has m v := by
  refine h.of_digits ?_ ?_
  · obtain ⟨rank, signed⟩ := T
    cases m <;> cases rank <;> cases signed <;> decide
  · obtain ⟨rank, signed⟩ := T
    cases rank <;> cases signed <;> decide

/-- The integer type of so many bits. -/
def ofBits (bits : ℕ) (signed : Bool) : IntegerType :=
  ⟨if bits = 8 then .char else if bits = 16 then .short else if bits = 32 then .int
    else if bits = 64 then .longLong else .int128, signed⟩

theorem bits_ofBits (signed : Bool) : (ofBits (T.bits m) signed).bits m = T.bits m := by
  obtain ⟨rank, signedT⟩ := T
  cases m <;> cases rank <;> rfl

end IntegerType

/-! ## 3. Operands of different types -/

variable (m : DataModel) (T U : IntegerType)

/-- Where an unsigned and a signed type meet. -/
def mixed (u s : IntegerType) : IntegerType :=
  if s.rank.order ≤ u.rank.order then u
  else if u.bits m < s.bits m then s
  else s.makeUnsigned

/-- The usual arithmetic conversions. -/
def arithmeticType : IntegerType :=
  if T.promoted.signed = U.promoted.signed then
    if T.promoted.rank.order ≤ U.promoted.rank.order then U.promoted else T.promoted
  else if T.promoted.signed then mixed m U.promoted T.promoted
  else mixed m T.promoted U.promoted

/-- `common_type_t`: a type meets itself without a promotion. -/
def commonType : IntegerType := if T = U then T else arithmeticType m T U

variable {m T U}

/-- **Only two different narrow types meet in a type of another width**, which is `int`. -/
theorem bits_commonType (h : U.max m ≤ T.max m) : (commonType m T U).bits m = T.bits m ∨
    (commonType m T U).bits m = 32 ∧ T.bits m ≤ 16 := by
  obtain ⟨rankT, signedT⟩ := T
  obtain ⟨rankU, signedU⟩ := U
  revert h
  cases m <;> cases rankT <;> cases signedT <;> cases rankU <;> cases signedU <;> decide

/-- Where two types meet, the values of both that are not negative exist. -/
theorem max_le_arithmeticType : T.max m ≤ (arithmeticType m T U).max m ∧
    U.max m ≤ (arithmeticType m T U).max m := by
  obtain ⟨rankT, signedT⟩ := T
  obtain ⟨rankU, signedU⟩ := U
  cases m <;> cases rankT <;> cases signedT <;> cases rankU <;> cases signedU <;> decide

theorem max_le_commonType : T.max m ≤ (commonType m T U).max m ∧ U.max m ≤ (commonType m T U).max m := by
  unfold commonType
  split
  · rename_i h
    exact ⟨Nat.le_refl _, h ▸ Nat.le_refl _⟩
  · exact max_le_arithmeticType

theorem bits_le_commonType : T.bits m ≤ (commonType m T U).bits m ∧ U.bits m ≤ (commonType m T U).bits m := by
  obtain ⟨rankT, signedT⟩ := T
  obtain ⟨rankU, signedU⟩ := U
  cases m <;> cases rankT <;> cases signedT <;> cases rankU <;> cases signedU <;> decide

theorem digits_le_commonType :
    T.digits m ≤ (commonType m T U).digits m ∧ U.digits m ≤ (commonType m T U).digits m := by
  obtain ⟨rankT, signedT⟩ := T
  obtain ⟨rankU, signedU⟩ := U
  cases m <;> cases rankT <;> cases signedT <;> cases rankU <;> cases signedU <;> decide

theorem signed_commonType (hT : T.signed = true) (hU : U.signed = true) :
    (commonType m T U).signed = true := by
  obtain ⟨rankT, signedT⟩ := T
  obtain ⟨rankU, signedU⟩ := U
  revert hT hU
  cases m <;> cases rankT <;> cases signedT <;> cases rankU <;> cases signedU <;> decide

/-- Types meet in an unsigned type only if one of them is unsigned and at least as wide as the other. -/
theorem bits_commonType_of_unsigned (h : (commonType m T U).signed = false) :
    (commonType m T U).bits m = max (T.bits m) (U.bits m) := by
  obtain ⟨rankT, signedT⟩ := T
  obtain ⟨rankU, signedU⟩ := U
  revert h
  cases m <;> cases rankT <;> cases signedT <;> cases rankU <;> cases signedU <;> decide

/-- A signed type that is wider than the other one keeps its sign. -/
theorem signed_commonType_of_wider (hU : U.signed = true) (h : T.bits m < U.bits m) :
    (commonType m T U).signed = true := by
  obtain ⟨rankT, signedT⟩ := T
  obtain ⟨rankU, signedU⟩ := U
  revert hU h
  cases m <;> cases rankT <;> cases signedT <;> cases rankU <;> cases signedU <;> decide

/-- A type whose values are among those of another one is not wider. -/
theorem bits_dvd (h : U.max m ≤ T.max m) : U.bits m ∣ T.bits m ∧ U.bits m ≤ T.bits m := by
  obtain ⟨rankT, signedT⟩ := T
  obtain ⟨rankU, signedU⟩ := U
  revert h
  cases m <;> cases rankT <;> cases signedT <;> cases rankU <;> cases signedU <;> decide

theorem even_bits : T.bits m % 2 = 0 := by
  change T.rank.bits m % 2 = 0
  cases m <;> cases T.rank <;> decide

end Cccl.IntegerTypes
