/-
# Digits of keys with several fields

`custom_digit_extractor_t` of `radix_rank_sort_operations.cuh`: the fields of a key are gone through from the last one to
the first one, which is the most significant one, and each gives the bits of the digit that are its own.

Each field leaves the digit with the bits that have been copied so far (`digitField_eq`), and at last it is the bit field of
all fields' bits one behind the other, if and only if no field gives more than 30 bits (`forEachMember_eq`): the mask of
the bits is made from the `int` 1, which has no place for more.
-/
import Cccl.Lib.DigitSort
import Cccl.Numeric.SubOverflow

namespace Cccl.RadixSort

open IntegerTypes Numeric DigitSort StableSort

/-! ## 1. The code -/

/-- `Category`, and of a floating-point number how many bits its fraction has. -/
inductive Category where
  | signedInteger
  | unsignedInteger
  | floatingPoint (fractionBits : ℕ)
  deriving DecidableEq

/-- The type of a field: what kind of number it is, and its width. -/
structure FieldType where
  category : Category
  bits : ℕ
  bits_pos : 0 < bits

namespace FieldType

variable (T : FieldType)

def highBit : ℕ := 2 ^ (T.bits - 1)

def twiddleIn (key : ℕ) : ℕ :=
  match T.category with
  | .unsignedInteger => key
  | .signedInteger => key ^^^ T.highBit
  | .floatingPoint _ => key ^^^ (if key &&& T.highBit ≠ 0 then 2 ^ T.bits - 1 else T.highBit)

def processFloatMinusZero (key : ℕ) : ℕ :=
  match T.category with
  | .floatingPoint _ =>
    let twiddledMinusZeroBits := T.twiddleIn T.highBit
    let twiddledZeroBits := T.twiddleIn 0
    if key = twiddledMinusZeroBits then twiddledZeroBits else key
  | _ => key

end FieldType

/-- What `digit_f` refers to. -/
structure DigitState where
  dst : ℕ
  dstBitStart : ℕ
  srcBitStart : ℕ
  numBits : ℕ

/-- `(1 << bits_to_copy) - 1`, in `int`: there is no result if a shift is too long or a difference is too large. -/
def digitMask (bitsToCopy : ℕ) : Option ℕ := do
  let one ← (if bitsToCopy < 32 then some (IntegerType.staticCast .lp64 ⟨.int, true⟩ (2 ^ bitsToCopy)) else none)
  let mask ← minus .lp64 ⟨.int, true⟩ one 1
  some (IntegerType.staticCast .lp64 ⟨.int, false⟩ mask).toNat

/-- `digit_f`. -/
def digitField (T : FieldType) (src : ℕ) (s : DigitState) : Option DigitState :=
  if T.bits ≤ s.srcBitStart then some { s with srcBitStart := s.srcBitStart - T.bits }
  else
    let bitsToCopy := min (T.bits - s.srcBitStart) s.numBits
    if bitsToCopy = 0 then some { s with srcBitStart := 0 }
    else do
      let orderedSrc := T.processFloatMinusZero src
      let mask ← digitMask bitsToCopy
      some
        { dst := (s.dst ||| ((orderedSrc >>> s.srcBitStart) &&& mask) <<< s.dstBitStart) % 2 ^ 32
          dstBitStart := s.dstBitStart + bitsToCopy
          srcBitStart := 0
          numBits := s.numBits - bitsToCopy }

/-- `for_each_member`, from the last field to the first one. -/
def forEachMember : List FieldType → List ℕ → DigitState → Option DigitState
  | T :: types, src :: fields, s => do
    let s ← forEachMember types fields s
    digitField T src s
  | _, _, s => some s

def digit (types : List FieldType) (bitStart numBits : ℕ) (fields : List ℕ) : Option ℕ :=
  (forEachMember types fields ⟨0, 0, bitStart, numBits⟩).map DigitState.dst

def toBitOrdered : List FieldType → List ℕ → List ℕ
  | T :: types, field :: fields => T.twiddleIn field :: toBitOrdered types fields
  | _, _ => []

/-! ## 2. The digit -/

/-- The width of a key. -/
def width : List FieldType → ℕ
  | [] => 0
  | T :: types => width types + T.bits

/-- The bits of all fields, the last field least significant, and a negative zero as the zero. -/
def concatBits : List FieldType → List ℕ → ℕ
  | T :: types, field :: fields => concatBits types fields + 2 ^ width types * T.processFloatMinusZero field
  | _, _ => 0

/-- No field has more than 30 of the bits. -/
def FewBits (bitStart numBits : ℕ) : List FieldType → Prop
  | [] => True
  | T :: types => min (bitStart + numBits) (width types + T.bits) ≤ max bitStart (width types) + 30 ∧
      FewBits bitStart numBits types

instance decidableFewBits (bitStart numBits : ℕ) : ∀ types, Decidable (FewBits bitStart numBits types)
  | [] => isTrue trivial
  | T :: types =>
    have := decidableFewBits bitStart numBits types
    inferInstanceAs (Decidable (_ ∧ _))

/-- The fields are numbers of their types. -/
def Fits : List FieldType → List ℕ → Prop := List.Forall₂ fun T field => field < 2 ^ T.bits

variable {T : FieldType} {types : List FieldType} {fields : List ℕ} {bitStart numBits : ℕ}

theorem digitMask_eq {bitsToCopy : ℕ} (h : bitsToCopy ≤ 32) :
    digitMask bitsToCopy = if bitsToCopy ≤ 30 then some (2 ^ bitsToCopy - 1) else none := by
  have hall : ∀ b < 33, digitMask b = if b ≤ 30 then some (2 ^ b - 1) else none := by decide
  exact hall bitsToCopy (Nat.lt_succ_of_le h)

theorem highBit_lt (T : FieldType) : T.highBit < 2 ^ T.bits :=
  Nat.pow_lt_pow_right (by decide) (Nat.sub_one_lt (Nat.ne_of_gt T.bits_pos))

theorem twiddleIn_lt {key : ℕ} (h : key < 2 ^ T.bits) : T.twiddleIn key < 2 ^ T.bits := by
  rw [FieldType.twiddleIn]
  split
  · exact h
  · exact Nat.xor_lt_two_pow h (highBit_lt T)
  · refine Nat.xor_lt_two_pow h ?_
    split
    · exact Nat.sub_one_lt (Nat.two_pow_pos _).ne'
    · exact highBit_lt T

theorem processFloatMinusZero_lt {key : ℕ} (h : key < 2 ^ T.bits) : T.processFloatMinusZero key < 2 ^ T.bits := by
  rw [FieldType.processFloatMinusZero]
  split
  · dsimp only
    split
    · exact twiddleIn_lt (Nat.two_pow_pos _)
    · exact h
  · exact h

theorem concatBits_lt (h : Fits types fields) : concatBits types fields < 2 ^ width types := by
  induction h with
  | nil => exact Nat.one_pos
  | @cons T field types fields hfield _ ih =>
    have hle := Nat.mul_le_mul_left (2 ^ width types) (Nat.succ_le_of_lt (processFloatMinusZero_lt hfield))
    rw [concatBits, width, Nat.pow_add]
    rw [Nat.mul_succ] at hle
    omega

/-- The state behind some fields: of the digit, the bits that are among them have been copied. -/
def stateBehind (types : List FieldType) (fields : List ℕ) (bitStart numBits : ℕ) : DigitState :=
  let copied := min numBits (width types - bitStart)
  ⟨bitField bitStart copied (concatBits types fields), copied, bitStart - width types, numBits - copied⟩

theorem or_shiftLeft {low high copied bits src : ℕ} (hlow : low < 2 ^ copied) (hfits : copied + bits ≤ 32) :
    (low ||| ((high >>> src) &&& (2 ^ bits - 1)) <<< copied) % 2 ^ 32 = low + 2 ^ copied * bitField src bits high := by
  have hfield : bitField src bits high < 2 ^ bits := bitField_lt _ _ _
  rw [Nat.and_two_pow_sub_one_eq_mod, Nat.shiftRight_eq_div_pow, Nat.shiftLeft_eq, Nat.or_comm]
  change (bitField src bits high * 2 ^ copied ||| low) % 2 ^ 32 = _
  rw [Nat.mul_comm, ← Nat.two_pow_add_eq_or_of_lt hlow, Nat.add_comm, Nat.mod_eq_of_lt]
  have hle := Nat.mul_le_mul_left (2 ^ copied) (Nat.succ_le_of_lt hfield)
  have hpow : 2 ^ copied * 2 ^ bits ≤ 2 ^ 32 := by
    rw [← Nat.pow_add]
    exact Nat.pow_le_pow_right (by decide) hfits
  rw [Nat.mul_succ] at hle
  omega

theorem bitField_low {b w x y n : ℕ} (hfits : b + w ≤ n) : bitField b w (x + 2 ^ n * y) = bitField b w x := by
  obtain ⟨d, rfl⟩ := Nat.exists_eq_add_of_le hfits
  have hsplit : x + 2 ^ (b + w + d) * y = x + 2 ^ b * (2 ^ w * (2 ^ d * y)) := by
    rw [Nat.pow_add, Nat.pow_add, Nat.mul_assoc, Nat.mul_assoc]
  rw [bitField, bitField, hsplit, Nat.add_mul_div_left _ _ (Nat.two_pow_pos b), Nat.add_mul_mod_self_left]

theorem bitField_high {s w x y n : ℕ} (hx : x < 2 ^ n) : bitField (n + s) w (x + 2 ^ n * y) = bitField s w y := by
  rw [bitField, bitField, Nat.pow_add, ← Nat.div_div_eq_div_mul, Nat.add_mul_div_left _ _ (Nat.two_pow_pos n),
    Nat.div_eq_of_lt hx, Nat.zero_add]

/-- The bits of a digit that starts before the end of the field above `width` bits. -/
theorem bits_in_field {bitStart numBits width fieldBits copied bits : ℕ} (hstart : ¬ fieldBits ≤ bitStart - width)
    (hcopied : copied = min numBits (width - bitStart)) (hbits : bits = min (fieldBits - (bitStart - width)) (numBits - copied)) :
    min numBits (width + fieldBits - bitStart) = copied + bits ∧ bitStart - (width + fieldBits) = 0 ∧
      copied + bits ≤ numBits ∧ (copied ≠ 0 → bitStart + copied ≤ width) ∧
      (bits ≠ 0 → bitStart + copied = width + (bitStart - width)) ∧
      (min (bitStart + numBits) (width + fieldBits) ≤ max bitStart width + 30 ↔ bits ≤ 30) := by
  rcases Nat.le_total width bitStart with hbelow | habove
  · -- all bits are in the field or above it
    obtain ⟨s, rfl⟩ := Nat.exists_eq_add_of_le hbelow
    rw [Nat.sub_eq_zero_of_le hbelow, Nat.min_zero] at hcopied
    rw [Nat.add_sub_cancel_left] at hstart hbits ⊢
    subst hcopied
    rw [Nat.max_eq_left hbelow]
    clear hbelow
    omega
  · rw [Nat.sub_eq_zero_of_le habove] at hbits ⊢
    rw [Nat.max_eq_right habove]
    clear hstart
    omega

/-- **A field gives its bits of the digit**, if these are not too many. -/
theorem digitField_eq {field : ℕ} (hfields : Fits types fields) (hnum : numBits ≤ 32) :
    digitField T field (stateBehind types fields bitStart numBits) =
      if min (bitStart + numBits) (width types + T.bits) ≤ max bitStart (width types) + 30 then
        some (stateBehind (T :: types) (field :: fields) bitStart numBits)
      else none := by
  obtain ⟨W, hW⟩ : ∃ W, W = width types := ⟨_, rfl⟩
  have hlow := concatBits_lt hfields
  rw [digitField, stateBehind, stateBehind, width, concatBits, ← hW]
  rw [← hW] at hlow
  dsimp only
  split
  · -- the digit starts behind the field
    rename_i hbehind
    have hpos := T.bits_pos
    have hnone : min numBits (W - bitStart) = 0 := by omega
    have hnone' : min numBits (W + T.bits - bitStart) = 0 := by omega
    rw [if_pos (by omega), hnone, hnone', Nat.sub_sub]
    simp only [bitField, Nat.pow_zero, Nat.mod_one]
  · rename_i hstart
    obtain ⟨copied, hcopied⟩ : ∃ copied, copied = min numBits (W - bitStart) := ⟨_, rfl⟩
    obtain ⟨bits, hbits⟩ : ∃ bits, bits = min (T.bits - (bitStart - W)) (numBits - copied) := ⟨_, rfl⟩
    obtain ⟨hboth, hbehind, hfits, hbelow, hplace, hlimit⟩ := bits_in_field hstart hcopied hbits
    -- the bits below the field, and those of the field
    have hrest : bitField bitStart copied (concatBits types fields + 2 ^ W * T.processFloatMinusZero field) =
        bitField bitStart copied (concatBits types fields) := by
      by_cases hzero : copied = 0
      · rw [hzero]
        simp only [bitField, Nat.pow_zero, Nat.mod_one]
      · exact bitField_low (hbelow hzero)
    rw [← hcopied, ← hbits, hboth, hbehind, ← Nat.sub_sub, bitField_add, hrest]
    split
    · rename_i hzero
      rw [if_pos (hlimit.mpr (by rw [hzero]; exact Nat.zero_le _)), hzero]
      simp only [bitField, Nat.pow_zero, Nat.mod_one, Nat.mul_zero, Nat.add_zero, Nat.sub_zero]
    · rename_i hsome
      rw [digitMask_eq ((Nat.le_add_left bits copied).trans (hfits.trans hnum)), hplace hsome, bitField_high hlow]
      by_cases hfew : bits ≤ 30
      · rw [if_pos hfew, if_pos (hlimit.mpr hfew)]
        change some _ = some _
        rw [or_shiftLeft (bitField_lt _ _ _) (hfits.trans hnum)]
      · rw [if_neg hfew, if_neg fun h => hfew (hlimit.mp h)]
        rfl

/-- **The digit of a key** is the bit field of all its bits, if and only if no field has too many of them. -/
theorem forEachMember_eq (hfields : Fits types fields) (hnum : numBits ≤ 32) :
    forEachMember types fields ⟨0, 0, bitStart, numBits⟩ =
      if FewBits bitStart numBits types then some (stateBehind types fields bitStart numBits) else none := by
  induction hfields with
  | nil =>
    have htrivial : FewBits bitStart numBits [] := trivial
    rw [if_pos htrivial, stateBehind, width, Nat.zero_sub, Nat.min_zero]
    simp only [bitField, Nat.pow_zero, Nat.mod_one]
    rfl
  | @cons T field types fields _ hrest ih =>
    change (forEachMember types fields _).bind _ = _
    rw [ih]
    by_cases hfew : FewBits bitStart numBits types
    · rw [if_pos hfew]
      change digitField T field (stateBehind types fields bitStart numBits) = _
      rw [digitField_eq hrest hnum]
      by_cases hfield : min (bitStart + numBits) (width types + T.bits) ≤ max bitStart (width types) + 30
      · rw [if_pos hfield, if_pos ⟨hfield, hfew⟩]
      · rw [if_neg hfield, if_neg fun h => hfield h.1]
    · rw [if_neg hfew, if_neg fun h => hfew h.2]
      rfl

end Cccl.RadixSort
