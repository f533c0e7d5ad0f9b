/-
# Computations that may wrap

A computation with machine integers gives a value, and it is kept in mind whether each number on the way was one of its
type (`kept`), or was cut to one.  A computation in which nothing is cut is one with integers (`Is`).
-/
import Cccl.Lib.IntegerTypes

namespace Cccl

open IntegerTypes

/-! ## 1. Values and what was cut -/

/-- A value, and whether no number was cut on the way to it. -/
structure Wrapped (α : Type) where
  value : α
  kept : Bool

namespace Wrapped

variable {α β : Type} {x : Wrapped α} {f : α → Wrapped β} {a : α} {b : β}

instance : Monad Wrapped where
  pure a := ⟨a, true⟩
  bind x f := ⟨(f x.value).value, x.kept && (f x.value).kept⟩

/-- A number as a value of a type. -/
def cut (m : DataModel) (T : IntegerType) (v : ℤ) : Wrapped ℤ := ⟨T.staticCast m v, decide (T.Has m v)⟩

/-- The value is known, and nothing was cut. -/
def Is (x : Wrapped α) (a : α) : Prop := x.value = a ∧ x.kept = true

theorem Is.pure : (Pure.pure a : Wrapped α).Is a := ⟨rfl, rfl⟩

theorem Is.pure_eq {a' : α} (h : a' = a) : (Pure.pure a' : Wrapped α).Is a := ⟨h, rfl⟩

theorem Is.bind (hx : x.Is a) (hf : (f a).Is b) : (x >>= f).Is b := by
  obtain ⟨rfl, hkept⟩ := hx
  exact ⟨hf.1, Bool.and_eq_true_iff.mpr ⟨hkept, hf.2⟩⟩

theorem Is.bind_eq (hx : x.Is a) : x >>= f = f a := by
  obtain ⟨rfl, hkept⟩ := hx
  change Wrapped.mk (f x.value).value (x.kept && (f x.value).kept) = f x.value
  rw [hkept, Bool.true_and]

theorem kept_bind : (x >>= f).kept = true ↔ x.kept = true ∧ (f x.value).kept = true := Bool.and_eq_true_iff

theorem value_bind : (x >>= f).value = (f x.value).value := rfl

theorem value_pure : (Pure.pure a : Wrapped α).value = a := rfl

theorem value_bind_eq (hx : x.value = a) (hf : (f a).value = b) : (x >>= f).value = b := by
  rw [value_bind, hx, hf]

variable {m : DataModel} {T : IntegerType} {v : ℤ}

theorem is_cut (h : T.Has m v) : (cut m T v).Is v := ⟨IntegerType.staticCast_of_has h, decide_eq_true h⟩

theorem kept_cut : (cut m T v).kept = true ↔ T.Has m v := decide_eq_true_iff

theorem is_cut_natCast {n : ℕ} (h : v = n) (hle : n ≤ T.max m) : (cut m T v).Is n := by
  rw [h]
  exact is_cut (IntegerType.has_of_le hle)

/-- A number as a value of the unsigned type with the given number of bits. -/
def cutNat (bits : ℕ) (v : ℤ) : Wrapped ℕ := ⟨(v % 2 ^ bits).toNat, decide (0 ≤ v ∧ v < 2 ^ bits)⟩

theorem is_cutNat {bits n : ℕ} (h : v = n) (hlt : n < 2 ^ bits) : (cutNat bits v).Is n := by
  have hless : (n : ℤ) < 2 ^ bits := by exact_mod_cast hlt
  rw [h]
  refine ⟨?_, decide_eq_true ⟨Int.natCast_nonneg n, hless⟩⟩
  rw [cutNat, Int.emod_eq_of_lt (Int.natCast_nonneg n) hless, Int.toNat_natCast]

theorem is_cutNat_sub {bits a b : ℕ} (hle : b ≤ a) (hlt : a < 2 ^ bits) : (cutNat bits (a - b)).Is (a - b) :=
  is_cutNat (Int.natCast_sub hle).symm ((Nat.sub_le a b).trans_lt hlt)

theorem cutNat_lt (bits : ℕ) (v : ℤ) : (cutNat bits v).value < 2 ^ bits := by
  have hpow : (0 : ℤ) < 2 ^ bits := pow_pos (by decide) _
  have hlt := Int.emod_lt_of_pos v hpow
  have hnonneg := Int.emod_nonneg v hpow.ne'
  exact (Int.toNat_lt hnonneg).mpr (by exact_mod_cast hlt)

/-! ## 2. Sizes and differences of 64 bits -/

/-- `size_t`. -/
def sizeType : IntegerType := ⟨.longLong, false⟩

/-- `ptrdiff_t`. -/
def diffType : IntegerType := ⟨.longLong, true⟩

def toSize (v : ℤ) : ℤ := sizeType.staticCast .lp64 v

def toDiff (v : ℤ) : ℤ := diffType.staticCast .lp64 v

def sizeCut (v : ℤ) : Wrapped ℤ := cut .lp64 sizeType v

def diffCut (v : ℤ) : Wrapped ℤ := cut .lp64 diffType v

theorem has_sizeType : sizeType.Has .lp64 v ↔ 0 ≤ v ∧ v < 2 ^ 64 := by
  have hmin : sizeType.min .lp64 = 0 := rfl
  have hmax : (sizeType.max .lp64 : ℤ) = 2 ^ 64 - 1 := by decide
  rw [IntegerType.Has, hmin, hmax]
  omega

theorem has_diffType : diffType.Has .lp64 v ↔ -2 ^ 63 ≤ v ∧ v < 2 ^ 63 := by
  have hmin : diffType.min .lp64 = -2 ^ 63 := rfl
  have hmax : (diffType.max .lp64 : ℤ) = 2 ^ 63 - 1 := by decide
  rw [IntegerType.Has, hmin, hmax]
  omega

theorem toSize_of_lt (hpos : 0 ≤ v) (hlt : v < 2 ^ 64) : toSize v = v :=
  IntegerType.staticCast_of_has (has_sizeType.mpr ⟨hpos, hlt⟩)

theorem toDiff_of_lt (hmin : -2 ^ 63 ≤ v) (hlt : v < 2 ^ 63) : toDiff v = v :=
  IntegerType.staticCast_of_has (has_diffType.mpr ⟨hmin, hlt⟩)

theorem is_sizeCut (hpos : 0 ≤ v) (hlt : v < 2 ^ 64) : (sizeCut v).Is v := is_cut (has_sizeType.mpr ⟨hpos, hlt⟩)

theorem is_diffCut (hmin : -2 ^ 63 ≤ v) (hlt : v < 2 ^ 63) : (diffCut v).Is v :=
  is_cut (has_diffType.mpr ⟨hmin, hlt⟩)

end Wrapped

end Cccl
