/-
# Views

A view is a data handle with a mapping of one of four layouts: `layout_left`, `layout_right`,
`layout_stride`, and `layout_stride_relaxed`, whose strides may be zero or negative and whose mapping has
an offset of its own.

Inside the extents the index type is wide enough for the mapping (`AnyMapping.call_eq`).
-/
import Cccl.Mdspan.Layout

namespace Cccl.Mdspan

open IntegerTypes Strided MixedRadix

/-! ## 1. Views -/

/-- `layout_stride_relaxed::mapping`. -/
structure Relaxed where
  extents : List ℕ
  strides : List ℤ
  offset : ℤ

/-- A mapping of one of the four layouts. -/
inductive AnyMapping
  | standard (M : Mapping)
  | relaxed (R : Relaxed)

inductive LayoutPolicy
  | left
  | right
  | stride
  | strideRelaxed
  deriving DecidableEq

/-- A view: its data handle, as an address, and its mapping. -/
structure View where
  data : ℕ
  mapping : AnyMapping

structure DLDataType where
  code : ℕ
  bits : ℕ
  lanes : ℕ
  deriving DecidableEq

/-- An element type: what `__data_type_to_dlpack` says of it, and its `sizeof`. -/
structure ElementType where
  dtype : DLDataType
  size : ℕ

namespace AnyMapping

def extents : AnyMapping → List ℕ
  | .standard M => M.extents
  | .relaxed R => R.extents

def policy : AnyMapping → LayoutPolicy
  | .standard ⟨.left, _⟩ => .left
  | .standard ⟨.right, _⟩ => .right
  | .standard ⟨.stride _, _⟩ => .stride
  | .relaxed _ => .strideRelaxed

variable (m : DataModel) (T : IntegerType)

def stride (r : ℕ) : AnyMapping → ℤ
  | .standard M => M.stride m T r
  | .relaxed R => R.strides.getD r 0

/-- `operator()`. -/
def call (idx : List ℕ) : AnyMapping → ℤ
  | .standard M => M.call m T idx
  | .relaxed R => T.staticCast m (T.staticCast m R.offset +
      ((idx.zip R.strides).map fun p => T.staticCast m p.1 * T.staticCast m p.2).sum)

end AnyMapping

namespace View

variable (m : DataModel) (T : IntegerType)

/-- `size`, in the unsigned index type. -/
def size (V : View) : ℤ := T.makeUnsigned.staticCast m (V.mapping.extents.prod : ℕ)

/-- The address of the element at an index. -/
def address (E : ElementType) (V : View) (idx : List ℕ) : ℤ :=
  (V.data + V.mapping.call m T idx * E.size) % 2 ^ 64

end View

variable {m : DataModel} {T : IntegerType} {E : ElementType} {V : View}

/-! ## 2. Views in memory -/

namespace AnyMapping

/-- The mapping's own offset. -/
def offset : AnyMapping → ℤ
  | .standard _ => 0
  | .relaxed R => R.offset

/-- The place of an index, over the integers. -/
def position (idx : List ℕ) : AnyMapping → ℤ
  | .standard M => M.position idx
  | .relaxed R => R.offset + dot idx R.strides

/-- The preconditions of the mapping. -/
def Valid (m : DataModel) (T : IntegerType) : AnyMapping → Prop
  | .standard M => M.Valid m T
  | .relaxed R => R.strides.length = R.extents.length ∧ 0 ≤ R.offset ∧
      ∀ idx, Fits idx R.extents → 0 ≤ R.offset + dot idx R.strides ∧
        R.offset + dot idx R.strides < T.max m

end AnyMapping

/-- The view is in memory: its elements have addresses below the end of the address space. -/
structure View.Valid (m : DataModel) (T : IntegerType) (E : ElementType) (V : View) : Prop where
  mapping : V.mapping.Valid m T
  size_pos : 0 < E.size
  data_pos : 0 < V.data
  data_lt : V.data < 2 ^ 64
  memory : ∀ idx, Fits idx V.mapping.extents →
    V.data + (V.mapping.position idx + 1) * E.size ≤ 2 ^ 64

/-- `!empty()`. -/
def View.NonEmpty (V : View) : Prop := ∀ e ∈ V.mapping.extents, 0 < e

instance : Decidable V.NonEmpty := inferInstanceAs (Decidable (∀ e ∈ V.mapping.extents, 0 < e))

/-! ## 3. Places -/

theorem relaxed_call_sameResidue (R : Relaxed) (idx : List ℕ) :
    SameResidue m T (AnyMapping.call m T idx (.relaxed R)) (R.offset + dot idx R.strides) := by
  have hsum : ∀ (idx : List ℕ) (strides : List ℤ), SameResidue m T
      ((idx.zip strides).map fun p => T.staticCast m p.1 * T.staticCast m p.2).sum
      (dot idx strides) := by
    intro idx
    induction idx with
    | nil => exact fun _ => Int.ModEq.refl _
    | cons i is ih =>
      intro strides
      cases strides with
      | nil => exact Int.ModEq.refl _
      | cons s ss =>
        rw [List.zip_cons_cons, List.map_cons, List.sum_cons, dot_cons, nsmul_eq_mul]
        exact ((staticCast_sameResidue _).mul (staticCast_sameResidue _)).add (ih ss)
  exact (staticCast_sameResidue _).trans ((staticCast_sameResidue _).add (hsum idx R.strides))

theorem AnyMapping.call_eq {A : AnyMapping} (h : A.Valid m T) {idx : List ℕ}
    (hidx : Fits idx A.extents) : A.call m T idx = A.position idx := by
  cases A with
  | standard M => exact Mapping.call_eq h hidx
  | relaxed R =>
    obtain ⟨-, -, hinside⟩ := h
    obtain ⟨hnonneg, hlt⟩ := hinside idx hidx
    have hhas : T.Has m (R.offset + dot idx R.strides) := by
      rw [← Int.toNat_of_nonneg hnonneg] at hlt ⊢
      exact IntegerType.has_of_le (by exact_mod_cast hlt.le)
    have hcongr := staticCast_congr (relaxed_call_sameResidue (m := m) (T := T) R idx)
    rw [IntegerType.staticCast_of_has hhas] at hcongr
    rw [AnyMapping.position, ← hcongr]
    exact (staticCast_congr (staticCast_sameResidue _)).symm

/-! ## 4. Checks that throw -/

/-- `if (condition) throw invalid_argument(message)`. -/
def throwIf (p : Prop) [Decidable p] (message : String) : Except String Unit :=
  if p then .error message else .ok ()

section Checks

variable {α : Type}

theorem error_ne_ok {e : String} {x : α} : (Except.error e : Except String α) ≠ .ok x :=
  fun h => nomatch h

theorem throwIf_bind_eq_ok {p : Prop} [Decidable p] {message : String} {f : Unit → Except String α}
    {x : α} : (throwIf p message >>= f) = .ok x ↔ ¬ p ∧ f () = .ok x := by
  rw [throwIf]
  split
  · rename_i hp
    exact ⟨fun h => absurd h error_ne_ok, fun h => absurd hp h.1⟩
  · rename_i hp
    exact ⟨fun h => ⟨hp, h⟩, fun h => h.2⟩

theorem throwIf_eq_ok {p : Prop} [Decidable p] {message : String} :
    throwIf p message = .ok () ↔ ¬ p := by
  rw [throwIf]
  split
  · rename_i hp
    exact ⟨fun h => absurd h error_ne_ok, fun h => absurd hp h⟩
  · rename_i hp
    exact ⟨fun _ => hp, fun _ => rfl⟩

theorem bind_eq_ok {β : Type} {x : Except String α} {f : α → Except String β} {y : β} :
    (x >>= f) = .ok y ↔ ∃ a, x = .ok a ∧ f a = .ok y := by
  cases x with
  | error e => exact ⟨fun h => absurd h error_ne_ok, fun ⟨_, h, _⟩ => absurd h error_ne_ok⟩
  | ok a => exact ⟨fun h => ⟨a, rfl, h⟩, fun ⟨_, ha, h⟩ => Except.ok.inj ha ▸ h⟩

end Checks

end Cccl.Mdspan
