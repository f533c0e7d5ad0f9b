/-
# Layout mappings

A layout mapping takes a multi-index to a place in memory (`Mapping.call`), counted in the index type.
`layout_left` and `layout_right` compute it by a Horner scheme over the extents, `layout_stride` by
products with the strides it was given; all three answer `stride` and `required_span_size`.

All of this is arithmetic of the index type, which wraps around.  Over the natural numbers a mapping
has strides (`strides`), a place for each index (`position`) and a span (`span`).  For a mapping that
keeps the preconditions of its layout (`Mapping.Valid`) the arithmetic of the index type is exact
(`call_eq`, `requiredSpanSize_eq`).
-/
import Cccl.Lib.IntegerTypes
import Cccl.Lib.Strided
import Mathlib.Algebra.Order.BigOperators.GroupWithZero.List
import Mathlib.Algebra.Order.Ring.Nat
import Mathlib.Data.Int.ModEq

namespace Cccl.Mdspan

open IntegerTypes Strided MixedRadix

/-! ## 1. The mappings -/

inductive Layout
  | left
  | right
  | stride (strides : List ℤ)

/-- `layout::mapping<extents>`. -/
structure Mapping where
  layout : Layout
  extents : List ℕ

section Model

variable (m : DataModel) (T : IntegerType)

/-- `__s *= extent`. -/
def scale (s : ℤ) (extent : ℕ) : ℤ := T.staticCast m (s * extent)

/-- `__op_index` of `layout_left`, the last extent first. -/
def opIndexLeft (extents idx : List ℕ) : ℤ :=
  (idx.zip extents).foldr (fun p res => T.staticCast m (T.staticCast m p.1 + p.2 * res)) 0

/-- `__op_index` of `layout_right`. -/
def opIndexRight (extents idx : List ℕ) : ℤ :=
  (idx.zip extents).foldl (fun res p => T.staticCast m (T.staticCast m p.1 + p.2 * res)) 0

/-- `__op_index` of `layout_stride`. -/
def opIndexStride (strides : List ℤ) (idx : List ℕ) : ℤ :=
  T.staticCast m ((idx.zip strides).map fun p => T.staticCast m p.1 * p.2).sum

namespace Mapping

/-- `operator()`. -/
def call (M : Mapping) (idx : List ℕ) : ℤ :=
  match M.layout with
  | .left => opIndexLeft m T M.extents idx
  | .right => opIndexRight m T M.extents idx
  | .stride strides => opIndexStride m T strides idx

def stride (M : Mapping) (r : ℕ) : ℤ :=
  match M.layout with
  | .left => (M.extents.take r).foldl (scale m T) 1
  | .right => (M.extents.drop (r + 1)).foldr (fun e s => scale m T s e) 1
  | .stride strides => strides.getD r 0

def requiredSpanSize (M : Mapping) : ℤ :=
  match M.layout with
  | .left | .right => M.extents.foldl (scale m T) 1
  | .stride strides =>
    if T.staticCast m M.extents.prod = 0 then 0
    else T.staticCast m (1 + ((M.extents.zip strides).map fun p => ((p.1 : ℤ) - 1) * p.2).sum)

end Mapping

end Model

/-! ## 2. The mappings over the natural numbers -/

namespace Mapping

def strides (M : Mapping) : List ℕ :=
  match M.layout with
  | .left => leftStrides M.extents
  | .right => rightStrides M.extents
  | .stride strides => strides.map Int.toNat

/-- The place of an index. -/
def position (M : Mapping) (idx : List ℕ) : ℕ := dot idx M.strides

/-- The places of all indices are below it. -/
def span (M : Mapping) : ℕ :=
  if 0 ∈ M.extents then 0 else 1 + dot (lasts M.extents) M.strides

/-- The preconditions of a mapping: the span is representable, and a strided mapping has positive
strides that keep different indices apart.  A span of memory is counted in `size_t`. -/
structure Valid (m : DataModel) (T : IntegerType) (M : Mapping) : Prop where
  extent_le : ∀ e ∈ M.extents, e ≤ T.max m
  span_le : M.span ≤ T.max m
  span_lt : M.span < 2 ^ 64
  strided : ∀ strides, M.layout = .stride strides → strides.length = M.extents.length ∧
    (∀ s ∈ strides, 0 < s ∧ s ≤ T.max m) ∧
    ∀ i j, Fits i M.extents → Fits j M.extents → M.position i = M.position j → i = j

end Mapping

/-! ## 3. Arithmetic of the index type -/

variable {m : DataModel} {T : IntegerType}

/-- Equal up to a multiple of the range of the index type. -/
abbrev SameResidue (m : DataModel) (T : IntegerType) (v w : ℤ) : Prop := v ≡ w [ZMOD 2 ^ T.bits m]

theorem staticCast_sameResidue (v : ℤ) : SameResidue m T (T.staticCast m v) v :=
  (Int.modEq_iff_dvd.mpr (T.dvd_staticCast_sub v)).symm

theorem staticCast_congr {v w : ℤ} (h : SameResidue m T v w) : T.staticCast m v = T.staticCast m w := by
  have hmod : v % 2 ^ T.bits m = w % 2 ^ T.bits m := h
  have hcast : ((2 ^ T.bits m : ℕ) : ℤ) = 2 ^ T.bits m := Nat.cast_pow 2 _
  unfold IntegerType.staticCast
  split
  · rw [← Int.emod_bmod (x := v), ← Int.emod_bmod (x := w), hcast, hmod]
  · exact hmod

theorem staticCast_zero : T.staticCast m 0 = 0 :=
  IntegerType.staticCast_of_has (IntegerType.has_of_le (v := 0) (Nat.zero_le _))

theorem has_one : T.Has m 1 := by
  have hpos : 1 ≤ T.max m := by
    rw [IntegerType.max]
    have hdigits : 1 ≤ T.digits m := by
      obtain ⟨rank, signed⟩ := T
      cases m <;> cases rank <;> cases signed <;> decide
    have hpow := Nat.pow_le_pow_right (n := 2) (by decide) hdigits
    omega
  exact IntegerType.has_of_le (v := 1) hpos

theorem scale_cast (v : ℤ) (e : ℕ) :
    scale m T (T.staticCast m v) e = T.staticCast m (v * e) :=
  staticCast_congr ((staticCast_sameResidue v).mul_right e)

theorem foldl_scale : ∀ (es : List ℕ) (v : ℤ),
    es.foldl (scale m T) (T.staticCast m v) = T.staticCast m (v * es.prod)
  | [], v => by rw [List.foldl_nil, List.prod_nil, Nat.cast_one, mul_one]
  | e :: es, v => by
    rw [List.foldl_cons, scale_cast, foldl_scale es, List.prod_cons, Nat.cast_mul, mul_assoc]

theorem foldl_scale_one (es : List ℕ) : es.foldl (scale m T) 1 = T.staticCast m es.prod := by
  have h := foldl_scale (m := m) (T := T) es 1
  rwa [IntegerType.staticCast_of_has has_one, one_mul] at h

theorem foldr_scale_one (es : List ℕ) :
    es.foldr (fun e s => scale m T s e) 1 = T.staticCast m es.prod := by
  have h := foldl_scale_one (m := m) (T := T) es.reverse
  rwa [List.foldl_reverse, List.prod_reverse] at h

theorem opIndexLeft_eq : ∀ extents idx : List ℕ,
    opIndexLeft m T extents idx = T.staticCast m (ofDigits extents idx)
  | [], idx => by cases idx <;> exact staticCast_zero.symm
  | _ :: _, [] => staticCast_zero.symm
  | e :: es, i :: is => by
    have ih := opIndexLeft_eq es is
    have hstep : opIndexLeft m T (e :: es) (i :: is) =
        T.staticCast m (T.staticCast m i + e * opIndexLeft m T es is) := rfl
    rw [hstep, ih, ofDigits, Nat.cast_add, Nat.cast_mul]
    exact staticCast_congr
      ((staticCast_sameResidue _).add ((staticCast_sameResidue _).mul_left _))

theorem opIndexRight_eq {extents idx : List ℕ} (h : idx.length = extents.length) :
    opIndexRight m T extents idx = T.staticCast m (dot idx (rightStrides extents) : ℕ) := by
  have hreverse : idx.reverse.zip extents.reverse = (idx.zip extents).reverse :=
    (List.reverse_zipWith h).symm
  rw [← ofDigits_reverse_eq_dot h, ← opIndexLeft_eq, opIndexLeft, hreverse, List.foldr_reverse]
  rfl

theorem opIndexStride_eq {strides : List ℤ} {ss : List ℕ}
    (h : List.Forall₂ (fun v (s : ℕ) => SameResidue m T v s) strides ss) (idx : List ℕ) :
    opIndexStride m T strides idx = T.staticCast m (dot idx ss : ℕ) := by
  refine staticCast_congr ?_
  induction h generalizing idx with
  | nil => cases idx <;> exact Int.ModEq.refl _
  | cons hs _ ih =>
    cases idx with
    | nil => exact Int.ModEq.refl _
    | cons i is =>
      rw [List.zip_cons_cons, List.map_cons, List.sum_cons, dot_cons, smul_eq_mul, Nat.cast_add,
        Nat.cast_mul]
      exact ((staticCast_sameResidue _).mul hs).add (ih is)

/-! ## 4. A mapping by its strides -/

/-- A mapping computes with these strides, up to the range of the index type. -/
structure HasStrides (m : DataModel) (T : IntegerType) (M : Mapping) (ss : List ℕ) : Prop where
  length : ss.length = M.extents.length
  call : ∀ idx, idx.length = M.extents.length → M.call m T idx = T.staticCast m (dot idx ss : ℕ)
  span : (∀ e ∈ M.extents, 0 < e) → M.extents.prod ≤ T.max m →
    M.requiredSpanSize m T = T.staticCast m ((1 + dot (lasts M.extents) ss : ℕ) : ℤ)
  span_zero : 0 ∈ M.extents → M.requiredSpanSize m T = 0

theorem staticCast_prod_zero {es : List ℕ} (h : 0 ∈ es) : T.staticCast m (es.prod : ℕ) = 0 := by
  rw [List.prod_eq_zero h]
  exact staticCast_zero

theorem left_hasStrides (extents : List ℕ) :
    HasStrides m T ⟨.left, extents⟩ (leftStrides extents) where
  length := length_leftStrides extents
  call idx h := by
    rw [← ofDigits_eq_dot h]
    exact opIndexLeft_eq extents idx
  span hpos _ := by
    rw [← prod_eq_dot_left hpos]
    exact foldl_scale_one extents
  span_zero h := (foldl_scale_one extents).trans (staticCast_prod_zero h)

theorem right_hasStrides (extents : List ℕ) :
    HasStrides m T ⟨.right, extents⟩ (rightStrides extents) where
  length := length_rightStrides extents
  call idx h := opIndexRight_eq h
  span hpos _ := by
    rw [← prod_eq_dot_right hpos]
    exact foldl_scale_one extents
  span_zero h := (foldl_scale_one extents).trans (staticCast_prod_zero h)

theorem sum_lasts_sameResidue {strides : List ℤ} {ss : List ℕ}
    (h : List.Forall₂ (fun v (s : ℕ) => SameResidue m T v s) strides ss) :
    ∀ {extents : List ℕ}, (∀ e ∈ extents, 0 < e) →
      SameResidue m T ((extents.zip strides).map fun p => ((p.1 : ℤ) - 1) * p.2).sum
        (dot (lasts extents) ss : ℕ) := by
  induction h with
  | nil => intro extents _; cases extents <;> exact Int.ModEq.refl _
  | cons hs _ ih =>
    intro extents hpos
    cases extents with
    | nil => exact Int.ModEq.refl _
    | cons e es =>
      have hone : 1 ≤ e := hpos e List.mem_cons_self
      rw [List.zip_cons_cons, List.map_cons, List.sum_cons, lasts_cons, dot_cons, smul_eq_mul,
        Nat.cast_add, Nat.cast_mul, Nat.cast_sub hone, Nat.cast_one]
      exact ((Int.ModEq.refl _).mul hs).add (ih fun e' he' => hpos e' (List.mem_cons_of_mem _ he'))

theorem stride_hasStrides {extents : List ℕ} {strides : List ℤ} {ss : List ℕ}
    (hlength : ss.length = extents.length)
    (h : List.Forall₂ (fun v (s : ℕ) => SameResidue m T v s) strides ss) :
    HasStrides m T ⟨.stride strides, extents⟩ ss where
  length := hlength
  call idx _ := opIndexStride_eq h idx
  span hpos hprod := by
    have hne : extents.prod ≠ 0 := (List.prod_pos hpos).ne'
    have hcast : T.staticCast m (extents.prod : ℕ) ≠ 0 := by
      rw [IntegerType.staticCast_of_has (IntegerType.has_of_le hprod)]
      exact_mod_cast hne
    have hspan : Mapping.requiredSpanSize m T ⟨.stride strides, extents⟩ = _ := if_neg hcast
    rw [hspan, Nat.cast_add]
    exact staticCast_congr ((Int.ModEq.refl _).add (sum_lasts_sameResidue h hpos))
  span_zero h := if_pos (staticCast_prod_zero h)

/-! ## 5. Valid mappings are exact -/

namespace Mapping

variable {M : Mapping}

theorem sameResidue_toNat {strides : List ℤ} (h : ∀ s ∈ strides, 0 < s) :
    List.Forall₂ (fun v (s : ℕ) => SameResidue m T v s) strides (strides.map Int.toNat) := by
  induction strides with
  | nil => exact .nil
  | cons s strides ih =>
    obtain ⟨hs, hrest⟩ := List.forall_mem_cons.mp h
    refine .cons ?_ (ih hrest)
    rw [Int.toNat_of_nonneg hs.le]

theorem Valid.hasStrides (h : M.Valid m T) : HasStrides m T M M.strides := by
  obtain ⟨layout, extents⟩ := M
  cases layout with
  | left => exact left_hasStrides extents
  | right => exact right_hasStrides extents
  | stride strides =>
    obtain ⟨hlength, hpos, -⟩ := h.strided strides rfl
    exact stride_hasStrides (List.length_map (Int.toNat) |>.trans hlength)
      (sameResidue_toNat fun s hs => (hpos s hs).1)

theorem position_lt_span {idx : List ℕ} (h : Fits idx M.extents) : M.position idx < M.span := by
  have hpos := Fits.pos h
  have hzero : ¬ 0 ∈ M.extents := fun hmem => absurd (hpos 0 hmem) (Nat.lt_irrefl 0)
  have hle := dot_mono (fits_le_lasts h) M.strides
  rw [span, if_neg hzero, position]
  omega

/-- **Inside the extents the arithmetic of the index type is exact.** -/
theorem call_eq (h : M.Valid m T) {idx : List ℕ} (hidx : Fits idx M.extents) :
    M.call m T idx = M.position idx := by
  have hlt := position_lt_span hidx
  have hle := h.span_le
  rw [h.hasStrides.call idx hidx.length_eq, ← position]
  exact IntegerType.staticCast_of_has (IntegerType.has_of_le (by omega))

/-- **Different indices have different places.** -/
theorem position_injective (h : M.Valid m T) {i j : List ℕ} (hi : Fits i M.extents)
    (hj : Fits j M.extents) (heq : M.position i = M.position j) : i = j := by
  obtain ⟨layout, extents⟩ := M
  cases layout with
  | left =>
    rw [position, position, strides, ← ofDigits_eq_dot hi.length_eq, ← ofDigits_eq_dot hj.length_eq]
      at heq
    rw [← digits_ofDigits hi, heq, digits_ofDigits hj]
  | right =>
    rw [position, position, strides, ← ofDigits_reverse_eq_dot hi.length_eq,
      ← ofDigits_reverse_eq_dot hj.length_eq] at heq
    have hreverse : i.reverse = j.reverse := by
      rw [← digits_ofDigits (List.rel_reverse hi), heq, digits_ofDigits (List.rel_reverse hj)]
    exact List.reverse_injective hreverse
  | stride strides =>
    obtain ⟨-, -, hinj⟩ := h.strided strides rfl
    exact hinj i j hi hj heq

theorem prod_le_span (h : M.Valid m T) : M.extents.prod ≤ M.span :=
  prod_le_of_injective _ (fun _ hi => position_lt_span hi) fun _ _ hi hj => position_injective h hi hj

theorem requiredSpanSize_eq (h : M.Valid m T) : M.requiredSpanSize m T = M.span := by
  have hprod := prod_le_span h
  have hle := h.span_le
  unfold span at hprod hle ⊢
  split at hprod
  · rename_i hzero
    rw [if_pos hzero, h.hasStrides.span_zero hzero, Nat.cast_zero]
  · rename_i hzero
    have hpos : ∀ e ∈ M.extents, 0 < e := fun e he => Nat.pos_of_ne_zero fun h0 => hzero (h0 ▸ he)
    rw [if_neg hzero] at hle ⊢
    rw [h.hasStrides.span hpos (hprod.trans hle)]
    exact IntegerType.staticCast_of_has (IntegerType.has_of_le hle)

end Mapping

/-- The strides of a mapping, up to the range of the index type. -/
theorem stride_sameResidue {M : Mapping} (h : M.Valid m T) : List.Forall₂ (fun v (s : ℕ) => SameResidue m T v s)
    ((List.range M.extents.length).map (M.stride m T)) M.strides := by
  obtain ⟨layout, extents⟩ := M
  cases layout with
  | left =>
    rw [Mapping.strides, leftStrides_eq_range, List.forall₂_map_left_iff, List.forall₂_map_right_iff,
      List.forall₂_same]
    intro r _
    rw [Mapping.stride, foldl_scale_one]
    exact staticCast_sameResidue _
  | right =>
    rw [Mapping.strides, rightStrides_eq_range, List.forall₂_map_left_iff,
      List.forall₂_map_right_iff, List.forall₂_same]
    intro r _
    rw [Mapping.stride, foldr_scale_one]
    exact staticCast_sameResidue _
  | stride strides =>
    obtain ⟨hlength, hpos, -⟩ := h.strided strides rfl
    have hlist : (List.range extents.length).map (fun r => strides.getD r 0) = strides := by
      rw [← hlength]
      refine List.ext_getElem (by simp) fun i hi _ => ?_
      rw [List.length_map, List.length_range] at hi
      simp [hi]
    have hstrides : (List.range extents.length).map
        (Mapping.stride m T ⟨.stride strides, extents⟩) = strides := hlist
    rw [hstrides]
    exact Mapping.sameResidue_toNat fun s hs => (hpos s hs).1

end Cccl.Mdspan
