/-
# Slices of a multi-dimensional view

`submdspan_mapping` takes a mapping and one slice for each of its extents: an integer drops the extent,
a pair, `full_extent` or a `strided_slice` keeps a part of it.  The result is a mapping of what is left
and an offset (`submdspanMapping`).  The layout of the result depends on the kinds of the slices only
(`canLayoutLeft`, `canLayoutRight`); where neither fits, it is `layout_stride` with the strides of the
kept extents, times the strides of the slices.

The offset is the place of the first indices.  A slice may begin at the end of its extent, when it is
empty; the first indices are outside the mapping then.  The loop of `__submdspan_offset` looks for such
a slice, and answers the whole span; it looks at the first extents only, as many as the result has.
-/
import Cccl.Mdspan.Layout

namespace Cccl.Mdspan

open IntegerTypes Strided MixedRadix

/-! ## 1. Slices -/

/-- A slice specifier.  Whether the stride of a `strided_slice` is an integral constant is part of its
type. -/
inductive Slice
  | index (i : ℕ)
  | pair (first last : ℕ)
  | full
  | strided (offset extent stride : ℕ) (strideConstant : Bool)
  deriving DecidableEq

namespace Slice

/-- `convertible_to<_SliceType, _IndexType>`. -/
def isIndex : Slice → Bool
  | .index _ => true
  | _ => false

/-- `is_convertible_v<_SliceType, full_extent_t>`. -/
def isFullExtent : Slice → Bool
  | .full => true
  | _ => false

/-- `__is_unit_stride_slice`. -/
def isUnitStride : Slice → Bool
  | .strided _ _ stride strideConstant => strideConstant && stride == 1
  | .pair _ _ => true
  | .full => true
  | .index _ => false

/-- `__first_extent_from_slice`. -/
def firstExtent : Slice → ℕ
  | .index i => i
  | .pair first _ => first
  | .strided offset _ _ _ => offset
  | .full => 0

/-- `__last_extent_from_slice`. -/
def lastExtent (extent : ℕ) : Slice → ℕ
  | .index i => i + 1
  | .pair _ last => last
  | .strided offset x _ _ => offset * x
  | .full => extent

/-- `__get_dynamic_subextents`.  The static extents have the same values. -/
def subextent (extent : ℕ) : Slice → ℕ
  | .strided _ x stride _ => if x = 0 then 0 else 1 + (x - 1) / stride
  | s => s.lastExtent extent - s.firstExtent

/-- The slice is valid for its extent. -/
def Valid (extent : ℕ) : Slice → Prop
  | .index i => i < extent
  | .pair first last => first ≤ last ∧ last ≤ extent
  | .full => True
  | .strided offset x stride _ => offset + x ≤ extent ∧ (x = 0 ∨ 0 < stride)

instance (extent : ℕ) : (s : Slice) → Decidable (s.Valid extent)
  | .index _ => inferInstanceAs (Decidable (_ < _))
  | .pair _ _ => inferInstanceAs (Decidable (_ ∧ _))
  | .full => inferInstanceAs (Decidable True)
  | .strided _ _ _ _ => inferInstanceAs (Decidable (_ ∧ (_ ∨ _)))

end Slice

/-! ## 2. The mapping of the slices -/

/-- The number of extents that are left, `_SubExtents::rank()`. -/
def subrank (slices : List Slice) : ℕ := slices.countP fun s => !s.isIndex

def submdspanExtents (extents : List ℕ) (slices : List Slice) : List ℕ :=
  ((extents.zip slices).filter fun p => !p.2.isIndex).map fun p => p.2.subextent p.1

def canLayoutLeft (slices : List Slice) : Bool :=
  subrank slices == 0 ||
    (slices[subrank slices - 1]?.any Slice.isUnitStride &&
      (slices.take (subrank slices - 1)).all Slice.isFullExtent)

def canLayoutRight (slices : List Slice) : Bool :=
  subrank slices == 0 ||
    (slices[slices.length - subrank slices]?.any Slice.isUnitStride &&
      (slices.drop (slices.length - subrank slices + 1)).all Slice.isFullExtent)

structure SubmdspanMappingResult where
  mapping : Mapping
  offset : ℤ

section Model

variable (m : DataModel) (T : IntegerType)

/-- `static_cast<size_t>`. -/
def toSize (v : ℤ) : ℤ := v % 2 ^ 64

/-- `__get_submdspan_strides`, from the stride of the mapping. -/
def getSubmdspanStrides (stride : ℤ) : Slice → ℤ
  | .strided _ x sliceStride _ =>
    T.staticCast m (stride * ((if sliceStride < x then sliceStride else 1 : ℕ) : ℤ))
  | _ => T.staticCast m stride

def submdspanStrides (M : Mapping) (slices : List Slice) : List ℤ :=
  ((((List.range M.extents.length).map (M.stride m T)).zip slices).filter fun p => !p.2.isIndex).map
    fun p => getSubmdspanStrides m T p.1 p.2

/-- Some slice begins at the end of its extent, as far as the loop of `__submdspan_offset` looks. -/
def findsEnd (extents : List ℕ) (slices : List Slice) : Bool :=
  (((slices.map Slice.firstExtent).zip extents).take (subrank slices)).any fun p => p.1 == p.2

def submdspanOffset (M : Mapping) (slices : List Slice) : ℤ :=
  if findsEnd M.extents slices then toSize (M.requiredSpanSize m T)
  else toSize (M.call m T (slices.map Slice.firstExtent))

def submdspanMapping (M : Mapping) (slices : List Slice) : SubmdspanMappingResult :=
  if M.extents.length = 0 then ⟨M, 0⟩
  else
    let subExt := submdspanExtents M.extents slices
    let offset := submdspanOffset m T M slices
    match M.layout with
    | .left =>
      if canLayoutLeft slices then ⟨⟨.left, subExt⟩, offset⟩
      else ⟨⟨.stride (submdspanStrides m T M slices), subExt⟩, offset⟩
    | .right =>
      if canLayoutRight slices then ⟨⟨.right, subExt⟩, offset⟩
      else ⟨⟨.stride (submdspanStrides m T M slices), subExt⟩, offset⟩
    | .stride _ => ⟨⟨.stride (submdspanStrides m T M slices), subExt⟩, offset⟩

end Model

/-! ## 3. What the slices denote -/

/-- The index in the extent for an index in the slice. -/
def Slice.place (j : ℕ) : Slice → ℕ
  | .index i => i
  | .pair first _ => first + j
  | .full => j
  | .strided offset _ stride _ => offset + j * stride

/-- The index of the mapping that an index of the slices denotes. -/
def denote : List Slice → List ℕ → List ℕ
  | [], _ => []
  | .index i :: ss, js => i :: denote ss js
  | _ :: _, [] => []
  | s :: ss, j :: js => s.place j :: denote ss js

/-- How many places of the extent one step in the slice is.  A slice with a stride of at least its
extent has one element, and no steps. -/
def Slice.factor : Slice → ℕ
  | .strided _ x stride _ => if stride < x then stride else 1
  | _ => 1

/-- The strides of the kept extents, over the natural numbers. -/
def subStrides : List Slice → List ℕ → List ℕ
  | s :: ss, k :: ks =>
    if s.isIndex then subStrides ss ks else k * s.factor :: subStrides ss ks
  | _, _ => []

/-- The slices are valid for the extents. -/
abbrev ValidSlices (extents : List ℕ) (slices : List Slice) : Prop :=
  List.Forall₂ (fun e (s : Slice) => s.Valid e) extents slices

theorem submdspanExtents_cons {s : Slice} (h : s.isIndex = false) (e : ℕ) (es : List ℕ)
    (ss : List Slice) :
    submdspanExtents (e :: es) (s :: ss) = s.subextent e :: submdspanExtents es ss := by
  cases s with
  | index i => exact Bool.noConfusion h
  | pair first last => rfl
  | full => rfl
  | strided offset x stride strideConstant => rfl

theorem denote_cons {s : Slice} (h : s.isIndex = false) (ss : List Slice) (j : ℕ) (js : List ℕ) :
    denote (s :: ss) (j :: js) = s.place j :: denote ss js := by
  cases s with
  | index i => exact Bool.noConfusion h
  | pair first last => rfl
  | full => rfl
  | strided offset x stride strideConstant => rfl

theorem subStrides_cons {s : Slice} (h : s.isIndex = false) (ss : List Slice) (k : ℕ)
    (ks : List ℕ) : subStrides (s :: ss) (k :: ks) = k * s.factor :: subStrides ss ks := by
  rw [subStrides, h, if_neg Bool.false_ne_true]

theorem Slice.strided_lt {offset x stride e j : ℕ} {strideConstant : Bool}
    (hj : j < (Slice.strided offset x stride strideConstant).subextent e) :
    0 < x ∧ j * stride ≤ x - 1 := by
  have hlt : j < if x = 0 then 0 else 1 + (x - 1) / stride := hj
  split at hlt
  · exact absurd hlt (Nat.not_lt_zero j)
  · have hle : j ≤ (x - 1) / stride := by omega
    exact ⟨by omega, (Nat.mul_le_mul_right stride hle).trans (Nat.div_mul_le_self _ _)⟩

theorem Slice.place_lt {s : Slice} {e j : ℕ} (h : s.Valid e) (hindex : s.isIndex = false)
    (hj : j < s.subextent e) : s.place j < e := by
  cases s with
  | index i => exact Bool.noConfusion hindex
  | pair first last =>
    have hlast : last ≤ e := h.2
    have hlt : j < last - first := hj
    change first + j < e
    omega
  | full => exact hj
  | strided offset x stride strideConstant =>
    have hend : offset + x ≤ e := h.1
    obtain ⟨hx, hle⟩ := Slice.strided_lt hj
    change offset + j * stride < e
    omega

/-- One step in the slice is `factor` places. -/
theorem Slice.place_eq {s : Slice} {e j : ℕ} (hindex : s.isIndex = false)
    (hj : j < s.subextent e) : s.place j = s.firstExtent + j * s.factor := by
  cases s with
  | index i => exact Bool.noConfusion hindex
  | pair first last => exact congrArg (first + ·) (Nat.mul_one j).symm
  | full => exact (Nat.zero_add _).symm.trans (congrArg (0 + ·) (Nat.mul_one j).symm)
  | strided offset x stride strideConstant =>
    obtain ⟨hx, hle⟩ := Slice.strided_lt hj
    rw [factor, place, firstExtent]
    split
    · rfl
    · rename_i hstride
      -- the second element would be outside
      have hzero : j = 0 := by
        by_contra hne
        have hmul := Nat.mul_le_mul_right stride (Nat.one_le_iff_ne_zero.mpr hne)
        omega
      rw [hzero, Nat.zero_mul, Nat.zero_mul]

theorem Slice.place_injective {s : Slice} {e i j : ℕ} (h : s.Valid e) (hindex : s.isIndex = false)
    (hi : i < s.subextent e) (heq : s.place i = s.place j) : i = j := by
  cases s with
  | index i => exact Bool.noConfusion hindex
  | pair first last => exact Nat.add_left_cancel heq
  | full => exact heq
  | strided offset x stride strideConstant =>
    obtain ⟨hx, -⟩ := Slice.strided_lt hi
    have hpos : 0 < stride := h.2.resolve_left hx.ne'
    have hmul : i * stride = j * stride := Nat.add_left_cancel heq
    exact Nat.eq_of_mul_eq_mul_right hpos hmul

theorem denote_fits {extents : List ℕ} {slices : List Slice} (h : ValidSlices extents slices) :
    ∀ {js : List ℕ}, Fits js (submdspanExtents extents slices) → Fits (denote slices js) extents := by
  induction h with
  | nil => exact fun _ => .nil
  | @cons e s es ss hs _ ih =>
    intro js hjs
    cases hindex : s.isIndex with
    | true =>
      cases s with
      | index i => exact .cons hs (ih hjs)
      | _ => exact Bool.noConfusion hindex
    | false =>
      rw [submdspanExtents_cons hindex] at hjs
      cases hjs with
      | cons hj hrest =>
        rw [denote_cons hindex]
        exact .cons (Slice.place_lt hs hindex hj) (ih hrest)

theorem denote_injective {extents : List ℕ} {slices : List Slice} (h : ValidSlices extents slices) :
    ∀ {is js : List ℕ}, Fits is (submdspanExtents extents slices) →
      Fits js (submdspanExtents extents slices) → denote slices is = denote slices js → is = js := by
  induction h with
  | nil => rintro _ _ ⟨⟩ ⟨⟩ _; rfl
  | @cons e s es ss hs _ ih =>
    intro is js his hjs heq
    cases hindex : s.isIndex with
    | true =>
      cases s with
      | index i => exact ih his hjs (List.cons.inj heq).2
      | _ => exact Bool.noConfusion hindex
    | false =>
      rw [submdspanExtents_cons hindex] at his hjs
      cases his with
      | cons hi his =>
        cases hjs with
        | cons hj hjs =>
          rw [denote_cons hindex, denote_cons hindex] at heq
          obtain ⟨hhead, htail⟩ := List.cons.inj heq
          rw [Slice.place_injective hs hindex hi hhead, ih his hjs htail]

/-- **The strides of the result**: the place of a denoted index is the place of the first indices, and
the strides of the result from there. -/
theorem dot_denote {extents : List ℕ} {slices : List Slice} (h : ValidSlices extents slices) :
    ∀ {js ks : List ℕ}, Fits js (submdspanExtents extents slices) → ks.length = extents.length →
      dot (denote slices js) ks =
        dot (slices.map Slice.firstExtent) ks + dot js (subStrides slices ks) := by
  induction h with
  | nil => rintro _ ks ⟨⟩ _; rfl
  | @cons e s es ss hs _ ih =>
    intro js ks hjs hks
    cases ks with
    | nil => exact absurd hks (Nat.succ_ne_zero _).symm
    | cons k ks =>
      have hlength : ks.length = es.length := Nat.succ.inj hks
      cases hindex : s.isIndex with
      | true =>
        cases s with
        | index i =>
          have ih' := ih hjs hlength
          rw [denote, List.map_cons, dot_cons, dot_cons, ih', Nat.add_assoc]
          rfl
        | _ => exact Bool.noConfusion hindex
      | false =>
        rw [submdspanExtents_cons hindex] at hjs
        cases hjs with
        | @cons j _ js _ hj hjs =>
          have ih' := ih hjs hlength
          rw [denote_cons hindex, subStrides_cons hindex, List.map_cons, dot_cons, dot_cons, dot_cons,
            ih', Slice.place_eq hindex hj, smul_eq_mul, smul_eq_mul, smul_eq_mul, Nat.add_mul,
            Nat.mul_assoc, Nat.mul_comm s.factor k]
          omega

end Cccl.Mdspan
