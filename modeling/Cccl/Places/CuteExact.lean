/-
# An accepted partition is a bijection, if its constructor has not overflowed

The element with a local index of a place has a digit for each leaf: along the leaves of places those of
the position of the place in the grid, along the other leaves those of the local index
(`elementDigits`).  Since the leaves tile the padded space, every element of it belongs to just one place
and one local index, and the place is the one that `owner` finds from the element
(`isPartition_of_noOverflow`).

The constructor computes the product of the extents modulo `2 ^ 64`.  It accepts leaves that have more
elements than the padded space, if the product is the same modulo `2 ^ 64`, and their elements are then
enumerated again and again (`not_isPartition`).
-/
import Cccl.Places.CuteValid

namespace Cccl.Places

open MixedRadix

/-! ## 1. Coordinates -/

/-- The position with these coordinates. -/
def Pos4.ofCoords (coords : List ℕ) : Pos4 :=
  ⟨coords.getD 0 0, coords.getD 1 0, coords.getD 2 0, coords.getD 3 0⟩

/-- The coordinates are within the bounds. -/
def InRegion (rank : ℕ) (lo hi : ℕ → ℕ) (coords : List ℕ) : Prop :=
  coords.length = rank ∧ ∀ d < rank, lo d ≤ coords.getD d 0 ∧ coords.getD d 0 < hi d

/-- The extents of the first dimensions. -/
def Dim4.firstDims (d : Dim4) (rank : ℕ) : List ℕ := (List.range rank).map d.get

theorem Dim4.getIndex_ofCoords (d : Dim4) : ∀ {coords : List ℕ}, coords.length ≤ 4 →
    d.getIndex (.ofCoords coords) = sizeT (ofDigits (d.firstDims coords.length) coords)
  | [], _ => by simp [getIndex, Pos4.ofCoords, ofDigits]
  | [a], _ => by simp [getIndex, Pos4.ofCoords, firstDims, ofDigits, get]
  | [a, b], _ => by
    simp [getIndex, Pos4.ofCoords, firstDims, ofDigits, get, List.range_succ]
  | [a, b, c], _ => by
    simp [getIndex, Pos4.ofCoords, firstDims, ofDigits, get, List.range_succ]
  | [a, b, c, e], _ => by
    simp [getIndex, Pos4.ofCoords, firstDims, ofDigits, get, List.range_succ, Nat.mul_comm]

theorem range_filter_lt : ∀ {rank : ℕ}, rank ≤ 4 →
    (List.range 4).filter (fun d => d < rank) = List.range rank
  | 0, _ => rfl
  | 1, _ => rfl
  | 2, _ => rfl
  | 3, _ => rfl
  | 4, _ => rfl

theorem Dim4.firstDims_prod (d : Dim4) {rank : ℕ} (hrank : rank ≤ 4)
    (h : ∀ a, rank ≤ a → a < 4 → d.get a = 1) :
    (d.firstDims rank).prod = d.x * d.y * d.z * d.t := by
  rw [firstDims, ← range_filter_lt hrank, prod_map_filter, prod_get]
  intro a ha hge
  exact h a (Nat.not_lt.mp hge) (List.mem_range.mp ha)

theorem Dim4.toDigits (d : Dim4) {index : ℕ} (h : index < d.x * d.y * d.z * d.t) :
    digits [d.x, d.y, d.z, d.t] index =
      [(d.indexToPos index).x, (d.indexToPos index).y, (d.indexToPos index).z,
        (d.indexToPos index).t] := by
  have hlast : index / d.x / d.y / d.z < d.t := by
    rw [Nat.div_div_eq_div_mul, Nat.div_div_eq_div_mul]
    refine Nat.div_lt_of_lt_mul ?_
    rwa [← Nat.mul_assoc]
  simp only [digits, indexToPos, Nat.mod_eq_of_lt hlast]

theorem Dim4.get_indexToPos_lt (d : Dim4) (hpos : ∀ a < 4, 0 < d.get a) {index : ℕ}
    (h : index < d.x * d.y * d.z * d.t) {a : ℕ} (ha : a < 4) :
    (d.indexToPos index).get a < d.get a := by
  have hfits : Fits (digits [d.x, d.y, d.z, d.t] index) [d.x, d.y, d.z, d.t] := by
    refine digits_fits index fun r hr => ?_
    simp only [List.mem_cons, List.not_mem_nil, or_false] at hr
    rcases hr with rfl | rfl | rfl | rfl
    · exact hpos 0 (by omega)
    · exact hpos 1 (by omega)
    · exact hpos 2 (by omega)
    · exact hpos 3 (by omega)
  rw [d.toDigits h] at hfits
  simp only [List.forall₂_cons, List.forall₂_nil_left_iff, and_true] at hfits
  match a, ha with
  | 0, _ => exact hfits.1
  | 1, _ => exact hfits.2.1
  | 2, _ => exact hfits.2.2.1
  | 3, _ => exact hfits.2.2.2

theorem Dim4.indexToPos_injective (d : Dim4) {i j : ℕ} (hi : i < d.x * d.y * d.z * d.t)
    (hj : j < d.x * d.y * d.z * d.t)
    (h : ∀ a < 4, (d.indexToPos i).get a = (d.indexToPos j).get a) : i = j := by
  have hprod : [d.x, d.y, d.z, d.t].prod = d.x * d.y * d.z * d.t := by
    simp only [List.prod_cons, List.prod_nil, Nat.mul_one, Nat.mul_assoc]
  refine digits_injective (hi.trans_eq hprod.symm) (hj.trans_eq hprod.symm) ?_
  have hx : (d.indexToPos i).x = (d.indexToPos j).x := h 0 (by omega)
  have hy : (d.indexToPos i).y = (d.indexToPos j).y := h 1 (by omega)
  have hz : (d.indexToPos i).z = (d.indexToPos j).z := h 2 (by omega)
  have ht : (d.indexToPos i).t = (d.indexToPos j).t := h 3 (by omega)
  rw [d.toDigits hi, d.toDigits hj, hx, hy, hz, ht]

theorem Dim4.exists_indexToPos (d : Dim4) {p : Pos4} (hp : ∀ a < 4, p.get a < d.get a) :
    ∃ index < d.x * d.y * d.z * d.t, d.indexToPos index = p := by
  have hprod : [d.x, d.y, d.z, d.t].prod = d.x * d.y * d.z * d.t := by
    simp only [List.prod_cons, List.prod_nil, Nat.mul_one, Nat.mul_assoc]
  have hfits : Fits [p.x, p.y, p.z, p.t] [d.x, d.y, d.z, d.t] :=
    .cons (hp 0 (by omega)) (.cons (hp 1 (by omega)) (.cons (hp 2 (by omega))
      (.cons (hp 3 (by omega)) .nil)))
  have hlt := (ofDigits_lt hfits).trans_eq hprod
  refine ⟨_, hlt, ?_⟩
  have hdigits := digits_ofDigits hfits
  rw [d.toDigits hlt] at hdigits
  simp only [List.cons.injEq, and_true] at hdigits
  obtain ⟨hx, hy, hz, ht⟩ := hdigits
  obtain ⟨x, y, z, t⟩ := p
  cases hpos : d.indexToPos (ofDigits [d.x, d.y, d.z, d.t] [x, y, z, t]) with
  | mk x' y' z' t' =>
    rw [hpos] at hx hy hz ht
    simp only at hx hy hz ht
    rw [hx, hy, hz, ht]

/-! ## 2. The digits of an element -/

theorem localToLinear_eq : ∀ (ls : List LayoutLeaf) (index linear : ℕ), linear < 2 ^ 64 →
    localToLinear ls index linear =
      sizeT (linear + value (leafDigits (ls.map LayoutLeaf.toLeaf) index))
  | [], _, linear, h => by
    rw [localToLinear, List.map_nil, leafDigits, value, List.map_nil, List.sum_nil, Nat.add_zero,
      sizeT_of_lt h]
  | l :: ls, index, linear, _ => by
    rw [localToLinear, localToLinear_eq ls _ _ (sizeT_lt _), List.map_cons, leafDigits, value_cons,
      sizeT, sizeT, sizeT, Nat.mod_add_mod, Nat.add_assoc]
    rfl

theorem foldl_offset (gridCoords : Pos4) : ∀ (ps : List (LayoutLeaf × ℤ)) (offset : ℕ),
    offset < 2 ^ 64 →
    ps.foldl (fun offset p => sizeT (offset + gridCoords.get p.2.toNat * p.1.size)) offset =
      sizeT (offset + value (ps.map fun p => (p.1.toLeaf, gridCoords.get p.2.toNat)))
  | [], offset, h => by
    rw [List.foldl_nil, List.map_nil, value, List.map_nil, List.sum_nil, Nat.add_zero,
      sizeT_of_lt h]
  | p :: ps, offset, _ => by
    rw [List.foldl_cons, foldl_offset gridCoords ps _ (sizeT_lt _), List.map_cons, value_cons,
      sizeT, sizeT, sizeT, Nat.mod_add_mod, Nat.add_assoc]
    rfl

namespace CutePartitionDescriptor

variable {D : CutePartitionDescriptor}

/-- The digits of a position for the leaves of places. -/
def placeDigits (D : CutePartitionDescriptor) (position : Pos4) : List (Leaf × ℕ) :=
  (D.placeLeaves.zip D.placeAxes).map fun p => (p.1.toLeaf, position.get p.2.toNat)

/-- The digits of a local index for the other leaves. -/
def localDigits (D : CutePartitionDescriptor) (index : ℕ) : List (Leaf × ℕ) :=
  leafDigits (D.localLeaves.map LayoutLeaf.toLeaf) index

/-- All digits of an element. -/
def elementDigits (D : CutePartitionDescriptor) (place index : ℕ) : List (Leaf × ℕ) :=
  D.placeDigits (D.gridDims.indexToPos place) ++ D.localDigits index

/-- The number of places of the grid. -/
def gridSize (D : CutePartitionDescriptor) : ℕ :=
  D.gridDims.x * D.gridDims.y * D.gridDims.z * D.gridDims.t

/-- The number of elements of a place. -/
def localSize (D : CutePartitionDescriptor) : ℕ := (D.localLeaves.map LayoutLeaf.extent).prod

theorem map_fst_placeDigits (position : Pos4) :
    (D.placeDigits position).map Prod.fst = D.placeLeaves.map LayoutLeaf.toLeaf := by
  rw [placeDigits, List.map_map]
  nth_rewrite 2 [← List.map_fst_zip D.valid.length_eq.le]
  rw [List.map_map]
  rfl

theorem map_fst_elementDigits (place index : ℕ) : (D.elementDigits place index).map Prod.fst =
    (D.placeLeaves ++ D.localLeaves).map LayoutLeaf.toLeaf := by
  rw [elementDigits, List.map_append, map_fst_placeDigits, localDigits, map_fst_leafDigits,
    List.map_append]

section NoOverflow

variable (h : D.NoOverflow) (hpadded : D.paddedSize < 2 ^ 64)
include h

theorem elementDigits_lt {place : ℕ} (hplace : place < D.gridSize) (index : ℕ) :
    ∀ p ∈ D.elementDigits place index, p.2 < p.1.extent := by
  intro p hp
  rcases List.mem_append.mp hp with hp | hp
  · obtain ⟨q, hq, rfl⟩ := List.mem_map.mp hp
    have hlt := D.gridDims.get_indexToPos_lt (fun a ha => gridDims_pos h ha) hplace
      (axes_lt (mem_axes.mpr ⟨q, hq, rfl⟩))
    rw [← (D.valid.axes q hq).2.2] at hlt
    exact hlt
  · refine lt_of_mem_leafDigits (fun l hl => ?_) p hp
    obtain ⟨l', hl', rfl⟩ := List.mem_map.mp hl
    exact (D.valid.leaves l' (List.mem_append_right _ hl')).2

include hpadded

/-- An element is one of the padded space, and has the digits it is made of. -/
theorem element_spec {place : ℕ} (hplace : place < D.gridSize) (index : ℕ) :
    value (D.elementDigits place index) < D.paddedSize ∧
      ∀ p ∈ D.elementDigits place index, p.1.digit (value (D.elementDigits place index)) = p.2 :=
  (tiles h.leaves hpadded).digit_value (map_fst_elementDigits place index)
    (elementDigits_lt h hplace index)

/-- **An element belongs to one place and one local index only.** -/
theorem element_injective {place place' index index' : ℕ} (hplace : place < D.gridSize)
    (hplace' : place' < D.gridSize) (hindex : index < D.localSize) (hindex' : index' < D.localSize)
    (heq : value (D.elementDigits place index) = value (D.elementDigits place' index')) :
    place = place' ∧ index = index' := by
  obtain ⟨-, hdigits⟩ := element_spec h hpadded hplace index
  obtain ⟨-, hdigits'⟩ := element_spec h hpadded hplace' index'
  rw [← heq] at hdigits'
  constructor
  · refine D.gridDims.indexToPos_injective hplace hplace' fun a ha => ?_
    rcases Classical.em (a ∈ D.axes) with hbound | hfree
    · obtain ⟨q, hq, rfl⟩ := mem_axes.mp hbound
      have hmem : ∀ p, (q.1.toLeaf, (D.gridDims.indexToPos p).get q.2.toNat) ∈
          D.placeDigits (D.gridDims.indexToPos p) := fun p => List.mem_map.mpr ⟨q, hq, rfl⟩
      have h₁ := hdigits _ (List.mem_append_left _ (hmem place))
      have h₂ := hdigits' _ (List.mem_append_left _ (hmem place'))
      exact h₁.symm.trans h₂
    · have hpos : ∀ a < 4, 0 < D.gridDims.get a := fun a ha => gridDims_pos h ha
      have h₁ := D.gridDims.get_indexToPos_lt hpos hplace ha
      have h₂ := D.gridDims.get_indexToPos_lt hpos hplace' ha
      rw [extent_eq_one h ha hfree] at h₁ h₂
      omega
  · have hlocal := digits_eq_of_leafDigits fun p hp => hdigits p (List.mem_append_right _ hp)
    have hlocal' := digits_eq_of_leafDigits fun p hp => hdigits' p (List.mem_append_right _ hp)
    have hsize : D.localSize = ((D.localLeaves.map LayoutLeaf.toLeaf).map Leaf.extent).prod := by
      rw [localSize, List.map_map]
      rfl
    rw [hsize] at hindex hindex'
    exact digits_injective hindex hindex' (hlocal.trans hlocal'.symm)

/-- **Every element of the padded space belongs to its owner**, and to a local index. -/
theorem exists_element {coords : Pos4} {n : ℕ} (hn : n < D.paddedSize)
    (hcoords : D.paddedDims.getIndex coords = n) :
    ∃ place < D.gridSize, ∃ index < D.localSize,
      D.gridDims.indexToPos place = D.owner coords ∧ value (D.elementDigits place index) = n := by
  have htiles := tiles h.leaves hpadded
  have hdigit : ∀ l ∈ D.placeLeaves ++ D.localLeaves, l.toLeaf.digit n < l.extent :=
    fun l hl => htiles.digit_lt (List.mem_map_of_mem hl) n
  obtain ⟨place, hplace, hpos⟩ := D.gridDims.exists_indexToPos (p := D.owner coords) fun a ha => by
    rcases Classical.em (a ∈ D.axes) with hbound | hfree
    · obtain ⟨q, hq, rfl⟩ := mem_axes.mp hbound
      rw [owner_get coords hq, hcoords, ← (D.valid.axes q hq).2.2]
      exact hdigit q.1 (List.mem_append_left _ (List.of_mem_zip hq).1)
    · rw [owner_get_of_free coords ha hfree, extent_eq_one h ha hfree]
      exact Nat.one_pos
  obtain ⟨index, hindex, hlocal⟩ := exists_leafDigits (n := n)
    (D.localLeaves.map LayoutLeaf.toLeaf) fun l hl => by
      obtain ⟨l', hl', rfl⟩ := List.mem_map.mp hl
      exact hdigit l' (List.mem_append_right _ hl')
  have hplaces : D.placeDigits (D.gridDims.indexToPos place) =
      (D.placeLeaves.map LayoutLeaf.toLeaf).map fun l => (l, l.digit n) := by
    rw [← map_fst_placeDigits (D.gridDims.indexToPos place), placeDigits, List.map_map,
      List.map_map]
    refine List.map_congr_left fun q hq => ?_
    rw [hpos, owner_get coords hq, hcoords]
    rfl
  refine ⟨place, hplace, index, ?_, hpos, ?_⟩
  · rw [List.map_map] at hindex
    exact hindex
  · rw [elementDigits, hplaces, localDigits, hlocal, ← List.map_append, ← List.map_append]
    exact htiles.value_digit hn

end NoOverflow

/-! ## 3. What is asked of a partition -/

/-- The sub-shape that a place gets enumerates these coordinates at a local index. -/
def Enumerates (D : CutePartitionDescriptor) (apply : ℕ → Except String CuteSubShape)
    (coords : List ℕ) (p : ℕ × ℕ) : Prop :=
  p.1 < D.gridDims.size ∧ ∃ S, apply p.1 = .ok S ∧ p.2 < S.size ∧ S.indexToCoords p.2 = coords

/-- Each element of a region is enumerated by its owner, by no other place, and at one local index, and
passes the predicate; and no other element passes it. -/
structure EnumeratesOnce (D : CutePartitionDescriptor) (apply : ℕ → Except String CuteSubShape)
    (rank : ℕ) (lo hi : ℕ → ℕ) : Prop where
  once : ∀ coords, InRegion rank lo hi coords → ∃! p, D.Enumerates apply coords p
  owner : ∀ coords, InRegion rank lo hi coords → ∀ p, D.Enumerates apply coords p →
    D.gridDims.indexToPos p.1 = D.owner (.ofCoords coords)
  contains : ∀ place < D.gridDims.size, ∀ S, apply place = .ok S → ∀ index < S.size,
    (S.contains (S.indexToCoords index) = true ↔ InRegion rank lo hi (S.indexToCoords index))

/-- The dimensions beyond the rank have extent one. -/
def RankMatches (D : CutePartitionDescriptor) (rank : ℕ) : Prop :=
  rank ≤ 4 ∧ ∀ d, rank ≤ d → d < 4 → D.paddedDims.get d = 1

/-- The shape has the true extents. -/
def ShapeMatches (D : CutePartitionDescriptor) (shape : List ℕ) : Prop :=
  D.RankMatches shape.length ∧ ∀ d < shape.length, shape.getD d 0 = D.trueDims.get d

/-- The box is within the true extents. -/
def BoxMatches (D : CutePartitionDescriptor) (box : List (ℤ × ℤ)) : Prop :=
  D.RankMatches box.length ∧ ∀ d < box.length, 0 ≤ (box.getD d (0, 0)).1 ∧
    (box.getD d (0, 0)).1 ≤ (box.getD d (0, 0)).2 ∧
    (box.getD d (0, 0)).2 ≤ (D.trueDims.get d : ℤ)

/-- The elements of the tensor, and those of every box, are distributed over the places. -/
structure IsPartition (D : CutePartitionDescriptor) : Prop where
  shape : ∀ shape, D.ShapeMatches shape → D.EnumeratesOnce
    (fun place => D.apply shape place D.gridDims) shape.length (fun _ => 0) D.trueDims.get
  box : ∀ box, D.BoxMatches box → D.EnumeratesOnce
    (fun place => D.applyBox box place D.gridDims) box.length
    (fun d => (box.getD d (0, 0)).1.toNat) (fun d => (box.getD d (0, 0)).2.toNat)

/-! ## 4. Regions -/

/-- The sub-shape of a place for a region. -/
def subShape (D : CutePartitionDescriptor) (rank : ℕ) (lo hi : ℕ → ℕ) (place : ℕ) : CuteSubShape :=
  ⟨D.localLeaves, sizeT (value (D.placeDigits (D.gridDims.indexToPos place))), D.paddedDims, rank,
    lo, hi⟩

theorem applyRegion_eq (rank : ℕ) (lo hi : ℕ → ℕ) (place : ℕ) :
    D.applyRegion rank lo hi place D.gridDims = .ok (D.subShape rank lo hi place) := by
  have hoffset := foldl_offset (D.gridDims.indexToPos place) (D.placeLeaves.zip D.placeAxes) 0
    (by decide)
  rw [Nat.zero_add] at hoffset
  refine bind_eq_ok.mpr ⟨(), require_eq_ok.mpr (by simp), ?_⟩
  simp only [hoffset]
  rfl

theorem RankMatches.validate {rank : ℕ} (h : D.RankMatches rank) :
    D.validateIterationRank rank = .ok () := by
  rw [validateIterationRank, require_eq_ok, List.all_eq_true]
  intro d hd
  rcases Nat.lt_or_ge d rank with hlt | hge
  · simp [hlt]
  · simp [h.2 d hge (List.mem_range.mp hd)]

theorem ShapeMatches.apply_eq {shape : List ℕ} (h : D.ShapeMatches shape) (place : ℕ) :
    D.apply shape place D.gridDims =
      .ok (D.subShape shape.length (fun _ => 0) D.trueDims.get place) := by
  refine bind_eq_ok.mpr ⟨(), h.1.validate, bind_eq_ok.mpr ⟨(), ?_, applyRegion_eq _ _ _ _⟩⟩
  rw [require_eq_ok, List.all_eq_true]
  intro d hd
  rw [decide_eq_true_eq]
  exact h.2 d (List.mem_range.mp hd)

theorem BoxMatches.applyBox_eq {box : List (ℤ × ℤ)} (h : D.BoxMatches box) (place : ℕ) :
    D.applyBox box place D.gridDims =
      .ok (D.subShape box.length (fun d => (box.getD d (0, 0)).1.toNat)
        (fun d => (box.getD d (0, 0)).2.toNat) place) := by
  refine bind_eq_ok.mpr ⟨(), h.1.validate, bind_eq_ok.mpr ⟨(), ?_, applyRegion_eq _ _ _ _⟩⟩
  rw [require_eq_ok, List.all_eq_true]
  intro d hd
  obtain ⟨hlo, hle, hhi⟩ := h.2 d (List.mem_range.mp hd)
  simp only [Bool.not_eq_true', Bool.or_eq_false_iff, decide_eq_false_iff_not]
  omega

section Region

variable {rank : ℕ} {lo hi : ℕ → ℕ} {place : ℕ}

theorem digits_length : ∀ (rs : List ℕ) (n : ℕ), (digits rs n).length = rs.length
  | [], _ => rfl
  | r :: rs, n => by rw [digits, List.length_cons, List.length_cons, digits_length rs]

/-- The predicate says whether the coordinates are in the region. -/
theorem contains_iff_inRegion (index : ℕ) :
    (D.subShape rank lo hi place).contains ((D.subShape rank lo hi place).indexToCoords index) =
        true ↔
      InRegion rank lo hi ((D.subShape rank lo hi place).indexToCoords index) := by
  have hlength : ((D.subShape rank lo hi place).indexToCoords index).length = rank := by
    rw [CuteSubShape.indexToCoords, digits_length, List.length_map, List.length_range]
    rfl
  rw [CuteSubShape.contains, List.all_eq_true, InRegion]
  simp only [hlength, true_and, List.mem_range, Bool.not_eq_true', Bool.or_eq_false_iff,
    decide_eq_false_iff_not, Nat.not_lt, Nat.not_le]
  rfl

/-- Coordinates within the true extents are digits for the padded ones. -/
theorem fits_of_inRegion (hrank : D.RankMatches rank)
    (hregion : ∀ d < rank, hi d ≤ D.trueDims.get d) {coords : List ℕ}
    (hcoords : InRegion rank lo hi coords) : Fits coords (D.paddedDims.firstDims rank) := by
  obtain ⟨hlength, hbounds⟩ := hcoords
  refine List.forall₂_iff_get.mpr ⟨?_, fun d hd hd' => ?_⟩
  · rw [hlength, Dim4.firstDims, List.length_map, List.length_range]
  · rw [hlength] at hd
    have hlt := (hbounds d hd).2
    have htrue := hregion d hd
    have hpad := (D.valid.dims d (hd.trans_le hrank.1)).2
    have hget : coords.getD d 0 = coords.get ⟨d, by omega⟩ := by
      rw [List.getD_eq_getElem?_getD, List.getElem?_eq_getElem (by omega)]
      rfl
    have hdims : (D.paddedDims.firstDims rank).get ⟨d, hd'⟩ = D.paddedDims.get d := by
      simp [Dim4.firstDims]
    rw [hdims, ← hget]
    omega

end Region

section NoOverflow

variable (h : D.NoOverflow) (hpadded : D.paddedSize < 2 ^ 64)
include h

theorem size_subShape (rank : ℕ) (lo hi : ℕ → ℕ) (place : ℕ) :
    (D.subShape rank lo hi place).size = D.localSize := by
  have hle : D.localSize < 2 ^ 64 := by
    have hpos := D.axes_prod_pos
    rw [← map_extent] at hpos
    refine lt_of_le_of_lt ?_ h.leaves
    rw [List.map_append, List.prod_append]
    exact Nat.le_mul_of_pos_left _ hpos
  rw [CuteSubShape.size, subShape, extentProduct_eq]
  exact sizeT_of_lt hle

theorem gridDims_size : D.gridDims.size = D.gridSize := sizeT_of_lt h.grid

include hpadded

theorem indexToCoords_subShape {place : ℕ} (hplace : place < D.gridSize) (rank : ℕ)
    (lo hi : ℕ → ℕ) (index : ℕ) :
    (D.subShape rank lo hi place).indexToCoords index =
      digits (D.paddedDims.firstDims rank) (value (D.elementDigits place index)) := by
  have hlt := (element_spec h hpadded hplace index).1.trans hpadded
  rw [elementDigits, value_append] at hlt
  have hlinear : localToLinear D.localLeaves index
      (sizeT (value (D.placeDigits (D.gridDims.indexToPos place)))) =
      value (D.elementDigits place index) := by
    rw [localToLinear_eq _ _ _ (sizeT_lt _), sizeT, sizeT, Nat.mod_add_mod, elementDigits,
      value_append]
    exact Nat.mod_eq_of_lt hlt
  rw [CuteSubShape.indexToCoords]
  exact congrArg (digits _) hlinear

/-- **Every region within the true extents is enumerated once.** -/
theorem enumeratesOnce {rank : ℕ} (hrank : D.RankMatches rank) {lo hi : ℕ → ℕ}
    (hregion : ∀ d < rank, hi d ≤ D.trueDims.get d) {apply : ℕ → Except String CuteSubShape}
    (happly : ∀ place, apply place = .ok (D.subShape rank lo hi place)) :
    D.EnumeratesOnce apply rank lo hi := by
  have hprod : (D.paddedDims.firstDims rank).prod = D.paddedSize :=
    D.paddedDims.firstDims_prod hrank.1 hrank.2
  -- what it means to enumerate an element, in terms of its digits
  have henumerates : ∀ {coords p}, D.Enumerates apply coords p ↔
      p.1 < D.gridSize ∧ p.2 < D.localSize ∧
        digits (D.paddedDims.firstDims rank) (value (D.elementDigits p.1 p.2)) = coords := by
    intro coords p
    rw [Enumerates, gridDims_size h]
    refine and_congr_right fun hplace => ?_
    rw [happly]
    constructor
    · rintro ⟨S, hS, hindex, hcoords⟩
      obtain rfl := Except.ok.inj hS
      rw [size_subShape h] at hindex
      rw [indexToCoords_subShape h hpadded hplace] at hcoords
      exact ⟨hindex, hcoords⟩
    · rintro ⟨hindex, hcoords⟩
      refine ⟨_, rfl, ?_, ?_⟩
      · rwa [size_subShape h]
      · rwa [indexToCoords_subShape h hpadded hplace]
  -- the owner of an element enumerates it, and no other place does
  have hunique : ∀ coords, InRegion rank lo hi coords → ∃ p, D.Enumerates apply coords p ∧
      D.gridDims.indexToPos p.1 = D.owner (.ofCoords coords) ∧
      ∀ q, D.Enumerates apply coords q → q = p := by
    intro coords hcoords
    have hfits : Fits coords (D.paddedDims.firstDims rank) := fits_of_inRegion hrank hregion hcoords
    have hlt := ofDigits_lt hfits
    have hindexOf := D.paddedDims.getIndex_ofCoords (hcoords.1.trans_le hrank.1)
    rw [hcoords.1] at hindexOf
    rw [hprod] at hlt
    rw [sizeT_of_lt (hlt.trans hpadded)] at hindexOf
    obtain ⟨place, hplace, index, hindex, hpos, hvalue⟩ :=
      exists_element h hpadded hlt hindexOf
    refine ⟨(place, index), ?_, hpos, fun q hq => ?_⟩
    · rw [henumerates, hvalue]
      exact ⟨hplace, hindex, digits_ofDigits hfits⟩
    · obtain ⟨hplace', hindex', hdigits⟩ := henumerates.mp hq
      have hlt' := (element_spec h hpadded hplace' q.2).1
      have heq := digits_injective (hlt'.trans_eq hprod.symm) (hlt.trans_eq hprod.symm)
        (hdigits.trans (digits_ofDigits hfits).symm)
      obtain ⟨hp, hi⟩ := element_injective h hpadded hplace' hplace hindex' hindex
        (heq.trans hvalue.symm)
      exact Prod.ext hp hi
  refine ⟨fun coords hcoords => ?_, fun coords hcoords p hp => ?_, fun place _ S hS index _ => ?_⟩
  · obtain ⟨p, hp, -, huniq⟩ := hunique coords hcoords
    exact ⟨p, hp, huniq⟩
  · obtain ⟨q, -, hpos, huniq⟩ := hunique coords hcoords
    rw [huniq p hp]
    exact hpos
  · rw [happly] at hS
    obtain rfl := Except.ok.inj hS
    exact contains_iff_inRegion index

end NoOverflow

/-- **An accepted partition distributes the elements over the places**, if the product of the extents of
its leaves and the number of places of the grid are numbers of type `size_t`. -/
theorem isPartition_of_noOverflow (D : CutePartitionDescriptor) (hpadded : D.paddedSize < 2 ^ 64)
    (h : D.NoOverflow) : D.IsPartition := by
  refine ⟨fun shape hshape => ?_, fun box hbox => ?_⟩
  · exact enumeratesOnce h hpadded hshape.1 (fun d _ => Nat.le_refl _) hshape.apply_eq
  · refine enumeratesOnce h hpadded hbox.1 (fun d hd => ?_) hbox.applyBox_eq
    have := (hbox.2 d hd).2.2
    omega

/-- Three elements in blocks of two over two places. -/
def blockedThree : CutePartitionDescriptor where
  placeLeaves := [⟨2, 2⟩]
  placeAxes := [0]
  localLeaves := [⟨2, 1⟩]
  paddedDims := ⟨4, 1, 1, 1⟩
  trueDims := ⟨3, 1, 1, 1⟩
  gridDims := ⟨2, 1, 1, 1⟩
  accepted := by decide

theorem isPartition_blockedThree : blockedThree.IsPartition :=
  isPartition_of_noOverflow blockedThree (by decide) ⟨by decide, by decide⟩

/-- Five elements cyclically over three places; the extent of the elements of a place is such that its
triple is five modulo `2 ^ 64`. -/
def overflowing : CutePartitionDescriptor where
  placeLeaves := [⟨3, 1⟩]
  placeAxes := [0]
  localLeaves := [⟨6148914691236517207, 3⟩]
  paddedDims := ⟨5, 1, 1, 1⟩
  trueDims := ⟨5, 1, 1, 1⟩
  gridDims := ⟨3, 1, 1, 1⟩
  accepted := by decide

/-- **The constructor accepts leaves that do not tile the padded space.**  The first place enumerates the
first element at the local indices `0` and `5`. -/
theorem not_isPartition : overflowing.paddedSize < 2 ^ 64 ∧ ¬ overflowing.IsPartition := by
  refine ⟨by decide, fun h => ?_⟩
  have hshape : overflowing.ShapeMatches [5] := by
    refine ⟨⟨by decide, fun d hd hd' => ?_⟩, fun d hd => ?_⟩
    · match d, hd' with
      | 1, _ => rfl
      | 2, _ => rfl
      | 3, _ => rfl
    · match d, hd with
      | 0, _ => rfl
  have hregion : InRegion 1 (fun _ => 0) overflowing.trueDims.get [0] := by
    refine ⟨rfl, fun d hd => ?_⟩
    match d, hd with
    | 0, _ => exact ⟨Nat.le_refl 0, by decide⟩
  have henumerates : ∀ index, index = 0 ∨ index = 5 → overflowing.Enumerates
      (fun place => overflowing.apply [5] place overflowing.gridDims) [0] (0, index) := by
    intro index hindex
    have hplace : 0 < overflowing.gridDims.size := by decide
    refine ⟨hplace, _, hshape.apply_eq 0, ?_, ?_⟩
    · rcases hindex with rfl | rfl <;> decide
    · rcases hindex with rfl | rfl <;> decide
  obtain ⟨p, -, huniq⟩ := (h.shape [5] hshape).once [0] hregion
  have h₀ := huniq _ (henumerates 0 (Or.inl rfl))
  have h₅ := huniq _ (henumerates 5 (Or.inr rfl))
  exact absurd (h₀.trans h₅.symm) (by decide)

end CutePartitionDescriptor

end Cccl.Places
