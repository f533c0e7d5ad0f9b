/-
# Elements in turn

`cyclic_partition` gives the elements of a box to the places of a grid in turn, independently in each dimension.  The
iterator of a `cyclic_shape` is an odometer (`Odometer`): it goes on by the stride along the first dimension, and starts
over and carries where the end is reached; after as many steps as the shape has elements it stops.
-/
import Cccl.Places.TiledPartition
import Cccl.Lib.Odometer
import Cccl.Lib.Wrapping
import Mathlib.Algebra.BigOperators.Ring.List
import Mathlib.Data.List.GetD

namespace Cccl.Places

open Wrapped (diffCut)

namespace CyclicPartition

/-! ## 1. The functions -/

/-- A `ptrdiff_t` as a `size_t`. -/
def ofDiff (v : ℤ) : ℕ := (v % 2 ^ 64).toNat

/-- One dimension of a `cyclic_shape`. -/
structure Axis where
  begins : ℕ
  ends : ℕ
  strides : ℕ
  deriving DecidableEq

/-- The positions along the dimension. -/
def Axis.count (a : Axis) : ℕ := sizeSub (sizeT (sizeSub a.ends a.begins + a.strides)) 1 / a.strides

/-- The next position along the dimension, or none where the iterator starts over. -/
def Axis.next (a : Axis) (current : ℕ) : Option ℕ :=
  if sizeT (current + a.strides) < a.ends then some (sizeT (current + a.strides)) else none

/-- `end`: the index after the last one. -/
def totalPositions (shape : List Axis) : ℕ := shape.foldl (fun total a => sizeT (total * a.count)) 1

def size (shape : List Axis) : ℤ := Wrapped.toDiff (totalPositions shape)

/-- `operator++`. -/
def increment (shape : List Axis) (current : List ℕ) : List ℕ := Odometer.advance Axis.begins Axis.next shape current

/-- What a loop over the shape visits. -/
def visits (shape : List Axis) : List (List ℕ) :=
  (List.range (totalPositions shape)).map fun index => (increment shape)^[index] (shape.map Axis.begins)

/-- `apply` of a box, from the dimension `d` on. -/
def applyFrom (place : Pos4) (grid : Dim4) : (d : ℕ) → List (ℤ × ℤ) → Wrapped (List Axis)
  | _, [] => pure []
  | d, bounds :: box => do
    let first ← diffCut (bounds.1 + place.get d)
    let rest ← applyFrom place grid (d + 1) box
    pure (⟨ofDiff first, ofDiff bounds.2, grid.get d⟩ :: rest)

/-- `apply` of a box. -/
def apply (box : List (ℤ × ℤ)) (place : Pos4) (grid : Dim4) : Wrapped (List Axis) := applyFrom place grid 0 box

def getExecutor (coords : Pos4) (grid : Dim4) : Pos4 :=
  ⟨coords.x % grid.x, coords.y % grid.y, coords.z % grid.z, coords.t % grid.t⟩

/-! ## 2. Lanes -/

/-- One dimension of a box, the extent of the grid, and the coordinate of a place. -/
structure Lane where
  lo : ℤ
  hi : ℤ
  grid : ℕ
  place : ℕ

namespace Lane

variable (l : Lane)

def axis : Axis := ⟨ofDiff (l.lo + l.place), ofDiff l.hi, l.grid⟩

/-- The number of positions that there are. -/
def count : ℕ := (l.hi - l.lo - l.place + l.grid - 1).toNat / l.grid

/-- The number of positions of the first place. -/
def maxCount : ℕ := (l.hi - l.lo + l.grid - 1).toNat / l.grid

/-- The coordinate with an index. -/
def coord (k : ℕ) : ℤ := l.lo + l.place + k * l.grid

/-- The bounds and the place are those of the types. -/
structure Valid : Prop where
  lo : -2 ^ 63 ≤ l.lo
  le : l.lo ≤ l.hi
  hi : l.hi < 2 ^ 63
  grid : 0 < l.grid ∧ l.grid ≤ 2 ^ 63
  place : l.place < l.grid

end Lane

theorem ofDiff_cast (v : ℤ) : (ofDiff v : ℤ) = v % 2 ^ 64 := Int.toNat_of_nonneg (Int.emod_nonneg v (by decide))

theorem ofDiff_nonneg {v : ℤ} (h : 0 ≤ v) (hlt : v < 2 ^ 64) : (ofDiff v : ℤ) = v := by
  rw [ofDiff_cast, Int.emod_eq_of_lt h hlt]

theorem ofDiff_neg {v : ℤ} (h : v < 0) (hge : -2 ^ 64 ≤ v) : (ofDiff v : ℤ) = v + 2 ^ 64 := by
  rw [ofDiff_cast]
  omega

theorem ofDiff_injective {v w : ℤ} (hv : -2 ^ 63 ≤ v ∧ v < 2 ^ 63) (hw : -2 ^ 63 ≤ w ∧ w < 2 ^ 63)
    (h : ofDiff v = ofDiff w) : v = w := by
  have hmod : v % 2 ^ 64 = w % 2 ^ 64 := by rw [← ofDiff_cast, h, ofDiff_cast]
  obtain ⟨hv₁, hv₂⟩ := hv
  obtain ⟨hw₁, hw₂⟩ := hw
  obtain ⟨q, hq⟩ := Int.dvd_of_emod_eq_zero (Int.emod_eq_emod_iff_emod_sub_eq_zero.mp hmod)
  omega

theorem sizeT_ofDiff_add (v : ℤ) (n : ℕ) : sizeT (ofDiff v + n) = ofDiff (v + n) := by
  have h := ofDiff_cast v
  have h' := ofDiff_cast (v + n)
  unfold sizeT
  omega

/-- The iterator compares positions as `size_t`. -/
theorem Lane.next_ofDiff (l : Lane) (x : ℤ) : l.axis.next (ofDiff x) =
    if ofDiff (x + l.grid) < ofDiff l.hi then some (ofDiff (x + l.grid)) else none := by
  change (if sizeT (ofDiff x + l.grid) < ofDiff l.hi then some (sizeT (ofDiff x + l.grid)) else none) = _
  rw [sizeT_ofDiff_add]

theorem sizeSub_ofDiff (v w : ℤ) : sizeSub (ofDiff v) (ofDiff w) = ofDiff (v - w) := by
  have hv := Int.emod_add_mul_ediv v (2 ^ 64)
  have hw := Int.emod_add_mul_ediv w (2 ^ 64)
  have hle := Int.emod_lt_of_pos w (show (0 : ℤ) < 2 ^ 64 by decide)
  rw [← ofDiff_cast] at hv hw hle
  have hsum : v - w = ((ofDiff v + (2 ^ 64 - ofDiff w) : ℕ) : ℤ) + 2 ^ 64 * (v / 2 ^ 64 - w / 2 ^ 64 - 1) := by
    omega
  rw [hsum, ofDiff.eq_1 (_ + _), Int.add_mul_emod_self_left]
  rfl

namespace Lane.Valid

variable {l : Lane} (h : l.Valid)

include h in
theorem lt_count_iff (k : ℕ) : k < l.count ↔ l.coord k < l.hi := by
  have hgrid := h.grid
  have hplace := h.place
  have hle := h.le
  unfold count coord
  rw [← Nat.succ_le_iff, Nat.le_div_iff_mul_le hgrid.1, Nat.succ_mul]
  have hcast : ((k * l.grid : ℕ) : ℤ) = (k : ℤ) * l.grid := Nat.cast_mul _ _
  omega

omit h in
theorem count_le_maxCount : l.count ≤ l.maxCount := by
  refine Nat.div_le_div_right (Int.toNat_le_toNat ?_)
  omega

include h in
theorem axis_count : l.axis.count =
    ((l.hi - l.lo - l.place + l.grid - 1) % 2 ^ 64).toNat / l.grid := by
  have hlo := ofDiff_cast (l.lo + l.place)
  have hhi := ofDiff_cast l.hi
  have hgrid := h.grid
  have hplace := h.place
  change sizeSub (sizeT (sizeSub (ofDiff l.hi) (ofDiff (l.lo + l.place)) + l.grid)) 1 / l.grid = _
  rw [sizeSub_ofDiff, sizeT_ofDiff_add, show 1 = ofDiff 1 from rfl, sizeSub_ofDiff, ofDiff]
  congr 3
  omega

include h in
theorem axis_count_le : l.axis.count ≤ l.count := by
  have hgrid := h.grid
  have hplace := h.place
  have hle := h.le
  rw [h.axis_count]
  refine Nat.div_le_div_right ?_
  omega

include h in
/-- **The count is right** if and only if it is not reduced. -/
theorem axis_count_eq_iff : l.axis.count = l.count ↔ l.hi - l.lo - l.place + l.grid ≤ 2 ^ 64 := by
  have hgrid := h.grid
  have hplace := h.place
  have hle := h.le
  have hlo := h.lo
  have hhi := h.hi
  constructor
  · intro heq
    by_contra hlarge
    have hless : (l.hi - l.lo - l.place + l.grid - 1) % 2 ^ 64 + l.grid ≤ l.hi - l.lo - l.place + l.grid - 1 := by
      omega
    have hstep : l.axis.count + 1 ≤ l.count := by
      rw [h.axis_count, ← Nat.add_div_right _ hgrid.1]
      refine Nat.div_le_div_right ?_
      omega
    omega
  · intro hsmall
    rw [h.axis_count, Int.emod_eq_of_lt (by omega) (by omega)]
    rfl

end Lane.Valid

/-! ## 3. The visits of a place -/

theorem foldl_count : ∀ (shape : List Axis) {n : ℕ}, n < 2 ^ 64 →
    shape.foldl (fun total a => sizeT (total * a.count)) n = sizeT (n * (shape.map Axis.count).prod)
  | [], n, hn => by
    rw [List.foldl_nil, List.map_nil, List.prod_nil, Nat.mul_one, sizeT_of_lt hn]
  | a :: shape, n, _ => by
    rw [List.foldl_cons, foldl_count shape (sizeT_lt _), List.map_cons, List.prod_cons]
    unfold sizeT
    rw [Nat.mod_mul_mod, Nat.mul_assoc]

theorem totalPositions_eq (shape : List Axis) : totalPositions shape = sizeT (shape.map Axis.count).prod := by
  rw [totalPositions, foldl_count shape (by decide), Nat.one_mul]

/-- In each lane there is a position for the place. -/
def Active (lanes : List Lane) : Prop := ∀ l ∈ lanes, l.lo + l.place < l.hi

/-- The iterator sees the order of the positions: they do not leave the negative numbers, or they do at once; and it does
not leave the box where later dimensions have more than one position. -/
def InOrder : List Lane → Prop
  | [] => True
  | l :: lanes => ((0 ≤ l.hi → 0 ≤ l.lo + l.grid) ∧
      (l.hi < 0 → l.hi + l.grid ≤ 0 ∨ ∀ e ∈ lanes, e.hi - e.lo ≤ e.grid)) ∧ InOrder lanes

/-- The coordinates with these indexes. -/
def coords (lanes : List Lane) (ks : List ℕ) : List ℤ := List.zipWith Lane.coord lanes ks

theorem shown_eq_coords (lanes : List Lane) (ks : List ℕ) :
    Odometer.shown (fun l k => ofDiff (l.coord k)) lanes ks = (coords lanes ks).map ofDiff := by
  rw [coords, List.map_zipWith]
  rfl

theorem Lane.coord_zero (l : Lane) : l.coord 0 = l.lo + l.place := by
  rw [coord, Nat.cast_zero, zero_mul, add_zero]

theorem Lane.coord_add (l : Lane) (k : ℕ) : l.coord k + l.grid = l.coord (k + 1) := by
  rw [coord, coord, Nat.cast_succ, add_mul, one_mul]
  omega

theorem Lane.le_coord (l : Lane) (k : ℕ) : l.lo ≤ l.coord k := by
  have : (0 : ℤ) ≤ k * l.grid := Int.mul_nonneg (Int.natCast_nonneg _) (Int.natCast_nonneg _)
  rw [coord]
  omega

theorem Lane.coord_mono (l : Lane) {k k' : ℕ} (h : k ≤ k') : l.coord k ≤ l.coord k' := by
  have hmul : k * l.grid ≤ k' * l.grid := Nat.mul_le_mul_right _ h
  rw [coord, coord, ← Nat.cast_mul, ← Nat.cast_mul]
  omega

theorem Lane.Valid.next_coord {l : Lane} (hv : l.Valid) (hsign : 0 ≤ l.hi → 0 ≤ l.lo + l.grid) {k : ℕ}
    (hk : k + 1 < l.count) : l.axis.next (ofDiff (l.coord k)) = some (ofDiff (l.coord (k + 1))) := by
  have hgrid := hv.grid
  have hlo := hv.lo
  have hhi := hv.hi
  have hlt := (hv.lt_count_iff (k + 1)).mp hk
  have hlow := l.le_coord k
  have hadd := l.coord_add k
  have hless : ofDiff (l.coord (k + 1)) < ofDiff l.hi := by
    rcases lt_or_ge l.hi 0 with hneg | hnonneg
    · have h₁ := ofDiff_neg (v := l.coord (k + 1)) (by omega) (by omega)
      have h₂ := ofDiff_neg hneg (by omega)
      omega
    · have hsign' := hsign hnonneg
      have h₁ := ofDiff_nonneg (v := l.coord (k + 1)) (by omega) (by omega)
      have h₂ := ofDiff_nonneg hnonneg (by omega)
      omega
  rw [l.next_ofDiff, hadd, if_pos hless]

/-- **The iterator counts.** -/
theorem counts_of_inOrder : ∀ {lanes : List Lane}, (∀ l ∈ lanes, l.Valid) → Active lanes → InOrder lanes →
    Odometer.Counts (fun l k => ofDiff (l.coord k)) Lane.count (fun l => l.axis.begins) (fun l => l.axis.next) lanes
  | [], _, _, _ => trivial
  | l :: lanes, hvalid, hactive, ⟨⟨hsign, hstop⟩, horder⟩ => by
    have hv := hvalid l List.mem_cons_self
    have hgrid := hv.grid
    have hlo := hv.lo
    have hhi := hv.hi
    have hpos : 0 < l.count := by
      rw [hv.lt_count_iff, l.coord_zero]
      exact hactive l List.mem_cons_self
    refine ⟨⟨hpos, ?_, fun k hk => hv.next_coord hsign hk, ?_⟩,
      counts_of_inOrder (fun e he => hvalid e (List.mem_cons_of_mem _ he))
        (fun e he => hactive e (List.mem_cons_of_mem _ he)) horder⟩
    · change ofDiff (l.coord 0) = ofDiff (l.lo + l.place)
      rw [l.coord_zero]
    · have hbelow := (hv.lt_count_iff (l.count - 1)).mp (by omega)
      have habove := (hv.lt_count_iff (l.count - 1 + 1)).not.mp (by omega)
      have hadd := l.coord_add (l.count - 1)
      have hlow := l.le_coord (l.count - 1)
      have hnone : ofDiff l.hi ≤ ofDiff (l.coord (l.count - 1 + 1)) →
          l.axis.next (ofDiff (l.coord (l.count - 1))) = none := by
        intro hle
        rw [l.next_ofDiff, hadd, if_neg hle.not_gt]
      rcases lt_or_ge l.hi 0 with hneg | hnonneg
      · rcases hstop hneg with hroom | hones
        · have h₁ := ofDiff_neg (v := l.coord (l.count - 1 + 1)) (by omega) (by omega)
          have h₂ := ofDiff_neg hneg (by omega)
          exact Or.inl (hnone (by omega))
        · refine Or.inr fun e he => ?_
          have hve := hvalid e (List.mem_cons_of_mem _ he)
          have hactive' := hactive e (List.mem_cons_of_mem _ he)
          have hone := hones e he
          have hgride := hve.grid
          rw [Lane.count, Nat.div_eq_iff hgride.1]
          omega
      · have h₁ := ofDiff_nonneg (v := l.coord (l.count - 1 + 1)) (by omega) (by omega)
        have h₂ := ofDiff_nonneg hnonneg (by omega)
        exact Or.inl (hnone (by omega))

theorem totalPositions_lanes {lanes : List Lane} (hcount : ∀ l ∈ lanes, l.axis.count = l.count)
    (hprod : (lanes.map Lane.count).prod < 2 ^ 63) :
    totalPositions (lanes.map Lane.axis) = (lanes.map Lane.count).prod := by
  have hmap : (lanes.map Lane.axis).map Axis.count = lanes.map Lane.count := by
    rw [List.map_map]
    exact List.map_congr_left hcount
  rw [totalPositions_eq, hmap, sizeT_of_lt (hprod.trans (by decide))]

theorem getElem?_visits (shape : List Axis) (index : ℕ) (v : List ℕ) :
    (visits shape)[index]? = some v ↔
      index < totalPositions shape ∧ (increment shape)^[index] (shape.map Axis.begins) = v := by
  rw [visits, List.getElem?_map, Option.map_eq_some_iff]
  constructor
  · rintro ⟨i, hi, hv⟩
    obtain ⟨hlt, rfl⟩ := List.getElem?_eq_some_iff.mp hi
    rw [List.length_range] at hlt
    rw [List.getElem_range] at hv
    exact ⟨hlt, hv⟩
  · rintro ⟨hlt, hv⟩
    exact ⟨index, List.getElem?_range hlt, hv⟩

theorem increment_lanes (lanes : List Lane) : increment (lanes.map Lane.axis) =
    Odometer.advance (fun l : Lane => l.axis.begins) (fun l => l.axis.next) lanes := by
  funext vs
  exact Odometer.advance_map Lane.axis lanes vs

/-- **What a place visits**: the coordinates with the digits of the index. -/
theorem getElem?_visits_lanes {lanes : List Lane} (hvalid : ∀ l ∈ lanes, l.Valid) (hactive : Active lanes)
    (horder : InOrder lanes) (hcount : ∀ l ∈ lanes, l.axis.count = l.count)
    (hprod : (lanes.map Lane.count).prod < 2 ^ 63) (index : ℕ) (v : List ℕ) :
    (visits (lanes.map Lane.axis))[index]? = some v ↔ index < (lanes.map Lane.count).prod ∧
      (coords lanes (MixedRadix.digits (lanes.map Lane.count) index)).map ofDiff = v := by
  rw [getElem?_visits, totalPositions_lanes hcount hprod]
  refine and_congr_right fun hlt => ?_
  rw [increment_lanes, List.map_map]
  have h := Odometer.iterate_eq_digits (counts_of_inOrder hvalid hactive horder) hlt
  rw [← shown_eq_coords, ← h]
  rfl

theorem visits_of_not_active {lanes : List Lane} (hvalid : ∀ l ∈ lanes, l.Valid) (hactive : ¬ Active lanes) :
    visits (lanes.map Lane.axis) = [] := by
  unfold Active at hactive
  push Not at hactive
  obtain ⟨l, hl, hle⟩ := hactive
  have hv := hvalid l hl
  have hzero : l.axis.count = 0 := by
    have hcount : ¬ 0 < l.count := by
      rw [hv.lt_count_iff, l.coord_zero]
      exact hle.not_gt
    have := hv.axis_count_le
    omega
  have hprod : ((lanes.map Lane.axis).map Axis.count).prod = 0 := by
    rw [List.prod_eq_zero_iff, ← hzero, List.map_map]
    exact List.mem_map_of_mem hl
  rw [visits, totalPositions_eq, hprod]
  rfl

/-! ## 4. Coordinates -/

/-- The coordinate is one of the lane, and its place is that of the lane. -/
def Lane.Has (l : Lane) (x : ℤ) : Prop := l.lo ≤ x ∧ x < l.hi ∧ (x - l.lo) % l.grid = l.place

theorem Lane.Valid.has_iff {l : Lane} (h : l.Valid) (x : ℤ) : l.Has x ↔ ∃ k < l.count, l.coord k = x := by
  have hgrid := h.grid
  have hplace := h.place
  constructor
  · rintro ⟨hlo, hhi, hmod⟩
    have hdiv := Int.emod_add_mul_ediv (x - l.lo) l.grid
    have hnonneg : 0 ≤ (x - l.lo) / l.grid := Int.ediv_nonneg (by omega) (by omega)
    have hcoord : l.coord ((x - l.lo) / l.grid).toNat = x := by
      rw [Lane.coord, Int.toNat_of_nonneg hnonneg, Int.mul_comm]
      omega
    refine ⟨_, ?_, hcoord⟩
    rw [h.lt_count_iff, hcoord]
    exact hhi
  · rintro ⟨k, hk, rfl⟩
    have hlt := (h.lt_count_iff k).mp hk
    have hnonneg : (0 : ℤ) ≤ k * l.grid := Int.mul_nonneg (Int.natCast_nonneg _) (Int.natCast_nonneg _)
    refine ⟨?_, hlt, ?_⟩
    · rw [Lane.coord]
      omega
    · have hsub : l.coord k - l.lo = l.place + k * l.grid := by
        rw [Lane.coord]
        omega
      rw [hsub, Int.add_mul_emod_self_right]
      exact Int.emod_eq_of_lt (Int.natCast_nonneg _) (Int.ofNat_lt.mpr hplace)

theorem Lane.Valid.coord_injective {l : Lane} (h : l.Valid) {k k' : ℕ} (heq : l.coord k = l.coord k') : k = k' := by
  have hgrid := h.grid
  have hmul : (k : ℤ) * l.grid = k' * l.grid := Int.add_left_cancel heq
  exact Int.ofNat_inj.mp (Int.eq_of_mul_eq_mul_right (by omega) hmul)

theorem coords_has : ∀ {lanes : List Lane}, (∀ l ∈ lanes, l.Valid) → ∀ (x : List ℤ),
    List.Forall₂ Lane.Has lanes x ↔ ∃ ks, MixedRadix.Fits ks (lanes.map Lane.count) ∧ coords lanes ks = x
  | [], _, x => by
    constructor
    · rintro ⟨⟩
      exact ⟨[], .nil, rfl⟩
    · rintro ⟨ks, hks, rfl⟩
      exact .nil
  | l :: lanes, hvalid, x => by
    have hv := hvalid l List.mem_cons_self
    have ih := coords_has fun e he => hvalid e (List.mem_cons_of_mem _ he)
    constructor
    · rintro (_ | ⟨hhas, hrest⟩)
      obtain ⟨k, hk, rfl⟩ := (hv.has_iff _).mp hhas
      obtain ⟨ks, hks, rfl⟩ := (ih _).mp hrest
      exact ⟨k :: ks, .cons hk hks, rfl⟩
    · rintro ⟨ks, hks, rfl⟩
      rw [List.map_cons] at hks
      cases hks with
      | cons hk hks => exact .cons ((hv.has_iff _).mpr ⟨_, hk, rfl⟩) ((ih _).mpr ⟨_, hks, rfl⟩)

theorem coords_injective : ∀ {lanes : List Lane}, (∀ l ∈ lanes, l.Valid) → ∀ {ks ks' : List ℕ},
    ks.length = lanes.length → ks'.length = lanes.length → coords lanes ks = coords lanes ks' → ks = ks'
  | [], _, ks, ks', h, h', _ => by rw [List.length_eq_zero_iff.mp h, List.length_eq_zero_iff.mp h']
  | l :: lanes, hvalid, k :: ks, k' :: ks', h, h', heq => by
    obtain ⟨hk, hks⟩ := List.cons.inj heq
    rw [(hvalid l List.mem_cons_self).coord_injective hk, coords_injective
      (fun e he => hvalid e (List.mem_cons_of_mem _ he)) (Nat.succ.inj h) (Nat.succ.inj h') hks]

/-! ## 5. The lanes of a box -/

section

variable (box : List (ℤ × ℤ)) (place : Pos4) (grid : Dim4)

/-- The dimensions of a box, for a place of a grid. -/
def lanes : List Lane := box.mapIdx fun d bounds => ⟨bounds.1, bounds.2, grid.get d, place.get d⟩

/-- The place is one of the grid. -/
def InGrid : Prop := ∀ d < 4, place.get d < grid.get d

/-- Coordinates within bounds. -/
def InBox (coords : List ℤ) : Prop := List.Forall₂ (fun bounds x => bounds.1 ≤ x ∧ x < bounds.2) box coords

/-- What the types of bounds and extents promise. -/
structure IsBox : Prop where
  rank : box.length ≤ 4
  bounds : ∀ b ∈ box, -2 ^ 63 ≤ b.1 ∧ b.1 ≤ b.2 ∧ b.2 < 2 ^ 63
  extents : ∀ d < 4, 0 < grid.get d ∧ grid.get d ≤ 2 ^ 63

variable {box place grid}

theorem ofDiff_diffCut (v : ℤ) : ofDiff (diffCut v).value = ofDiff v := by
  have h : Wrapped.toSize (Wrapped.toDiff v) = Wrapped.toSize v :=
    IntegerTypes.IntegerType.staticCast_staticCast (le_refl 64) v
  exact congrArg Int.toNat h

theorem applyFrom_spec : ∀ (box : List (ℤ × ℤ)) (d : ℕ),
    (applyFrom place grid d box).value =
        (box.mapIdx fun i b => (⟨b.1, b.2, grid.get (d + i), place.get (d + i)⟩ : Lane).axis) ∧
      ((applyFrom place grid d box).kept = true ↔
        ∀ (i : ℕ) (h : i < box.length), -2 ^ 63 ≤ box[i].1 + place.get (d + i) ∧
          box[i].1 + place.get (d + i) < 2 ^ 63)
  | [], d => ⟨rfl, iff_of_true rfl fun i h => absurd h (Nat.not_lt_zero i)⟩
  | b :: box, d => by
    obtain ⟨hvalue, hkept⟩ := applyFrom_spec box (d + 1)
    have hshift : ∀ i, d + 1 + i = d + (i + 1) := by
      intro i
      omega
    rw [applyFrom]
    constructor
    · rw [Wrapped.value_bind, Wrapped.value_bind, hvalue, List.mapIdx_cons]
      change (⟨ofDiff (diffCut (b.1 + place.get d)).value, _, _⟩ : Axis) :: _ = _
      rw [ofDiff_diffCut]
      simp only [hshift]
      rfl
    · rw [Wrapped.kept_bind, Wrapped.kept_bind, hkept, diffCut, Wrapped.kept_cut, Wrapped.has_diffType]
      constructor
      · rintro ⟨hfirst, hrest, -⟩ i hi
        cases i with
        | zero => exact hfirst
        | succ i =>
          rw [← hshift]
          exact hrest i (Nat.lt_of_succ_lt_succ hi)
      · intro h
        refine ⟨h 0 (Nat.succ_pos _), fun i hi => ?_, rfl⟩
        rw [hshift]
        exact h (i + 1) (Nat.succ_lt_succ hi)

theorem value_apply : (apply box place grid).value = (lanes box place grid).map Lane.axis := by
  rw [apply, (applyFrom_spec box 0).1]
  refine List.ext_getElem (by simp only [lanes, List.length_map, List.length_mapIdx]) fun d _ _ => ?_
  simp only [lanes, List.getElem_map, List.getElem_mapIdx, Nat.zero_add]

theorem mem_lanes {l : Lane} : l ∈ lanes box place grid ↔
    ∃ (d : ℕ) (h : d < box.length), ⟨box[d].1, box[d].2, grid.get d, place.get d⟩ = l := List.mem_mapIdx

theorem forall₂_lanes {β : Type} {P : Lane → β → Prop} {x : List β} : List.Forall₂ P (lanes box place grid) x ↔
    x.length = box.length ∧ ∀ (d : ℕ) (h : d < box.length) (h' : d < x.length),
      P ⟨box[d].1, box[d].2, grid.get d, place.get d⟩ x[d] := by
  have hlength : (lanes box place grid).length = box.length := List.length_mapIdx
  rw [List.forall₂_iff_get]
  constructor
  · rintro ⟨heq, h⟩
    refine ⟨heq.symm.trans hlength, fun d hd hd' => ?_⟩
    have := h d (hlength ▸ hd) hd'
    simp only [lanes, List.get_eq_getElem, List.getElem_mapIdx] at this
    exact this
  · rintro ⟨heq, h⟩
    refine ⟨hlength.trans heq.symm, fun d hd hd' => ?_⟩
    simp only [lanes, List.get_eq_getElem, List.getElem_mapIdx]
    exact h d _ hd'

theorem inBox_iff {x : List ℤ} : InBox box x ↔ x.length = box.length ∧
    ∀ (d : ℕ) (h : d < box.length) (h' : d < x.length), box[d].1 ≤ x[d] ∧ x[d] < box[d].2 := by
  rw [InBox, List.forall₂_iff_get]
  exact and_congr_left' eq_comm

theorem IsBox.valid (h : IsBox box grid) (hplace : InGrid place grid) : ∀ l ∈ lanes box place grid, l.Valid := by
  intro l hl
  obtain ⟨d, hd, rfl⟩ := mem_lanes.mp hl
  obtain ⟨hlo, hle, hhi⟩ := h.bounds _ (List.getElem_mem hd)
  have hd4 : d < 4 := hd.trans_le h.rank
  exact ⟨hlo, hle, hhi, h.extents d hd4, hplace d hd4⟩

/-- A place with these coordinates. -/
def posOf (f : ℕ → ℕ) : Pos4 := ⟨f 0, f 1, f 2, f 3⟩

theorem get_posOf (f : ℕ → ℕ) {d : ℕ} (h : d < 4) : (posOf f).get d = f d := by
  obtain rfl | rfl | rfl | rfl : d = 0 ∨ d = 1 ∨ d = 2 ∨ d = 3 := by omega
  all_goals rfl

theorem pos4_ext {p q : Pos4} (h : ∀ d < 4, p.get d = q.get d) : p = q := by
  obtain ⟨x, y, z, t⟩ := p
  obtain ⟨x', y', z', t'⟩ := q
  obtain rfl : x = x' := h 0 (by decide)
  obtain rfl : y = y' := h 1 (by decide)
  obtain rfl : z = z' := h 2 (by decide)
  obtain rfl : t = t' := h 3 (by decide)
  rfl

/-- The place that an element belongs to. -/
def owner (box : List (ℤ × ℤ)) (grid : Dim4) (x : List ℤ) : Pos4 :=
  posOf fun d => ((x.getD d 0 - (box.getD d (0, 0)).1) % grid.get d).toNat

theorem IsBox.owner_inGrid (h : IsBox box grid) (x : List ℤ) : InGrid (owner box grid x) grid := by
  intro d hd
  obtain ⟨hpos, -⟩ := h.extents d hd
  rw [owner, get_posOf _ hd]
  have := Int.emod_lt_of_pos (x.getD d 0 - (box.getD d (0, 0)).1) (Int.ofNat_lt.mpr hpos)
  have := Int.emod_nonneg (x.getD d 0 - (box.getD d (0, 0)).1) (Int.ofNat_ne_zero.mpr hpos.ne')
  omega

/-- **The lanes of a place** have an element of the box, if and only if it belongs to the place. -/
theorem IsBox.has_iff (h : IsBox box grid) {x : List ℤ} : List.Forall₂ Lane.Has (lanes box place grid) x ↔
    InBox box x ∧ ∀ d < box.length, place.get d = (owner box grid x).get d := by
  rw [forall₂_lanes, inBox_iff, and_assoc]
  refine and_congr_right fun hlength => ?_
  rw [← forall_and]
  refine forall_congr' fun d => ?_
  by_cases hd : d < box.length
  · have hd' : d < x.length := hlength ▸ hd
    have hd4 : d < 4 := hd.trans_le h.rank
    have hnonneg := Int.emod_nonneg (x[d] - box[d].1) (Int.ofNat_ne_zero.mpr (h.extents d hd4).1.ne')
    rw [owner, get_posOf _ hd4, List.getD_eq_getElem _ _ hd, List.getD_eq_getElem _ _ hd']
    unfold Lane.Has
    constructor
    · intro hhas
      obtain ⟨hlo, hhi, hmod⟩ := hhas hd hd'
      refine ⟨fun _ _ => ⟨hlo, hhi⟩, fun _ => ?_⟩
      dsimp only at hmod
      rw [hmod, Int.toNat_natCast]
    · rintro ⟨hbox, howner⟩ _ _
      refine ⟨(hbox hd hd').1, (hbox hd hd').2, ?_⟩
      dsimp only
      rw [howner hd, Int.toNat_of_nonneg hnonneg]
  · exact iff_of_true (fun h => absurd h hd) ⟨fun h => absurd h hd, fun h => absurd h hd⟩

end

/-! ## 6. What a place should visit -/

/-- A place visits the elements of its lanes, each once. -/
structure VisitsLanes (ls : List Lane) : Prop where
  once (x : List ℤ) : List.Forall₂ Lane.Has ls x → 
    ∃! index : ℕ, (visits (ls.map Lane.axis))[index]? = some (x.map ofDiff)
  only : ∀ v ∈ visits (ls.map Lane.axis), ∃ x, List.Forall₂ Lane.Has ls x ∧ x.map ofDiff = v
  size : ((visits (ls.map Lane.axis)).length : ℤ) = size (ls.map Lane.axis)

theorem toDiff_ofDiff {v : ℤ} (h : -2 ^ 63 ≤ v ∧ v < 2 ^ 63) : Wrapped.toDiff (ofDiff v) = v := by
  have h' : Wrapped.toDiff (Wrapped.toSize v) = Wrapped.toDiff v :=
    IntegerTypes.IntegerType.staticCast_staticCast (le_refl 64) v
  rw [ofDiff_cast]
  exact h'.trans (Wrapped.toDiff_of_lt h.1 h.2)

theorem map_ofDiff_injective {x y : List ℤ} (hx : ∀ v ∈ x, -2 ^ 63 ≤ v ∧ v < 2 ^ 63)
    (hy : ∀ v ∈ y, -2 ^ 63 ≤ v ∧ v < 2 ^ 63) (h : x.map ofDiff = y.map ofDiff) : x = y := by
  have hback : ∀ z : List ℤ, (∀ v ∈ z, -2 ^ 63 ≤ v ∧ v < 2 ^ 63) →
      (z.map ofDiff).map (fun n : ℕ => Wrapped.toDiff n) = z := by
    intro z hz
    rw [List.map_map]
    refine (List.map_congr_left (g := id) fun v hv => ?_).trans (List.map_id z)
    rw [Function.comp_apply, toDiff_ofDiff (hz v hv), id]
  rw [← hback x hx, h, hback y hy]

theorem Lane.Has.range {l : Lane} (hv : l.Valid) {x : ℤ} (h : l.Has x) : -2 ^ 63 ≤ x ∧ x < 2 ^ 63 :=
  ⟨hv.lo.trans h.1, h.2.1.trans hv.hi⟩

theorem forall₂_has_range {ls : List Lane} (hvalid : ∀ l ∈ ls, l.Valid) {x : List ℤ}
    (h : List.Forall₂ Lane.Has ls x) : ∀ v ∈ x, -2 ^ 63 ≤ v ∧ v < 2 ^ 63 := by
  induction h with
  | nil => exact fun v hv => absurd hv List.not_mem_nil
  | cons hhas _ ih =>
    refine List.forall_mem_cons.mpr ⟨hhas.range (hvalid _ List.mem_cons_self), ih fun l hl => ?_⟩
    exact hvalid l (List.mem_cons_of_mem _ hl)

theorem size_eq {shape : List Axis} (h : totalPositions shape < 2 ^ 63) :
    ((visits shape).length : ℤ) = size shape := by
  rw [visits, List.length_map, List.length_range, size, Wrapped.toDiff_of_lt (by omega) (by omega)]

theorem visitsLanes_of_active {ls : List Lane} (hvalid : ∀ l ∈ ls, l.Valid) (hactive : Active ls)
    (horder : InOrder ls) (hcount : ∀ l ∈ ls, l.axis.count = l.count)
    (hprod : (ls.map Lane.count).prod < 2 ^ 63) : VisitsLanes ls := by
  have hvisits := getElem?_visits_lanes hvalid hactive horder hcount hprod
  have hpos : ∀ c ∈ ls.map Lane.count, 0 < c := by
    intro c hc
    obtain ⟨l, hl, rfl⟩ := List.mem_map.mp hc
    rw [(hvalid l hl).lt_count_iff, l.coord_zero]
    exact hactive l hl
  have hfits : ∀ index, MixedRadix.Fits (MixedRadix.digits (ls.map Lane.count) index) (ls.map Lane.count) :=
    fun index => MixedRadix.digits_fits index hpos
  have hhas : ∀ index, List.Forall₂ Lane.Has ls (coords ls (MixedRadix.digits (ls.map Lane.count) index)) :=
    fun index => (coords_has hvalid _).mpr ⟨_, hfits index, rfl⟩
  constructor
  · intro x hx
    obtain ⟨ks, hks, rfl⟩ := (coords_has hvalid x).mp hx
    refine ⟨MixedRadix.ofDigits (ls.map Lane.count) ks, ?_, ?_⟩
    · refine (hvisits _ _).mpr ⟨MixedRadix.ofDigits_lt hks, ?_⟩
      rw [MixedRadix.digits_ofDigits hks]
    · intro index hindex
      obtain ⟨hlt, heq⟩ := (hvisits _ _).mp hindex
      have heq' := map_ofDiff_injective (forall₂_has_range hvalid (hhas index)) (forall₂_has_range hvalid hx) heq
      have hdigits := coords_injective hvalid ((hfits index).length_eq.trans (List.length_map _))
        (hks.length_eq.trans (List.length_map _)) heq'
      rw [← hdigits, MixedRadix.ofDigits_digits hlt]
  · intro v hv
    obtain ⟨index, hindex⟩ := List.mem_iff_getElem?.mp hv
    obtain ⟨-, heq⟩ := (hvisits _ _).mp hindex
    exact ⟨_, hhas index, heq⟩
  · refine size_eq ?_
    rwa [totalPositions_lanes hcount hprod]

theorem visitsLanes_of_not_active {ls : List Lane} (hvalid : ∀ l ∈ ls, l.Valid) (hactive : ¬ Active ls) :
    VisitsLanes ls := by
  have hnil := visits_of_not_active hvalid hactive
  constructor
  · intro x hx
    refine absurd (fun l hl => ?_) hactive
    obtain ⟨v, hhas⟩ : ∃ v, l.Has v := by
      obtain ⟨i, hi, rfl⟩ := List.mem_iff_getElem.mp hl
      exact ⟨_, hx.get hi (hx.length_eq ▸ hi)⟩
    obtain ⟨k, hk, -⟩ := ((hvalid l hl).has_iff v).mp hhas
    have hfirst := ((hvalid l hl).lt_count_iff 0).mp (Nat.zero_lt_of_lt hk)
    rwa [l.coord_zero] at hfirst
  · rw [hnil]
    exact fun v hv => absurd hv List.not_mem_nil
  · have hzero : totalPositions (ls.map Lane.axis) = 0 := by
      have := congrArg List.length hnil
      rwa [visits, List.length_map, List.length_range, List.length_nil] at this
    refine size_eq ?_
    rw [hzero]
    decide

end CyclicPartition

end Cccl.Places
