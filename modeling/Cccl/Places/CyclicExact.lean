/-
# When elements in turn are a partition

The shapes of all places visit each element of a box once, and nothing else, if and only if (`cyclicSplits_iff`): the
box has no elements; or no place is left over by the rank, no dimension leaves the order that the iterator sees, and no
number is too large.

That this is enough was shown for each place (`VisitsLanes`).  For the converse, an element is named that is not visited
otherwise: one that follows on the first of a dimension (`le_of_visited`), one that follows on the end of a dimension
that never starts over (`stop_of_visited`), and the last one of all, which is visited too late (`total_of_visited`).
-/
import Cccl.Places.CyclicPartition

namespace Cccl.Places.CyclicPartition

variable {box : List (ℤ × ℤ)} {place : Pos4} {grid : Dim4}

/-! ## 1. The property -/

/-- The shapes of the places visit each element of the box exactly once, and no others; a shape has as many elements as
are visited; and if the box begins with zeros, the executor of an element is the place that visits it.  No bound
overflows on the way. -/
structure CyclicSplits (box : List (ℤ × ℤ)) (grid : Dim4) : Prop where
  kept (place : Pos4) : InGrid place grid → (apply box place grid).kept = true
  once (x : List ℤ) : InBox box x → ∃! v : Pos4 × ℕ, InGrid v.1 grid ∧
    (visits (apply box v.1 grid).value)[v.2]? = some (x.map ofDiff)
  only (place : Pos4) : InGrid place grid → ∀ v ∈ visits (apply box place grid).value,
    ∃ x, InBox box x ∧ x.map ofDiff = v
  size (place : Pos4) : InGrid place grid →
    ((visits (apply box place grid).value).length : ℤ) = size (apply box place grid).value
  executor (place : Pos4) : InGrid place grid → (∀ b ∈ box, b.1 = 0) → ∀ x, InBox box x →
    x.map ofDiff ∈ visits (apply box place grid).value → getExecutor (posOf fun d => (x.getD d 0).toNat) grid = place

def origin : Pos4 := ⟨0, 0, 0, 0⟩

/-- No place is left over, the iterator sees the order of all positions, and no number is too large. -/
structure Regular (box : List (ℤ × ℤ)) (grid : Dim4) : Prop where
  axes : ∀ d < 4, box.length ≤ d → grid.get d = 1
  order : InOrder (lanes box origin grid)
  counts : ∀ l ∈ lanes box origin grid, l.hi - l.lo + l.grid ≤ 2 ^ 64
  total : ((lanes box origin grid).map Lane.maxCount).prod < 2 ^ 63

/-- The condition. -/
structure Fit (box : List (ℤ × ℤ)) (grid : Dim4) : Prop where
  begins : ∀ l ∈ lanes box origin grid, l.lo + l.grid ≤ 2 ^ 63
  regular : (∃ b ∈ box, b.1 = b.2) ∨ Regular box grid

/-! ## 2. The lanes of all places -/

/-- The lane of another place. -/
def Lane.atPlace (p : ℕ) (l : Lane) : Lane := ⟨l.lo, l.hi, l.grid, p⟩

theorem get_origin (d : ℕ) : origin.get d = 0 := by
  unfold Pos4.get
  split <;> rfl

theorem lanes_origin (place : Pos4) : lanes box origin grid = (lanes box place grid).map (Lane.atPlace 0) := by
  refine List.ext_getElem (by simp only [lanes, List.length_map, List.length_mapIdx]) fun d _ _ => ?_
  simp only [lanes, List.getElem_map, List.getElem_mapIdx, get_origin, Lane.atPlace]

theorem inOrder_map_atPlace (ls : List Lane) : InOrder (ls.map (Lane.atPlace 0)) ↔ InOrder ls := by
  induction ls with
  | nil => exact Iff.rfl
  | cons l ls ih =>
    rw [List.map_cons, InOrder, InOrder, ih, List.forall_mem_map]
    exact Iff.rfl

theorem maxCount_map_atPlace (ls : List Lane) : (ls.map (Lane.atPlace 0)).map Lane.maxCount = ls.map Lane.maxCount := by
  rw [List.map_map]
  rfl

theorem prod_count_le (ls : List Lane) : (ls.map Lane.count).prod ≤ (ls.map Lane.maxCount).prod :=
  List.prod_le_prod' fun _ _ => Lane.Valid.count_le_maxCount

/-- **In a regular box each place visits its lanes.** -/
theorem visitsLanes_of_fit (h : IsBox box grid) (hfit : Fit box grid) (hplace : InGrid place grid) :
    VisitsLanes (lanes box place grid) := by
  have hvalid := h.valid hplace
  by_cases hactive : Active (lanes box place grid)
  · rcases hfit.regular with ⟨b, hb, hempty⟩ | hregular
    · obtain ⟨d, hd, rfl⟩ := List.mem_iff_getElem.mp hb
      have hless : box[d].1 + place.get d < box[d].2 := hactive _ (mem_lanes.mpr ⟨d, hd, rfl⟩)
      omega
    · have horder := hregular.order
      have hcounts := hregular.counts
      have htotal := hregular.total
      rw [lanes_origin place] at horder hcounts htotal
      rw [maxCount_map_atPlace] at htotal
      refine visitsLanes_of_active hvalid hactive ((inOrder_map_atPlace _).mp horder) (fun l hl => ?_)
        ((prod_count_le _).trans_lt htotal)
      rw [(hvalid l hl).axis_count_eq_iff]
      have hle : l.hi - l.lo + l.grid ≤ 2 ^ 64 := hcounts (l.atPlace 0) (List.mem_map_of_mem hl)
      omega
  · exact visitsLanes_of_not_active hvalid hactive

theorem inBox_range (h : IsBox box grid) {x : List ℤ} (hx : InBox box x) : ∀ v ∈ x, -2 ^ 63 ≤ v ∧ v < 2 ^ 63 := by
  obtain ⟨hlength, hbounds⟩ := inBox_iff.mp hx
  intro v hv
  obtain ⟨d, hd, rfl⟩ := List.mem_iff_getElem.mp hv
  obtain ⟨hlo, -, hhi⟩ := h.bounds _ (List.getElem_mem (hlength ▸ hd))
  obtain ⟨hle, hlt⟩ := hbounds d (hlength ▸ hd) hd
  exact ⟨hlo.trans hle, hlt.trans hhi⟩

theorem kept_apply_iff (h : IsBox box grid) :
    (apply box place grid).kept = true ↔ ∀ l ∈ lanes box place grid, l.lo + l.place < 2 ^ 63 := by
  rw [apply, (applyFrom_spec box 0).2]
  simp only [Nat.zero_add]
  constructor
  · intro hkept l hl
    obtain ⟨d, hd, rfl⟩ := mem_lanes.mp hl
    exact (hkept d hd).2
  · intro hlt d hd
    have hlo := (h.bounds _ (List.getElem_mem hd)).1
    exact ⟨by omega, hlt _ (mem_lanes.mpr ⟨d, hd, rfl⟩)⟩

theorem get_getExecutor (coords : Pos4) (grid : Dim4) (d : ℕ) :
    (getExecutor coords grid).get d = coords.get d % grid.get d := by
  unfold Pos4.get Dim4.get
  split <;> rfl

/-! ## 3. The condition is enough -/

theorem eq_owner_of_visited (h : IsBox box grid) (hfit : Fit box grid) (hplace : InGrid place grid) {x : List ℤ}
    (hx : InBox box x) (hvisited : x.map ofDiff ∈ visits (apply box place grid).value) :
    place = owner box grid x := by
  rw [value_apply] at hvisited
  obtain ⟨y, hy, heq⟩ := (visitsLanes_of_fit h hfit hplace).only _ hvisited
  obtain ⟨hybox, hyowner⟩ := h.has_iff.mp hy
  obtain rfl := map_ofDiff_injective (inBox_range h hybox) (inBox_range h hx) heq
  refine pos4_ext fun d hd => ?_
  rcases Nat.lt_or_ge d box.length with hlt | hge
  · exact hyowner d hlt
  · rcases hfit.regular with ⟨b, hb, hempty⟩ | hregular
    · obtain ⟨e, he, rfl⟩ := List.mem_iff_getElem.mp hb
      obtain ⟨hlength, hbounds⟩ := inBox_iff.mp hx
      have := hbounds e he (hlength ▸ he)
      omega
    · have hone := hregular.axes d hd hge
      have hp := hplace d hd
      have ho := h.owner_inGrid y d hd
      omega

theorem cyclicSplits_of_fit (h : IsBox box grid) (hfit : Fit box grid) : CyclicSplits box grid := by
  constructor
  · intro place hplace
    rw [kept_apply_iff h]
    intro l hl
    have hle : l.lo + l.grid ≤ 2 ^ 63 := by
      refine hfit.begins (l.atPlace 0) ?_
      rw [lanes_origin place]
      exact List.mem_map_of_mem hl
    have hlt := (h.valid hplace l hl).place
    omega
  · intro x hx
    have howner := h.owner_inGrid x
    obtain ⟨index, hindex, hunique⟩ := (visitsLanes_of_fit h hfit howner).once x (h.has_iff.mpr ⟨hx, fun _ _ => rfl⟩)
    rw [← value_apply] at hindex
    refine ⟨(owner box grid x, index), ⟨howner, hindex⟩, ?_⟩
    rintro ⟨place, index'⟩ ⟨hplace, hindex'⟩
    obtain rfl := eq_owner_of_visited h hfit hplace hx (List.mem_of_getElem? hindex')
    have hvalue : index' = index := by
      refine hunique index' ?_
      rw [← value_apply]
      exact hindex'
    rw [hvalue]
  · intro place hplace v hv
    rw [value_apply] at hv
    obtain ⟨x, hx, rfl⟩ := (visitsLanes_of_fit h hfit hplace).only v hv
    exact ⟨x, (h.has_iff.mp hx).1, rfl⟩
  · intro place hplace
    rw [value_apply]
    exact (visitsLanes_of_fit h hfit hplace).size
  · intro place hplace hzero x hx hvisited
    obtain rfl := eq_owner_of_visited h hfit hplace hx hvisited
    obtain ⟨hlength, hbounds⟩ := inBox_iff.mp hx
    have hexecutor : ∀ d < 4, (x.getD d 0).toNat % grid.get d =
        ((x.getD d 0 - (box.getD d (0, 0)).1) % grid.get d).toNat := by
      intro d hd
      have hbegin : (box.getD d (0, 0)).1 = 0 := by
        rcases Nat.lt_or_ge d box.length with hlt | hge
        · rw [List.getD_eq_getElem _ _ hlt]
          exact hzero _ (List.getElem_mem hlt)
        · rw [List.getD_eq_default _ _ hge]
      have hnonneg : 0 ≤ x.getD d 0 := by
        rcases Nat.lt_or_ge d x.length with hlt | hge
        · rw [List.getD_eq_getElem _ _ hlt]
          have hlt' : d < box.length := hlength ▸ hlt
          rw [← hzero _ (List.getElem_mem hlt')]
          exact (hbounds d hlt' hlt).1
        · rw [List.getD_eq_default _ _ hge]
      obtain ⟨n, hn⟩ := Int.eq_ofNat_of_zero_le hnonneg
      rw [hbegin, sub_zero, hn, Int.toNat_natCast, ← Int.natCast_mod, Int.toNat_natCast]
    refine pos4_ext fun d hd => ?_
    rw [get_getExecutor, get_posOf _ hd, hexecutor d hd, owner, get_posOf _ hd]

/-! ## 4. Runs -/

/-- **What holds of all that is visited**: it holds at the beginning, and a step preserves it. -/
theorem visits_induction {ls : List Lane} {M : ℕ → List ℕ → Prop}
    (hfirst : M 0 (ls.map fun l => l.axis.begins))
    (hstep : ∀ i v, v ∈ visits (ls.map Lane.axis) →
      increment (ls.map Lane.axis) v ∈ visits (ls.map Lane.axis) → M i v → M (i + 1) (increment (ls.map Lane.axis) v)) :
    ∀ (i : ℕ) (v : List ℕ), (visits (ls.map Lane.axis))[i]? = some v → M i v := by
  intro i
  induction i with
  | zero =>
    intro v hv
    obtain ⟨-, rfl⟩ := (getElem?_visits _ _ _).mp hv
    rw [Function.iterate_zero, id, List.map_map]
    exact hfirst
  | succ i ih =>
    intro v hv
    have hafter := List.mem_of_getElem? hv
    obtain ⟨hlt, rfl⟩ := (getElem?_visits _ _ _).mp hv
    rw [Function.iterate_succ_apply'] at hafter ⊢
    have hbefore := (getElem?_visits (ls.map Lane.axis) i _).mpr ⟨Nat.lt_of_succ_lt hlt, rfl⟩
    exact hstep i _ (List.mem_of_getElem? hbefore) hafter (ih _ hbefore)

/-- The position is one of the lane, for its place. -/
def OnLane (l : Lane) (v : ℕ) : Prop := l.Valid ∧ ∃ k < l.count, ofDiff (l.coord k) = v

/-- The position is one of the lane, for any place. -/
def InLane (l : Lane) (v : ℕ) : Prop := ∃ x, l.lo ≤ x ∧ x < l.hi ∧ ofDiff x = v

theorem OnLane.next {l : Lane} {v v' : ℕ} (h : OnLane l v) (hnext : l.axis.next v = some v') (hin : InLane l v') :
    OnLane l v' := by
  obtain ⟨hv, k, hk, rfl⟩ := h
  obtain ⟨x, hxlo, hxhi, hx⟩ := hin
  have hgrid := hv.grid
  have hlo := hv.lo
  have hhi := hv.hi
  have hlt := (hv.lt_count_iff k).mp hk
  have hlow := l.le_coord k
  have hadd := l.coord_add k
  rw [l.next_ofDiff, hadd] at hnext
  split at hnext
  · rename_i hless
    obtain rfl := Option.some.inj hnext
    refine ⟨hv, k + 1, (hv.lt_count_iff (k + 1)).mpr ?_, rfl⟩
    rcases lt_or_ge l.hi 0 with hneg | hnonneg
    · have := ofDiff_injective ⟨hlo.trans hxlo, by omega⟩ ⟨by omega, by omega⟩ hx
      omega
    · by_contra hle
      have h₁ := ofDiff_nonneg (v := l.coord (k + 1)) (by omega) (by omega)
      have h₂ := ofDiff_nonneg hnonneg (by omega)
      omega
  · exact absurd hnext (Option.some_ne_none _).symm

/-- **Nothing but the positions of the place is visited**, if nothing else than the box is visited. -/
theorem onLane_of_visited {ls : List Lane} (hfirst : ∀ l ∈ ls, OnLane l l.axis.begins)
    (hin : ∀ v ∈ visits (ls.map Lane.axis), List.Forall₂ InLane ls v) {v : List ℕ}
    (hv : v ∈ visits (ls.map Lane.axis)) : List.Forall₂ OnLane ls v := by
  obtain ⟨i, hi⟩ := List.mem_iff_getElem?.mp hv
  refine visits_induction (M := fun _ v => List.Forall₂ OnLane ls v) ?_ ?_ i v hi
  · exact List.forall₂_map_right_iff.mpr (List.forall₂_same.mpr hfirst)
  · intro _ w _ hafter hon
    have hinto := hin _ hafter
    rw [increment_lanes] at hinto ⊢
    exact Odometer.forall₂_advance (Q := InLane) (fun l v v' hl hnext => hl.next hnext) hfirst hon hinto

/-- What is visited is where a dimension begins, or the iterator sees it before the end. -/
theorem begins_or_lt_of_visited {ls : List Lane}
    (hin : ∀ v ∈ visits (ls.map Lane.axis), List.Forall₂ InLane ls v) {v : List ℕ}
    (hv : v ∈ visits (ls.map Lane.axis)) : List.Forall₂ (fun l v => v = l.axis.begins ∨ v < l.axis.ends) ls v := by
  obtain ⟨i, hi⟩ := List.mem_iff_getElem?.mp hv
  have hfirst : ∀ l ∈ ls, l.axis.begins = l.axis.begins ∨ l.axis.begins < l.axis.ends := fun _ _ => Or.inl rfl
  refine visits_induction (M := fun _ v => List.Forall₂ (fun l v => v = l.axis.begins ∨ v < l.axis.ends) ls v)
    ?_ ?_ i v hi
  · exact List.forall₂_map_right_iff.mpr (List.forall₂_same.mpr hfirst)
  · intro _ w _ hafter hon
    have hinto := hin _ hafter
    rw [increment_lanes] at hinto ⊢
    refine Odometer.forall₂_advance (fun (l : Lane) v v' _ hnext _ => ?_) hfirst hon hinto
    unfold Axis.next at hnext
    split at hnext
    · rename_i hless
      obtain rfl := Option.some.inj hnext
      exact Or.inr hless
    · exact absurd hnext (Option.some_ne_none _).symm

/-- **A dimension that never starts over** keeps the ones after it where they begin. -/
theorem frozen_of_visited {before after : List Lane} {l : Lane}
    (hon : ∀ v ∈ visits ((before ++ l :: after).map Lane.axis), List.Forall₂ OnLane (before ++ l :: after) v)
    (hnever : ∀ v, OnLane l v → l.axis.next v ≠ none) {v : List ℕ}
    (hv : v ∈ visits ((before ++ l :: after).map Lane.axis)) :
    ∃ vs u, vs.length = before.length ∧ v = vs ++ u :: after.map fun l => l.axis.begins := by
  obtain ⟨i, hi⟩ := List.mem_iff_getElem?.mp hv
  refine visits_induction (M := fun _ v => ∃ vs u, vs.length = before.length ∧
    v = vs ++ u :: after.map fun l => l.axis.begins) ?_ ?_ i v hi
  · refine ⟨before.map fun l => l.axis.begins, l.axis.begins, List.length_map _, ?_⟩
    rw [List.map_append, List.map_cons]
  · rintro _ _ hbefore - ⟨vs, u, hlength, rfl⟩
    have hu : OnLane l u := by
      have h := List.forall₂_drop_append _ _ _ (hon _ hbefore)
      rw [hlength, List.drop_left] at h
      exact (List.forall₂_cons.mp h).1
    obtain ⟨u', hu'⟩ := Option.ne_none_iff_exists'.mp (hnever u hu)
    obtain ⟨vs', v'', hlength', hstep⟩ := @Odometer.advance_frozen _ _
      (fun l : Lane => l.axis.begins) (fun l => l.axis.next) _ _ _ hu' after (after.map fun l => l.axis.begins) _ _ hlength
    rw [increment_lanes, hstep]
    exact ⟨vs', v'', hlength', rfl⟩

/-- The index of a position in its lane. -/
def Lane.digit (l : Lane) (v : ℕ) : ℕ := sizeSub v l.axis.begins / l.grid

theorem Lane.digit_begins (l : Lane) : l.digit l.axis.begins = 0 := by
  change sizeSub (ofDiff (l.lo + l.place)) (ofDiff (l.lo + l.place)) / l.grid = 0
  rw [sizeSub_ofDiff, sub_self]
  exact Nat.zero_div _

theorem Lane.digit_coord_le (l : Lane) (k : ℕ) : l.digit (ofDiff (l.coord k)) ≤ k := by
  have hsub : l.coord k - (l.lo + l.place) = ((k * l.grid : ℕ) : ℤ) := by
    rw [Lane.coord, Nat.cast_mul]
    omega
  change sizeSub (ofDiff (l.coord k)) (ofDiff (l.lo + l.place)) / l.grid ≤ k
  rw [sizeSub_ofDiff, hsub, ofDiff, ← Nat.cast_ofNat, ← Nat.cast_pow, ← Int.natCast_mod, Int.toNat_natCast]
  refine Nat.div_le_of_le_mul ?_
  rw [Nat.mul_comm l.grid]
  exact Nat.mod_le _ _

theorem Lane.Valid.digit_coord {l : Lane} (h : l.Valid) {k : ℕ} (hk : k < l.count) :
    l.digit (ofDiff (l.coord k)) = k := by
  have hlt := (h.lt_count_iff k).mp hk
  have hlo := h.lo
  have hhi := h.hi
  have hsub : l.coord k - (l.lo + l.place) = ((k * l.grid : ℕ) : ℤ) := by
    rw [Lane.coord, Nat.cast_mul]
    omega
  change sizeSub (ofDiff (l.coord k)) (ofDiff (l.lo + l.place)) / l.grid = k
  rw [sizeSub_ofDiff, hsub, ofDiff, Int.emod_eq_of_lt (Int.natCast_nonneg _) (by omega), Int.toNat_natCast,
    Nat.mul_div_cancel _ h.grid.1]

/-- **The number of an element is at most its index.** -/
theorem rank_le_of_visited {ls : List Lane} (hsign : ∀ l ∈ ls, 0 ≤ l.hi → 0 ≤ l.lo + l.grid)
    (hon : ∀ v ∈ visits (ls.map Lane.axis), List.Forall₂ OnLane ls v) {i : ℕ} {v : List ℕ}
    (hv : (visits (ls.map Lane.axis))[i]? = some v) : Odometer.rank Lane.count Lane.digit ls v ≤ i := by
  refine visits_induction (M := fun i v => Odometer.rank Lane.count Lane.digit ls v ≤ i) ?_ ?_ i v hv
  · exact (Odometer.rank_first Lane.digit_begins ls).le
  · intro i w hbefore _ hle
    have hboth := (List.forall₂_and_left _ _).mpr ⟨hsign, hon w hbefore⟩
    rw [increment_lanes]
    refine (Odometer.rank_advance_le Lane.digit_begins ?_ ?_ hboth).trans (Nat.succ_le_succ hle)
    · rintro l v v' ⟨-, hv, k, hk, rfl⟩ hnext
      rw [l.next_ofDiff, l.coord_add] at hnext
      split at hnext
      · obtain rfl := Option.some.inj hnext
        rw [hv.digit_coord hk]
        exact l.digit_coord_le (k + 1)
      · exact absurd hnext (Option.some_ne_none _).symm
    · rintro l v ⟨hsign, hv, k, hk, rfl⟩ hnext
      rw [hv.digit_coord hk]
      by_contra hmore
      rw [hv.next_coord hsign (Nat.lt_of_not_le hmore)] at hnext
      exact absurd hnext (Option.some_ne_none _)

/-! ## 5. The condition is necessary -/

/-- The element with these coordinates. -/
def element (box : List (ℤ × ℤ)) (f : ℕ → ℤ) : List ℤ := (List.range box.length).map f

/-- The first coordinates. -/
def least (box : List (ℤ × ℤ)) (d : ℕ) : ℤ := (box.getD d (0, 0)).1

theorem length_element (f : ℕ → ℤ) : (element box f).length = box.length := by
  rw [element, List.length_map, List.length_range]

theorem inBox_element {f : ℕ → ℤ} (h : ∀ (d : ℕ) (hd : d < box.length), box[d].1 ≤ f d ∧ f d < box[d].2) :
    InBox box (element box f) := by
  refine inBox_iff.mpr ⟨length_element f, fun d hd hd' => ?_⟩
  simp only [element, List.getElem_map, List.getElem_range]
  exact h d hd

theorem least_bounds (hne : ∀ b ∈ box, b.1 < b.2) (d : ℕ) (hd : d < box.length) :
    box[d].1 ≤ least box d ∧ least box d < box[d].2 := by
  rw [least, List.getD_eq_getElem _ _ hd]
  exact ⟨le_refl _, hne _ (List.getElem_mem hd)⟩

/-- What is true of the positions of a visited element, in each dimension. -/
theorem of_forall₂_element {P : Lane → ℕ → Prop} {f : ℕ → ℤ}
    (h : List.Forall₂ P (lanes box place grid) ((element box f).map ofDiff)) (d : ℕ) (hd : d < box.length) :
    P ⟨box[d].1, box[d].2, grid.get d, place.get d⟩ (ofDiff (f d)) := by
  obtain ⟨hlength, hP⟩ := forall₂_lanes.mp h
  have := hP d hd (hlength ▸ hd)
  simpa only [element, List.getElem_map, List.getElem_range] using this

theorem lanes_congr {place' : Pos4} (h : ∀ d < box.length, place.get d = place'.get d) :
    lanes box place grid = lanes box place' grid := by
  refine List.ext_getElem (by simp only [lanes, List.length_mapIdx]) fun d hd _ => ?_
  rw [lanes, List.length_mapIdx] at hd
  simp only [lanes, List.getElem_mapIdx, h d hd]

section

variable (h : IsBox box grid) (hs : CyclicSplits box grid) (hne : ∀ b ∈ box, b.1 < b.2)

include hs in
theorem exists_visited {f : ℕ → ℤ} (hf : ∀ (d : ℕ) (hd : d < box.length), box[d].1 ≤ f d ∧ f d < box[d].2) :
    ∃ (place : Pos4) (index : ℕ), InGrid place grid ∧
      (visits ((lanes box place grid).map Lane.axis))[index]? = some ((element box f).map ofDiff) := by
  obtain ⟨⟨place, index⟩, ⟨hplace, hindex⟩, -⟩ := hs.once _ (inBox_element hf)
  rw [value_apply] at hindex
  exact ⟨place, index, hplace, hindex⟩

include hs in
theorem inLane_of_visited (hplace : InGrid place grid) :
    ∀ v ∈ visits ((lanes box place grid).map Lane.axis), List.Forall₂ InLane (lanes box place grid) v := by
  intro v hv
  rw [← value_apply] at hv
  obtain ⟨x, hx, rfl⟩ := hs.only place hplace v hv
  obtain ⟨hlength, hbounds⟩ := inBox_iff.mp hx
  refine forall₂_lanes.mpr ⟨(List.length_map _).trans hlength, fun d hd hd' => ?_⟩
  rw [List.getElem_map]
  obtain ⟨hlo, hhi⟩ := hbounds d hd (hlength ▸ hd)
  exact ⟨_, hlo, hhi, rfl⟩

include h hs in
theorem onLane_visited (hplace : InGrid place grid) :
    ∀ v ∈ visits ((lanes box place grid).map Lane.axis), List.Forall₂ OnLane (lanes box place grid) v := by
  have hin := inLane_of_visited hs hplace
  have hvalid := h.valid hplace
  intro v hv
  refine onLane_of_visited (fun l hl => ?_) hin hv
  have hfirst : (visits ((lanes box place grid).map Lane.axis))[0]? =
      some ((lanes box place grid).map fun l => l.axis.begins) := by
    obtain ⟨i, hi⟩ := List.mem_iff_getElem?.mp hv
    obtain ⟨hlt, -⟩ := (getElem?_visits _ _ _).mp hi
    refine (getElem?_visits _ _ _).mpr ⟨Nat.zero_lt_of_lt hlt, ?_⟩
    rw [Function.iterate_zero, id, List.map_map]
    rfl
  have hbegins := hin _ (List.mem_of_getElem? hfirst)
  rw [List.forall₂_map_right_iff, List.forall₂_same] at hbegins
  obtain ⟨x, hxlo, hxhi, hx⟩ := hbegins l hl
  have hv := hvalid l hl
  have hkept := (kept_apply_iff h).mp (hs.kept place hplace) l hl
  have hlo := hv.lo
  have hhi := hv.hi
  have hstart : x = l.lo + l.place := ofDiff_injective ⟨by omega, by omega⟩ ⟨by omega, hkept⟩ hx
  refine ⟨hv, 0, ?_, ?_⟩
  · rw [hv.lt_count_iff, l.coord_zero, ← hstart]
    exact hxhi
  · rw [l.coord_zero]
    rfl

include h hs hne in
/-- **No place is left over by the rank.** -/
theorem axes_of_visited : ∀ d < 4, box.length ≤ d → grid.get d = 1 := by
  intro d hd hrank
  obtain ⟨place, index, hplace, hindex⟩ := exists_visited hs (least_bounds hne)
  obtain ⟨v, -, hunique⟩ := hs.once _ (inBox_element (least_bounds hne))
  -- the first and the last place beyond the rank have the same lanes
  have hother : ∀ g : ℕ → ℕ, (∀ e < 4, g e < grid.get e) →
      (posOf (fun e => if e < box.length then place.get e else g e), index) = v := by
    intro g hg
    have hget : ∀ e < box.length, place.get e = (posOf fun e => if e < box.length then place.get e else g e).get e := by
      intro e he
      rw [get_posOf _ (he.trans_le h.rank), if_pos he]
    refine hunique _ ⟨fun e he => ?_, ?_⟩
    · rw [get_posOf _ he]
      split
      · exact hplace e he
      · exact hg e he
    · rw [value_apply, ← lanes_congr hget]
      exact hindex
  have hfirst := hother (fun _ => 0) fun e he => (h.extents e he).1
  have hlast := hother (fun e => grid.get e - 1) fun e he => Nat.sub_lt (h.extents e he).1 Nat.one_pos
  have heq := congrArg (fun p => p.1.get d) (hfirst.trans hlast.symm)
  simp only [get_posOf _ hd, if_neg hrank.not_gt] at heq
  have hpos := (h.extents d hd).1
  omega

include h hs hne in
/-- **Where the bounds are of both signs**, the second position is not negative. -/
theorem sign_of_visited (d : ℕ) (hd : d < box.length) (hhi : 0 ≤ box[d].2) : 0 ≤ box[d].1 + grid.get d := by
  by_contra hneg
  have hd4 : d < 4 := hd.trans_le h.rank
  obtain ⟨hlo, hle, hlt⟩ := h.bounds _ (List.getElem_mem hd)
  obtain ⟨hpos, hmax⟩ := h.extents d hd4
  obtain ⟨place, index, hplace, hindex⟩ := exists_visited (f := Function.update (least box) d (box[d].1 + grid.get d)) hs
    (fun e he => by
      rcases eq_or_ne e d with rfl | hne'
      · rw [Function.update_self]
        omega
      · rw [Function.update_of_ne hne']
        exact least_bounds hne e he)
  have hvisited := begins_or_lt_of_visited (inLane_of_visited hs hplace) (List.mem_of_getElem? hindex)
  have hplace' := hplace d hd4
  rcases of_forall₂_element hvisited d hd with hbegin | hless
  · rw [Function.update_self] at hbegin
    have heq : box[d].1 + (grid.get d : ℤ) = box[d].1 + place.get d :=
      ofDiff_injective ⟨by omega, by omega⟩ ⟨by omega, by omega⟩ hbegin
    omega
  · rw [Function.update_self] at hless
    have h₁ := ofDiff_neg (v := box[d].1 + grid.get d) (by omega) (by omega)
    have h₂ := ofDiff_nonneg hhi (by omega)
    have h₃ : ofDiff (box[d].1 + grid.get d) < ofDiff box[d].2 := hless
    omega

omit h hs hne in
/-- Where a position follows on the end that is not negative, the dimension does not start over. -/
theorem Lane.Valid.next_ne_none {l : Lane} (hv : l.Valid) (hhi : l.hi < 0) (hover : 0 < l.hi + l.grid) {k k' : ℕ}
    (hk : k < l.count) (hlast : ofDiff (l.coord k) = ofDiff (l.hi - 1)) (hk' : k' < l.count) :
    l.axis.next (ofDiff (l.coord k')) ≠ none := by
  have hlo := hv.lo
  have hgrid := hv.grid
  have hlow := l.le_coord k
  have hlt := (hv.lt_count_iff k).mp hk
  have hlt' := (hv.lt_count_iff k').mp hk'
  have hend := ofDiff_neg hhi (by omega)
  have hadd := l.coord_add k
  replace hlast : l.coord k = l.hi - 1 := ofDiff_injective ⟨by omega, by omega⟩ ⟨by omega, by omega⟩ hlast
  have hless : ofDiff (l.coord (k' + 1)) < ofDiff l.hi := by
    rcases lt_trichotomy k' k with hbefore | rfl | hafter
    · have hmono := l.coord_mono (show k' + 1 ≤ k from hbefore)
      have hlow' := l.le_coord (k' + 1)
      have h₁ := ofDiff_neg (v := l.coord (k' + 1)) (by omega) (by omega)
      omega
    · have h₁ := ofDiff_nonneg (v := l.coord (k' + 1)) (by omega) (by omega)
      omega
    · have hmono := l.coord_mono (show k + 1 ≤ k' from hafter)
      omega
  rw [l.next_ofDiff, l.coord_add, if_pos hless]
  exact Option.some_ne_none _

include h hs hne in
/-- **A dimension that does not start over in time** has no room after it for another position. -/
theorem stop_of_visited (d e : ℕ) (hde : d < e) (he : e < box.length) (hhi : box[d].2 < 0)
    (hover : 0 < box[d].2 + grid.get d) : box[e].2 - box[e].1 ≤ grid.get e := by
  by_contra hroom
  have hd : d < box.length := hde.trans he
  have hd4 : d < 4 := hd.trans_le h.rank
  have he4 : e < 4 := he.trans_le h.rank
  obtain ⟨hlo, -, hlt⟩ := h.bounds _ (List.getElem_mem hd)
  obtain ⟨hlo', -, hlt'⟩ := h.bounds _ (List.getElem_mem he)
  have hless := hne _ (List.getElem_mem hd)
  obtain ⟨hpos, hmax⟩ := h.extents d hd4
  obtain ⟨place, index, hplace, hindex⟩ := exists_visited
    (f := Function.update (Function.update (least box) d (box[d].2 - 1)) e (box[e].1 + grid.get e)) hs
    (fun c hc => by
      rcases eq_or_ne c e with rfl | hce
      · rw [Function.update_self]
        omega
      · rw [Function.update_of_ne hce]
        rcases eq_or_ne c d with rfl | hcd
        · rw [Function.update_self]
          omega
        · rw [Function.update_of_ne hcd]
          exact least_bounds hne c hc)
  have hon := onLane_visited h hs hplace
  have hvisited := List.mem_of_getElem? hindex
  obtain ⟨hv, k, hk, hlast⟩ := of_forall₂_element (hon _ hvisited) d hd
  rw [Function.update_of_ne hde.ne, Function.update_self] at hlast
  have hnever : ∀ v, OnLane ⟨box[d].1, box[d].2, grid.get d, place.get d⟩ v →
      Axis.next (Lane.axis ⟨box[d].1, box[d].2, grid.get d, place.get d⟩) v ≠ none := by
    rintro v ⟨-, k', hk', rfl⟩
    exact hv.next_ne_none hhi hover hk hlast hk'
  have hsplit : lanes box place grid = (lanes box place grid).take d ++
      ⟨box[d].1, box[d].2, grid.get d, place.get d⟩ :: (lanes box place grid).drop (d + 1) := by
    have hd' : d < (lanes box place grid).length := by
      rw [lanes, List.length_mapIdx]
      exact hd
    have hdrop := List.drop_eq_getElem_cons hd'
    simp only [lanes, List.getElem_mapIdx] at hdrop
    rw [lanes, ← hdrop, List.take_append_drop]
  have hlength' : ((lanes box place grid).take d).length = d := by
    rw [List.length_take, lanes, List.length_mapIdx]
    exact Nat.min_eq_left hd.le
  rw [hsplit] at hon hvisited
  obtain ⟨vs, u, hlength, heq⟩ := frozen_of_visited hon hnever hvisited
  rw [hlength'] at hlength
  obtain ⟨j, rfl⟩ := Nat.exists_eq_add_of_lt hde
  have hget := congrArg (fun v : List ℕ => v[d + j + 1]?) heq
  have hindex' : d + j + 1 - vs.length = j + 1 := by omega
  simp only [element, List.getElem?_map, List.getElem?_range he, List.getElem?_append_right (show vs.length ≤ d + j + 1 by omega),
    hindex', List.getElem?_cons_succ, List.getElem?_drop, lanes, List.getElem?_mapIdx] at hget
  rw [show d + 1 + j = d + j + 1 by omega, List.getElem?_eq_getElem he] at hget
  have hsame : ofDiff (box[d + j + 1].1 + grid.get (d + j + 1)) = ofDiff (box[d + j + 1].1 + place.get (d + j + 1)) := by
    have := Option.some.inj hget
    rwa [Function.update_self] at this
  have hplace' := hplace (d + j + 1) he4
  have hequal : box[d + j + 1].1 + (grid.get (d + j + 1) : ℤ) = box[d + j + 1].1 + place.get (d + j + 1) :=
    ofDiff_injective ⟨by omega, by omega⟩ ⟨by omega, by omega⟩ hsame
  omega

/-- The product of the counts is one more than the number of the last element. -/
theorem rank_last : ∀ {ls : List Lane}, (∀ l ∈ ls, l.Valid) → (∀ l ∈ ls, 0 < l.count) →
    Odometer.rank Lane.count Lane.digit ls (ls.map fun l => ofDiff (l.coord (l.count - 1))) + 1 = (ls.map Lane.count).prod
  | [], _, _ => rfl
  | l :: ls, hvalid, hpos => by
    have ih := rank_last (fun e he => hvalid e (List.mem_cons_of_mem _ he)) fun e he => hpos e (List.mem_cons_of_mem _ he)
    have hl := hpos l List.mem_cons_self
    rw [List.map_cons, List.map_cons, List.prod_cons, ← ih]
    change l.digit (ofDiff (l.coord (l.count - 1))) + l.count * Odometer.rank _ _ ls _ + 1 = _
    rw [(hvalid l List.mem_cons_self).digit_coord (by omega), Nat.mul_add, Nat.mul_one]
    omega

/-- Factors that are not larger, with a product that is not smaller, are the same. -/
theorem eq_of_prod_le {α : Type} {f g : α → ℕ} : ∀ {as : List α}, (∀ a ∈ as, f a ≤ g a) →
    0 < (as.map g).prod → (as.map g).prod ≤ (as.map f).prod → ∀ a ∈ as, f a = g a
  | [], _, _, _ => fun a ha => absurd ha List.not_mem_nil
  | a :: as, hle, hpos, hprod => by
    obtain ⟨hlea, hleas⟩ := List.forall_mem_cons.mp hle
    rw [List.map_cons, List.prod_cons] at hpos hprod
    rw [List.map_cons, List.prod_cons] at hprod
    have hga := Nat.pos_of_mul_pos_right hpos
    have hgas := Nat.pos_of_mul_pos_left hpos
    have hless : (as.map f).prod ≤ (as.map g).prod := List.prod_le_prod' hleas
    have hhead : g a ≤ f a := Nat.le_of_mul_le_mul_right (hprod.trans (Nat.mul_le_mul_left _ hless)) hgas
    have htail : (as.map g).prod ≤ (as.map f).prod :=
      Nat.le_of_mul_le_mul_left (hprod.trans (Nat.mul_le_mul_right _ hlea)) hga
    exact List.forall_mem_cons.mpr ⟨Nat.le_antisymm hlea hhead, eq_of_prod_le hleas hgas htail⟩

include h hs hne in
/-- **The last element of all** is visited, so no number was too large. -/
theorem total_of_visited : (∀ l ∈ lanes box origin grid, l.hi - l.lo + l.grid ≤ 2 ^ 64) ∧
    ((lanes box origin grid).map Lane.maxCount).prod < 2 ^ 63 := by
  have horigin : InGrid origin grid := by
    intro d hd
    rw [get_origin]
    exact (h.extents d hd).1
  have hvalid := h.valid horigin
  have hzero : ∀ l ∈ lanes box origin grid, l.place = 0 := by
    intro l hl
    obtain ⟨d, hd, rfl⟩ := mem_lanes.mp hl
    exact get_origin d
  have hpos : ∀ l ∈ lanes box origin grid, 0 < l.count := by
    intro l hl
    rw [(hvalid l hl).lt_count_iff, l.coord_zero, hzero l hl, Nat.cast_zero, add_zero]
    obtain ⟨d, hd, rfl⟩ := mem_lanes.mp hl
    exact hne _ (List.getElem_mem hd)
  have hlength : (lanes box origin grid).length = box.length := List.length_mapIdx
  have hx : InBox box ((lanes box origin grid).map fun l => l.coord (l.count - 1)) := by
    refine inBox_iff.mpr ⟨(List.length_map _).trans hlength, fun d hd hd' => ?_⟩
    have hl := List.getElem_mem (hlength ▸ hd : d < (lanes box origin grid).length)
    have hlo := Lane.le_coord (lanes box origin grid)[d] ((lanes box origin grid)[d].count - 1)
    have hhi := ((hvalid _ hl).lt_count_iff _).mp (Nat.sub_lt (hpos _ hl) Nat.one_pos)
    rw [List.getElem_map]
    simp only [lanes, List.getElem_mapIdx] at hlo hhi ⊢
    exact ⟨hlo, hhi⟩
  obtain ⟨⟨place, index⟩, ⟨hplace, hindex⟩, -⟩ := hs.once _ hx
  rw [value_apply] at hindex
  have hon := onLane_visited h hs hplace _ (List.mem_of_getElem? hindex)
  -- the last element is one of the first place
  have hfirst : ∀ d < box.length, place.get d = origin.get d := by
    intro d hd
    obtain ⟨-, hP⟩ := forall₂_lanes.mp hon
    have hd' : d < (((lanes box origin grid).map fun l => l.coord (l.count - 1)).map ofDiff).length := by
      rw [List.length_map, List.length_map, hlength]
      exact hd
    obtain ⟨hv, k, hk, heq⟩ := hP d hd hd'
    obtain ⟨-, hbounds⟩ := inBox_iff.mp hx
    have hl : (lanes box origin grid)[d] ∈ lanes box origin grid := List.getElem_mem (hlength ▸ hd)
    have hhas := (hv.has_iff _).mpr ⟨k, hk, rfl⟩
    have hhas' := ((hvalid _ hl).has_iff _).mpr ⟨_, Nat.sub_lt (hpos _ hl) Nat.one_pos, rfl⟩
    rw [List.getElem_map, List.getElem_map] at heq
    have hsame := ofDiff_injective (hhas.range hv) (hhas'.range (hvalid _ hl)) heq
    rw [← hsame] at hhas'
    obtain ⟨-, -, hmod⟩ := hhas
    obtain ⟨-, -, hmod'⟩ := hhas'
    rw [hzero _ hl] at hmod'
    simp only [lanes, List.getElem_mapIdx] at hmod'
    rw [get_origin]
    exact Int.ofNat_inj.mp (hmod.symm.trans hmod')
  rw [lanes_congr hfirst] at hindex
  have hrank := rank_le_of_visited (fun l hl => ?_) (onLane_visited h hs horigin) hindex
  · rw [List.map_map] at hrank
    have hlast := rank_last hvalid hpos
    obtain ⟨hbefore, -⟩ := (getElem?_visits _ _ _).mp hindex
    have htotal := totalPositions_eq ((lanes box origin grid).map Lane.axis)
    rw [List.map_map] at htotal
    have hwrap : sizeT ((lanes box origin grid).map (Axis.count ∘ Lane.axis)).prod ≤ _ := Nat.mod_le _ _
    have hprod : ((lanes box origin grid).map Lane.count).prod ≤
        totalPositions ((lanes box origin grid).map Lane.axis) := by
      rw [← hlast]
      exact (Nat.succ_le_succ hrank).trans hbefore
    have hcounts := eq_of_prod_le (f := Axis.count ∘ Lane.axis) (fun l hl => (hvalid l hl).axis_count_le)
      (hlast ▸ Nat.succ_pos _) (hprod.trans (htotal.le.trans hwrap))
    constructor
    · intro l hl
      have := (hvalid l hl).axis_count_eq_iff.mp (hcounts l hl)
      rw [hzero l hl] at this
      omega
    · have hmax : (lanes box origin grid).map Lane.maxCount = (lanes box origin grid).map Lane.count := by
        refine List.map_congr_left fun l hl => ?_
        rw [Lane.maxCount, Lane.count, hzero l hl, Nat.cast_zero, sub_zero]
      have hsize := hs.size origin horigin
      rw [value_apply, visits, List.length_map, List.length_range, CyclicPartition.size] at hsize
      have hhas := (Wrapped.has_diffType (v := Wrapped.toDiff _)).mp (IntegerTypes.IntegerType.has_staticCast
        ((totalPositions ((lanes box origin grid).map Lane.axis) : ℕ) : ℤ))
      rw [hmax]
      omega
  · obtain ⟨d, hd, rfl⟩ := mem_lanes.mp hl
    exact sign_of_visited h hs hne d hd

theorem inOrder_of : ∀ {ls : List Lane}, (∀ (d : ℕ) (hd : d < ls.length),
    (0 ≤ ls[d].hi → 0 ≤ ls[d].lo + ls[d].grid) ∧ (ls[d].hi < 0 → ls[d].hi + ls[d].grid ≤ 0 ∨
      ∀ (e : ℕ) (he : e < ls.length), d < e → ls[e].hi - ls[e].lo ≤ ls[e].grid)) → InOrder ls
  | [], _ => trivial
  | l :: ls, h => by
    obtain ⟨hsign, hstop⟩ := h 0 (Nat.succ_pos _)
    refine ⟨⟨hsign, fun hneg => (hstop hneg).imp_right fun hall e he => ?_⟩, inOrder_of fun d hd => ?_⟩
    · obtain ⟨i, hi, rfl⟩ := List.mem_iff_getElem.mp he
      exact hall (i + 1) (Nat.succ_lt_succ hi) (Nat.succ_pos i)
    · obtain ⟨hsign', hstop'⟩ := h (d + 1) (Nat.succ_lt_succ hd)
      refine ⟨hsign', fun hneg => (hstop' hneg).imp_right fun hall e he hde => ?_⟩
      exact hall (e + 1) (Nat.succ_lt_succ he) (Nat.succ_lt_succ hde)

include h hs in
theorem fit_of_cyclicSplits : Fit box grid := by
  constructor
  · intro l hl
    obtain ⟨d, hd, rfl⟩ := mem_lanes.mp hl
    have hlast : InGrid (posOf fun e => grid.get e - 1) grid := by
      intro e he
      rw [get_posOf _ he]
      exact Nat.sub_lt (h.extents e he).1 Nat.one_pos
    have hd4 : d < 4 := hd.trans_le h.rank
    have hpos := (h.extents d hd4).1
    have hkept := (kept_apply_iff h).mp (hs.kept _ hlast) _ (mem_lanes.mpr ⟨d, hd, rfl⟩)
    dsimp only at hkept ⊢
    rw [get_posOf _ hd4] at hkept
    omega
  · by_cases hne : ∀ b ∈ box, b.1 < b.2
    · refine Or.inr ⟨axes_of_visited h hs hne, inOrder_of fun d hd => ?_, ?_, ?_⟩
      · simp only [lanes, List.length_mapIdx] at hd
        simp only [lanes, List.getElem_mapIdx, List.length_mapIdx]
        refine ⟨sign_of_visited h hs hne d hd, fun hneg => ?_⟩
        rcases le_or_gt (box[d].2 + grid.get d) 0 with hroom | hover
        · exact Or.inl hroom
        · exact Or.inr fun e he hde => stop_of_visited h hs hne d e hde he hneg hover
      · exact (total_of_visited h hs hne).1
      · exact (total_of_visited h hs hne).2
    · push Not at hne
      obtain ⟨b, hb, hle⟩ := hne
      exact Or.inl ⟨b, hb, le_antisymm (h.bounds b hb).2.1 hle⟩

end

/-- **When elements in turn are a partition.** -/
theorem cyclicSplits_iff (h : IsBox box grid) : CyclicSplits box grid ↔ Fit box grid :=
  ⟨fit_of_cyclicSplits h, cyclicSplits_of_fit h⟩

theorem cyclicSplits_fiveByThree : CyclicSplits [(0, 5), (0, 3)] ⟨2, 2, 1, 1⟩ := by
  refine (cyclicSplits_iff ⟨by decide, by decide, by decide⟩).mpr ⟨by decide, Or.inr ⟨by decide, ?_, by decide, by decide⟩⟩
  exact ⟨⟨by decide, fun h => absurd h (by decide)⟩, ⟨by decide, fun h => absurd h (by decide)⟩, trivial⟩

/-- Bounds of both signs, and one place: the iterator starts over at once. -/
theorem not_cyclicSplits_negative : ¬ CyclicSplits [(-3, 5)] ⟨1, 1, 1, 1⟩ := by
  intro hs
  have hbox : InBox [(-3, 5)] [-3] := .cons (by decide) .nil
  have horigin : InGrid origin ⟨1, 1, 1, 1⟩ := by
    unfold InGrid
    decide
  obtain ⟨v, -, hunique⟩ := hs.once _ hbox
  have hfirst := hunique (origin, 0) ⟨horigin, by decide⟩
  have hsecond := hunique (origin, 1) ⟨horigin, by decide⟩
  exact absurd (congrArg Prod.snd (hfirst.trans hsecond.symm)) (by decide)

end Cccl.Places.CyclicPartition
