/-
# The runs of the walk are those of the owners

In an exact layout a smaller stride divides a larger one, so that all strides of places are multiples of
the smallest one, and the owner is constant between two multiples of it (`owner_eq_of_div`).  So each
segment of the walk has one owner; the segments of a row follow each other, and so do the rows
(`segments_covers`).  What the callback gets are the merged segments (`forEachOwnerByteRun_eq`), whatever
it does.
-/
import Mathlib.Tactic.Ring
import Mathlib.Data.Nat.ModEq
import Cccl.Places.CuteExact
import Cccl.Places.OwnerRuns

namespace Cccl.Places

open MixedRadix

variable {σ : Type*}

/-! ## 1. Merging -/

theorem Walk.segments_of_not {emit : Run Pos4 → σ → Bool × σ} {w : Walk σ}
    (h : w.keepGoing = false) : ∀ rest, Walk.segments emit rest w = w
  | [] => rfl
  | segment :: rest => by rw [segments, h, if_neg (by simp)]

/-- **The callback gets the merged segments**, if no position is reduced. -/
theorem Walk.segments_finish_eq (emit : Run Pos4 → σ → Bool × σ) {f : ℕ → Pos4} {b : ℕ}
    (hb : b < 2 ^ 64) : ∀ (segments : List (Run Pos4)) (p : Run Pos4) (a : ℕ) (state : σ),
      Covers f a (p :: segments) b →
      (Walk.segments emit segments ⟨p, true, state⟩).finish emit =
        foldRuns emit (mergeInto p segments) state
  | [], p, a, state, h => by
    rw [Walk.segments, finish, if_pos ⟨rfl, h.2.1⟩, mergeInto, foldRuns]
    cases hemit : emit p state with
    | mk keepGoing state' => cases keepGoing <;> rfl
  | r :: rest, p, a, state, h => by
    obtain ⟨hstart, hp, -, hrest⟩ := id h
    have hend := h.le_start p List.mem_cons_self
    have hend' := h.le_start r (List.mem_cons_of_mem _ List.mem_cons_self)
    have hr : r.start = a + p.len := hrest.1
    have hnext : sizeT (p.start + p.len) = p.start + p.len := sizeT_of_lt (by omega)
    have hlen : sizeT (p.len + r.len) = p.len + r.len := sizeT_of_lt (by omega)
    rw [Walk.segments, if_pos rfl, push]
    simp only [hp, true_and, if_true, hnext, hlen]
    rw [mergeInto]
    split
    · rename_i hsame
      exact segments_finish_eq emit hb rest _ a state (h.join hsame.1)
    · rw [foldRuns]
      cases hemit : emit p state with
      | mk keepGoing state' =>
        cases keepGoing with
        | true => exact segments_finish_eq emit hb rest r _ state' hrest
        | false =>
          simp only
          rw [Walk.segments_of_not rfl, finish, if_neg (by simp)]

namespace CutePartitionDescriptor

variable {D : CutePartitionDescriptor}

/-! ## 2. The owner between two multiples of the smallest stride -/

theorem minStride_spec : ∀ (ls : List LayoutLeaf) (s : ℕ), (∀ l ∈ ls, 1 < l.extent → 0 < l.size) →
    let m := ls.foldl
      (fun s l => if 1 < l.extent then if s = 0 then l.size else min s l.size else s) s
    (m = s ∨ ∃ l ∈ ls, 1 < l.extent ∧ m = l.size) ∧ (0 < s → 0 < m ∧ m ≤ s) ∧
      ∀ l ∈ ls, 1 < l.extent → 0 < m ∧ m ≤ l.size
  | [], s, _ => ⟨Or.inl rfl, fun h => ⟨h, Nat.le_refl s⟩, by simp⟩
  | l :: ls, s, hpos => by
    have hpos' : ∀ l' ∈ ls, 1 < l'.extent → 0 < l'.size :=
      fun l' hl' => hpos l' (List.mem_cons_of_mem _ hl')
    simp only [List.foldl_cons]
    split
    · rename_i hext
      have hl := hpos l List.mem_cons_self hext
      -- the next value is positive, and at most both
      have hnext : ∃ s', (if s = 0 then l.size else min s l.size) = s' ∧ 0 < s' ∧ s' ≤ l.size ∧
          (0 < s → s' ≤ s) ∧ (s' = s ∨ s' = l.size) := by
        refine ⟨_, rfl, ?_⟩
        split
        · exact ⟨hl, Nat.le_refl _, by omega, Or.inr rfl⟩
        · refine ⟨by omega, Nat.min_le_right _ _, fun _ => Nat.min_le_left _ _, ?_⟩
          rcases Nat.le_total s l.size with hle | hle
          · exact Or.inl (Nat.min_eq_left hle)
          · exact Or.inr (Nat.min_eq_right hle)
      obtain ⟨s', hs', hs'pos, hs'l, hs's, hor⟩ := hnext
      rw [hs']
      obtain ⟨hm, hle, hall⟩ := minStride_spec ls s' hpos'
      obtain ⟨hmpos, hms'⟩ := hle hs'pos
      refine ⟨?_, fun hs => ⟨hmpos, hms'.trans (hs's hs)⟩, fun l' hl' hext' => ?_⟩
      · rcases hm with hm | ⟨l', hl', hext', hm⟩
        · rcases hor with hor | hor
          · exact Or.inl (hm.trans hor)
          · exact Or.inr ⟨l, List.mem_cons_self, hext, hm.trans hor⟩
        · exact Or.inr ⟨l', List.mem_cons_of_mem _ hl', hext', hm⟩
      · rcases List.mem_cons.mp hl' with rfl | hl'
        · exact ⟨hmpos, hms'.trans hs'l⟩
        · exact hall l' hl' hext'
    · rename_i hext
      obtain ⟨hm, hle, hall⟩ := minStride_spec ls s hpos'
      refine ⟨?_, hle, fun l' hl' hext' => ?_⟩
      · refine hm.imp_right ?_
        rintro ⟨l', hl', hext', hm⟩
        exact ⟨l', List.mem_cons_of_mem _ hl', hext', hm⟩
      · rcases List.mem_cons.mp hl' with rfl | hl'
        · exact absurd hext' hext
        · exact hall l' hl' hext'

section Tiles

variable (hleaves : ((D.placeLeaves ++ D.localLeaves).map LayoutLeaf.extent).prod < 2 ^ 64)
  (hpadded : D.paddedSize < 2 ^ 64)

include hleaves hpadded

/-- **The smallest stride divides the other ones.** -/
theorem minOwnerRunElems_dvd {l : LayoutLeaf} (hl : l ∈ D.placeLeaves) (hext : 1 < l.extent) :
    0 < D.minOwnerRunElems ∧ D.minOwnerRunElems ∣ l.size := by
  have htiles := tiles hleaves hpadded
  have hmem : ∀ l' ∈ D.placeLeaves,
      l'.toLeaf ∈ (D.placeLeaves ++ D.localLeaves).map LayoutLeaf.toLeaf :=
    fun l' hl' => List.mem_map_of_mem (List.mem_append_left _ hl')
  obtain ⟨hsome, -, hall⟩ := minStride_spec D.placeLeaves 0
    fun l' hl' hext' => htiles.stride_pos (hmem l' hl') hext'
  obtain ⟨hpos, hle⟩ := hall l hl hext
  refine ⟨hpos, ?_⟩
  rcases hsome with hzero | ⟨l', hl', hext', heq⟩
  · omega
  · rw [heq] at hle
    rw [minOwnerRunElems, heq]
    exact htiles.stride_dvd (hmem l' hl') (hmem l hl) hext' hext hle

/-- **The owner does not change between two multiples of the smallest stride.** -/
theorem owner_eq_of_div {coords coords' : Pos4}
    (h : D.paddedDims.getIndex coords / D.minOwnerRunElems =
      D.paddedDims.getIndex coords' / D.minOwnerRunElems) : D.owner coords = D.owner coords' := by
  have hget : ∀ a < 4, (D.owner coords).get a = (D.owner coords').get a := by
    intro a ha
    rcases Classical.em (a ∈ D.axes) with hbound | hfree
    · obtain ⟨p, hp, rfl⟩ := mem_axes.mp hbound
      rw [owner_get coords hp, owner_get coords' hp, Leaf.digit, Leaf.digit]
      split
      · rfl
      · rename_i hext
        obtain ⟨-, k, hk⟩ := minOwnerRunElems_dvd hleaves hpadded (List.of_mem_zip hp).1
          (Nat.not_le.mp hext)
        have hstride : p.1.toLeaf.stride = D.minOwnerRunElems * k := hk
        rw [hstride, ← Nat.div_div_eq_div_mul, ← Nat.div_div_eq_div_mul, h]
    · rw [owner_get_of_free coords ha hfree, owner_get_of_free coords' ha hfree]
  exact Pos4.ext (hget 0 (by omega)) (hget 1 (by omega)) (hget 2 (by omega)) (hget 3 (by omega))

end Tiles

/-! ## 3. Rows -/

theorem getIndex_row (hpadded : D.paddedSize < 2 ^ 64) {x0 x1 x2 x3 : ℕ}
    (h0 : x0 < D.paddedDims.x) (h1 : x1 < D.paddedDims.y) (h2 : x2 < D.paddedDims.z)
    (h3 : x3 < D.paddedDims.t) : D.paddedDims.getIndex ⟨x0, x1, x2, x3⟩ =
      x0 + D.paddedDims.x * (x1 + D.paddedDims.y * (x2 + x3 * D.paddedDims.z)) := by
  refine sizeT_of_lt (lt_trans ?_ hpadded)
  have hfits : Fits [x0, x1, x2, x3]
      [D.paddedDims.x, D.paddedDims.y, D.paddedDims.z, D.paddedDims.t] :=
    .cons h0 (.cons h1 (.cons h2 (.cons h3 .nil)))
  have hlt := ofDigits_lt hfits
  simp only [ofDigits, List.prod_cons, List.prod_nil, Nat.mul_zero, Nat.add_zero, Nat.mul_one,
    ← Nat.mul_assoc] at hlt
  rw [Nat.mul_comm x3]
  rw [paddedSize]
  simpa only [Nat.mul_assoc] using hlt

/-- The position of a segment in the padded space is the linear index of its first element. -/
theorem padPos_eq (x0 x1 x2 x3 : ℕ) :
    sizeT (sizeT (x1 * D.paddedDims.x + x2 * sizeT (D.paddedDims.x * D.paddedDims.y) +
      x3 * sizeT (sizeT (D.paddedDims.x * D.paddedDims.y) * D.paddedDims.z)) + x0) =
      D.paddedDims.getIndex ⟨x0, x1, x2, x3⟩ := by
  have hsum : x1 * D.paddedDims.x + x2 * (D.paddedDims.x * D.paddedDims.y) +
      x3 * (D.paddedDims.x * D.paddedDims.y * D.paddedDims.z) + x0 =
      x0 + D.paddedDims.x * (x1 + D.paddedDims.y * (x2 + x3 * D.paddedDims.z)) := by
    ring
  -- reducing the parts of a sum does not change it modulo `2 ^ 64`
  have h2 : sizeT (D.paddedDims.x * D.paddedDims.y) ≡ D.paddedDims.x * D.paddedDims.y [MOD 2 ^ 64] :=
    Nat.mod_modEq _ _
  have h3 : sizeT (sizeT (D.paddedDims.x * D.paddedDims.y) * D.paddedDims.z) ≡
      D.paddedDims.x * D.paddedDims.y * D.paddedDims.z [MOD 2 ^ 64] :=
    (Nat.mod_modEq _ _).trans (h2.mul_right _)
  have hbase := (Nat.mod_modEq _ _).trans
    (((Nat.ModEq.refl (x1 * D.paddedDims.x)).add (h2.mul_left x2)).add (h3.mul_left x3))
  rw [Dim4.getIndex, ← hsum]
  exact hbase.add_right x0

/-- The owner of a byte: that of the element which it is part of. -/
def byteOwner (D : CutePartitionDescriptor) (elemsize byte : ℕ) : Pos4 :=
  D.owner (D.trueDims.indexToPos (byte / elemsize))

/-- The number of elements. -/
def trueSize (D : CutePartitionDescriptor) : ℕ :=
  D.trueDims.x * D.trueDims.y * D.trueDims.z * D.trueDims.t

theorem trueDims_pos {d : ℕ} (hd : d < 4) : 0 < D.trueDims.get d := (D.valid.dims d hd).1

theorem add_div_of_mod_add_lt {n i s : ℕ} (h : n % s + i < s) : (n + i) / s = n / s := by
  have hsplit := Nat.div_add_mod n s
  have hsum : n + i = s * (n / s) + (n % s + i) := by omega
  rw [hsum, Nat.mul_add_div (by omega), Nat.div_eq_of_lt h, Nat.add_zero]

section Rows

variable (hleaves : ((D.placeLeaves ++ D.localLeaves).map LayoutLeaf.extent).prod < 2 ^ 64)
  (hpadded : D.paddedSize < 2 ^ 64) {elemsize ind x1 x2 x3 : ℕ}
  (h1 : x1 < D.trueDims.y) (h2 : x2 < D.trueDims.z) (h3 : x3 < D.trueDims.t)

include hleaves hpadded h1 h2 h3

theorem owner_segment {x0 i : ℕ} (hx : x0 + i < D.trueDims.x)
    (hi : i < D.minOwnerRunElems - D.paddedDims.getIndex ⟨x0, x1, x2, x3⟩ % D.minOwnerRunElems) :
    D.owner ⟨x0 + i, x1, x2, x3⟩ = D.owner ⟨x0, x1, x2, x3⟩ := by
  have h0' : x0 + i < D.paddedDims.x := hx.trans_le (D.valid.dims 0 (by omega)).2
  have h1' := h1.trans_le (D.valid.dims 1 (by omega)).2
  have h2' := h2.trans_le (D.valid.dims 2 (by omega)).2
  have h3' := h3.trans_le (D.valid.dims 3 (by omega)).2
  refine owner_eq_of_div hleaves hpadded ?_
  have hfirst := getIndex_row hpadded (Nat.lt_of_le_of_lt (Nat.le_add_right x0 i) h0') h1' h2' h3'
  have hlater := getIndex_row hpadded h0' h1' h2' h3'
  have hsum : D.paddedDims.getIndex ⟨x0 + i, x1, x2, x3⟩ =
      D.paddedDims.getIndex ⟨x0, x1, x2, x3⟩ + i := by
    rw [hfirst, hlater]
    omega
  rw [hsum]
  exact add_div_of_mod_add_lt (by omega)

/-- **The segments of a row** describe the owners of its bytes. -/
theorem rowSegments_covers (hpos : 0 < elemsize) (hs : 0 < D.minOwnerRunElems)
    (hrow : ∀ x < D.trueDims.x, D.trueDims.indexToPos (ind + x) = ⟨x, x1, x2, x3⟩)
    (hbytes : (ind + D.trueDims.x) * elemsize < 2 ^ 64) : ∀ n x0, x0 ≤ D.trueDims.x →
      D.trueDims.x - x0 ≤ n →
      Covers (D.byteOwner elemsize) ((ind + x0) * elemsize)
        (D.rowSegments elemsize D.minOwnerRunElems ind x1 x2 x3 n x0)
        ((ind + D.trueDims.x) * elemsize)
  | 0, x0, hle, hn => by
    obtain rfl : x0 = D.trueDims.x := by omega
    exact rfl
  | n + 1, x0, hle, hn => by
    unfold rowSegments
    split
    · rename_i hlt
      simp only [padPos_eq]
      have hmod := Nat.mod_lt (D.paddedDims.getIndex ⟨x0, x1, x2, x3⟩) hs
      obtain ⟨seg, hseg⟩ : ∃ seg, seg = min (D.trueDims.x - x0) (D.minOwnerRunElems -
        D.paddedDims.getIndex ⟨x0, x1, x2, x3⟩ % D.minOwnerRunElems) := ⟨_, rfl⟩
      have hend : (ind + x0) * elemsize + seg * elemsize ≤ (ind + D.trueDims.x) * elemsize := by
        rw [← Nat.add_mul]
        exact Nat.mul_le_mul_right _ (by omega)
      have hrest := rowSegments_covers hpos hs hrow hbytes n (x0 + seg) (by omega) (by omega)
      rw [← hseg, sizeT_of_lt (by omega), sizeT_of_lt (by omega)]
      refine ⟨rfl, Nat.mul_pos (by omega) hpos, fun byte hge hbyte => ?_, ?_⟩
      · -- the byte is part of an element of the segment
        simp only at hbyte
        rw [← Nat.add_mul] at hbyte
        have hge' := (Nat.le_div_iff_mul_le hpos).mpr hge
        have hbyte' := Nat.div_lt_of_lt_mul (hbyte.trans_eq (Nat.mul_comm _ _))
        obtain ⟨i, hi⟩ := Nat.exists_eq_add_of_le hge'
        rw [byteOwner, hi, Nat.add_assoc, hrow _ (by omega)]
        exact owner_segment hleaves hpadded h1 h2 h3 (by omega) (by omega)
      · simp only
        rwa [← Nat.add_mul, Nat.add_assoc]
    · obtain rfl : x0 = D.trueDims.x := by omega
      exact rfl

end Rows

/-! ## 4. All rows -/

theorem flatMap_range {α : Type*} (g : ℕ → ℕ → α) {n : ℕ} (hn : 0 < n) : ∀ m : ℕ,
    (List.range m).flatMap (fun j => (List.range n).map fun i => g i j) =
      (List.range (n * m)).map fun r => g (r % n) (r / n)
  | 0 => rfl
  | m + 1 => by
    rw [List.range_succ, List.flatMap_append, flatMap_range g hn m, Nat.mul_add_one,
      List.range_add, List.map_append, List.map_map, List.flatMap_singleton]
    congr 1
    refine List.map_congr_left fun i hi => ?_
    have hlt := List.mem_range.mp hi
    simp only [Function.comp_apply]
    rw [Nat.mul_add_mod, Nat.mod_eq_of_lt hlt, Nat.mul_add_div hn, Nat.div_eq_of_lt hlt,
      Nat.add_zero]

/-- The coordinates of a row. -/
def row (D : CutePartitionDescriptor) (r : ℕ) : ℕ × ℕ × ℕ :=
  (r % D.trueDims.y, r / D.trueDims.y % D.trueDims.z, r / D.trueDims.y / D.trueDims.z)

/-- The number of rows. -/
def numRows (D : CutePartitionDescriptor) : ℕ := D.trueDims.y * D.trueDims.z * D.trueDims.t

theorem rows_eq : D.rows = (List.range D.numRows).map D.row := by
  have hy : 0 < D.trueDims.y := trueDims_pos (d := 1) (by omega)
  have hz : 0 < D.trueDims.z := trueDims_pos (d := 2) (by omega)
  have hinner : ∀ x3 : ℕ, (List.range D.trueDims.z).flatMap
      (fun x2 => (List.range D.trueDims.y).map fun x1 => (x1, x2, x3)) =
        (List.range (D.trueDims.y * D.trueDims.z)).map
          fun r => (r % D.trueDims.y, r / D.trueDims.y, x3) :=
    fun x3 => flatMap_range (fun x1 x2 => (x1, x2, x3)) hy D.trueDims.z
  simp only [rows, hinner]
  rw [flatMap_range (fun r x3 => (r % D.trueDims.y, r / D.trueDims.y, x3)) (Nat.mul_pos hy hz)]
  refine List.map_congr_left fun r _ => ?_
  simp only [row]
  rw [Nat.mod_mul_right_mod, Nat.mod_mul_right_div_self, Nat.div_div_eq_div_mul]

theorem indexToPos_row (r : ℕ) {x : ℕ} (hx : x < D.trueDims.x) :
    D.trueDims.indexToPos (D.trueDims.x * r + x) =
      ⟨x, (D.row r).1, (D.row r).2.1, (D.row r).2.2⟩ := by
  have hdiv : (D.trueDims.x * r + x) / D.trueDims.x = r := by
    rw [Nat.mul_add_div (by omega), Nat.div_eq_of_lt hx, Nat.add_zero]
  rw [Dim4.indexToPos, hdiv, Nat.mul_add_mod, Nat.mod_eq_of_lt hx]
  rfl

theorem trueSize_eq (D : CutePartitionDescriptor) : D.trueSize = D.trueDims.x * D.numRows := by
  rw [trueSize, numRows, Nat.mul_assoc, Nat.mul_assoc, Nat.mul_assoc]

/-- The runs of equal owners. -/
def ownerRuns (D : CutePartitionDescriptor) (elemsize : ℕ) : List (Run Pos4) :=
  if D.minOwnerRunElems = 0 then [⟨0, D.trueSize * elemsize, D.owner ⟨0, 0, 0, 0⟩⟩]
  else merge (D.segments elemsize D.minOwnerRunElems 0 D.rows)

/-- The walk takes no more steps than allowed. -/
def WithinBudget (D : CutePartitionDescriptor) (maxRuns : ℕ) : Prop :=
  D.minOwnerRunElems = 0 ∨ sizeT (D.trueDims.y * D.trueDims.z * D.trueDims.t *
    (D.trueDims.x / D.minOwnerRunElems + 2)) ≤ maxRuns

section Walk

variable (hleaves : ((D.placeLeaves ++ D.localLeaves).map LayoutLeaf.extent).prod < 2 ^ 64)
  (hpadded : D.paddedSize < 2 ^ 64) {elemsize : ℕ} (hpos : 0 < elemsize)
  (hbytes : D.trueSize * elemsize < 2 ^ 64)

include hleaves hpadded hpos hbytes

/-- **The segments of the rows** from some row on. -/
theorem segments_covers (hs : 0 < D.minOwnerRunElems) : ∀ k r, r + k = D.numRows →
    Covers (D.byteOwner elemsize) (D.trueDims.x * r * elemsize)
      (D.segments elemsize D.minOwnerRunElems (D.trueDims.x * r) ((List.range' r k).map D.row))
      (D.trueSize * elemsize)
  | 0, r, hr => by
    obtain rfl : r = D.numRows := by omega
    rw [List.range'_zero, List.map_nil, segments, trueSize_eq]
    exact rfl
  | k + 1, r, hr => by
    have hlt : r < D.trueDims.y * D.trueDims.z * D.trueDims.t := by
      change r < D.numRows
      omega
    have hnext : (D.trueDims.x * r + D.trueDims.x) * elemsize ≤ D.trueSize * elemsize := by
      refine Nat.mul_le_mul_right _ ?_
      rw [trueSize_eq, ← Nat.mul_add_one]
      exact Nat.mul_le_mul_left _ (by omega)
    have hsmall : D.trueDims.x * r + D.trueDims.x ≤ D.trueSize * elemsize :=
      (Nat.le_mul_of_pos_right _ hpos).trans hnext
    have h1 : (D.row r).1 < D.trueDims.y := Nat.mod_lt _ (trueDims_pos (d := 1) (by omega))
    have h2 : (D.row r).2.1 < D.trueDims.z := Nat.mod_lt _ (trueDims_pos (d := 2) (by omega))
    have h3 : (D.row r).2.2 < D.trueDims.t := by
      change r / D.trueDims.y / D.trueDims.z < D.trueDims.t
      rw [Nat.div_div_eq_div_mul]
      exact Nat.div_lt_of_lt_mul hlt
    have hrow := rowSegments_covers hleaves hpadded h1 h2 h3 hpos hs
      (fun x hx => indexToPos_row r hx) (hnext.trans_lt hbytes) D.trueDims.x 0 (Nat.zero_le _)
      (Nat.sub_le _ _)
    have hrest := segments_covers hs k (r + 1) (by omega)
    rw [Nat.mul_add_one] at hrest
    rw [List.range'_succ, List.map_cons]
    unfold segments
    rw [sizeT_of_lt (hsmall.trans_lt hbytes)]
    exact hrow.append hrest

theorem segments_rows_covers (hs : 0 < D.minOwnerRunElems) :
    Covers (D.byteOwner elemsize) 0 (D.segments elemsize D.minOwnerRunElems 0 D.rows)
      (D.trueSize * elemsize) := by
  have h := segments_covers hleaves hpadded hpos hbytes hs D.numRows 0 (Nat.zero_add _)
  rwa [Nat.mul_zero, Nat.zero_mul, ← List.range_eq_range', ← rows_eq] at h

omit hleaves hpadded hbytes in
theorem trueSize_pos : 0 < D.trueSize * elemsize := by
  refine Nat.mul_pos (Nat.mul_pos (Nat.mul_pos (Nat.mul_pos ?_ ?_) ?_) ?_) hpos
  · exact trueDims_pos (d := 0) (by omega)
  · exact trueDims_pos (d := 1) (by omega)
  · exact trueDims_pos (d := 2) (by omega)
  · exact trueDims_pos (d := 3) (by omega)

/-- **The runs partition the bytes**, each with the owner of its bytes, and neighbours differ. -/
theorem ownerRuns_covers :
    Covers (D.byteOwner elemsize) 0 (D.ownerRuns elemsize) (D.trueSize * elemsize) ∧
      (D.ownerRuns elemsize).IsChain fun r r' => r.label ≠ r'.label := by
  unfold ownerRuns
  split
  · rename_i hs
    refine ⟨⟨rfl, trueSize_pos hpos, fun byte _ _ => ?_, Nat.zero_add _⟩, .singleton _⟩
    refine owner_eq_of_div hleaves hpadded ?_
    rw [hs, Nat.div_zero, Nat.div_zero]
  · rename_i hs
    have h := segments_rows_covers hleaves hpadded hpos hbytes (Nat.pos_of_ne_zero hs)
    exact ⟨merge_covers h, merge_isChain h⟩

/-- **The walk hands the runs to the callback**, one after the other, until it asks to stop. -/
theorem forEachOwnerByteRun_eq {maxRuns : ℕ} (hbudget : D.WithinBudget maxRuns)
    (emit : Run Pos4 → σ → Bool × σ) (state : σ) :
    D.forEachOwnerByteRun elemsize maxRuns emit state =
      foldRuns emit (D.ownerRuns elemsize) state := by
  unfold forEachOwnerByteRun ownerRuns
  simp only
  split
  · rw [← trueSize, sizeT_of_lt hbytes, foldRuns]
    cases hemit : emit ⟨0, D.trueSize * elemsize, D.owner ⟨0, 0, 0, 0⟩⟩ state with
    | mk keepGoing state' => cases keepGoing <;> rfl
  · rename_i hs
    rw [if_neg (Nat.not_lt.mpr (hbudget.resolve_left hs))]
    have h := segments_rows_covers hleaves hpadded hpos hbytes (Nat.pos_of_ne_zero hs)
    have htotal := trueSize_pos (D := D) hpos
    cases hsegments : D.segments elemsize D.minOwnerRunElems 0 D.rows with
    | nil =>
      rw [hsegments] at h
      obtain h : 0 = D.trueSize * elemsize := h
      omega
    | cons segment rest =>
      rw [hsegments] at h
      -- the first segment becomes the pending run
      rw [Walk.segments, if_pos rfl, Walk.push]
      simp only [Nat.lt_irrefl, false_and, if_false]
      exact Walk.segments_finish_eq emit hbytes rest segment 0 state h

end Walk

end CutePartitionDescriptor

end Cccl.Places
