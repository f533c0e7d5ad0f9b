/-
# Slices address the sliced elements

An index of the result, from the offset on, has the place that the denoted index has in the sliced
mapping, whatever layout was chosen for the result (`submdspan_hasStrides`).  As long as the result has
an element, the first indices are inside the mapping, and everything is exact.

A result without elements has a span of nothing, and only its offset can be wrong.  It is right if the
loop of `__submdspan_offset` finds the slice that begins at the end of its extent, or if the place of
the first indices happens to be inside the span all the same.  The loop stops at the rank of the result
instead of the rank of the mapping: with an integer before it, a slice at the end is not found
(`addressesSlices_iff`).
-/
import Cccl.Mdspan.Submdspan

namespace Cccl.Mdspan

open IntegerTypes Strided MixedRadix

variable {m : DataModel} {T : IntegerType} {M : Mapping} {extents : List ℕ} {slices : List Slice}

/-! ## 1. The property -/

/-- The slice selects the index. -/
def Slice.Selects (i : ℕ) : Slice → Prop
  | .index k => i = k
  | .pair first last => first ≤ i ∧ i < last
  | .full => True
  | .strided offset x stride _ => ∃ j, i = offset + j * stride ∧ j * stride < x

/-- **The slices of a mapping address exactly the sliced elements**, and stay inside its span. -/
structure AddressesSlices (m : DataModel) (T : IntegerType) (M : Mapping) (slices : List Slice) :
    Prop where
  inside : ∀ js, Fits js (submdspanMapping m T M slices).mapping.extents →
    Fits (denote slices js) M.extents
  exact : ∀ js, Fits js (submdspanMapping m T M slices).mapping.extents →
    (submdspanMapping m T M slices).offset + (submdspanMapping m T M slices).mapping.call m T js =
      M.call m T (denote slices js)
  injective : ∀ is js, Fits is (submdspanMapping m T M slices).mapping.extents →
    Fits js (submdspanMapping m T M slices).mapping.extents →
      denote slices is = denote slices js → is = js
  covers : ∀ idx, Fits idx M.extents → List.Forall₂ Slice.Selects idx slices →
    ∃ js, Fits js (submdspanMapping m T M slices).mapping.extents ∧ denote slices js = idx
  within : (submdspanMapping m T M slices).offset +
    (submdspanMapping m T M slices).mapping.requiredSpanSize m T ≤ M.requiredSpanSize m T

/-- Some slice begins at the end of its extent. -/
def BeginsAtEnd (extents : List ℕ) (slices : List Slice) : Prop :=
  ∃ p ∈ (slices.map Slice.firstExtent).zip extents, p.1 = p.2

/-! ## 2. The strides of the result -/

theorem getSubmdspanStrides_sameResidue {v : ℤ} {k : ℕ} (h : SameResidue m T v k) (s : Slice) :
    SameResidue m T (getSubmdspanStrides m T v s) (k * s.factor : ℕ) := by
  rw [Nat.cast_mul]
  cases s with
  | strided offset x stride strideConstant => exact (staticCast_sameResidue _).trans (h.mul_right _)
  | _ =>
    rw [Slice.factor, Nat.cast_one, mul_one]
    · exact (staticCast_sameResidue _).trans h
    · intros
      simp_all

theorem submdspanStrides_sameResidue (h : M.Valid m T) (slices : List Slice) :
    List.Forall₂ (fun v (s : ℕ) => SameResidue m T v s) (submdspanStrides m T M slices)
      (subStrides slices M.strides) := by
  have hstrides := stride_sameResidue h
  rw [submdspanStrides]
  generalize (List.range M.extents.length).map (M.stride m T) = vs at hstrides
  generalize M.strides = ks at hstrides
  induction hstrides generalizing slices with
  | nil => cases slices <;> exact .nil
  | @cons v k vs ks hv _ ih =>
    cases slices with
    | nil => exact .nil
    | cons s ss =>
      cases hindex : s.isIndex with
      | true =>
        rw [List.zip_cons_cons, List.filter_cons_of_neg (by simp [hindex]), subStrides, if_pos hindex]
        exact ih ss
      | false =>
        rw [List.zip_cons_cons, List.filter_cons_of_pos (by simp [hindex]), subStrides_cons hindex]
        exact .cons (getSubmdspanStrides_sameResidue hv s) (ih ss)

/-! ## 3. Results without gaps -/

theorem subrank_eq_zero : subrank slices = 0 ↔ ∀ s ∈ slices, s.isIndex = true := by
  simp [subrank, List.countP_eq_zero]

theorem submdspanExtents_of_index : ∀ {extents : List ℕ} {slices : List Slice},
    (∀ s ∈ slices, s.isIndex = true) → submdspanExtents extents slices = []
  | [], _, _ => rfl
  | _ :: _, [], _ => rfl
  | e :: es, s :: ss, h => by
    obtain ⟨hs, hrest⟩ := List.forall_mem_cons.mp h
    have ih := @submdspanExtents_of_index es _ hrest
    cases s with
    | index i => exact ih
    | _ => exact Bool.noConfusion hs

theorem subStrides_of_index : ∀ {slices : List Slice} {ks : List ℕ},
    (∀ s ∈ slices, s.isIndex = true) → subStrides slices ks = []
  | [], ks, _ => by cases ks <;> rfl
  | _ :: _, [], _ => rfl
  | s :: ss, k :: ks, h => by
    obtain ⟨hs, hrest⟩ := List.forall_mem_cons.mp h
    rw [subStrides, if_pos hs, subStrides_of_index hrest]

theorem subStrides_map_mul (r : ℕ) : ∀ (slices : List Slice) (ks : List ℕ),
    subStrides slices (ks.map (r * ·)) = (subStrides slices ks).map (r * ·)
  | [], ks => by cases ks <;> rfl
  | _ :: _, [] => rfl
  | s :: ss, k :: ks => by
    rw [List.map_cons, subStrides, subStrides, subStrides_map_mul r ss ks]
    split
    · rfl
    · rw [List.map_cons, Nat.mul_assoc]

theorem length_subStrides : ∀ {extents : List ℕ} {slices : List Slice} {ks : List ℕ},
    ks.length = extents.length →
      (subStrides slices ks).length = (submdspanExtents extents slices).length
  | [], slices, [], _ => by cases slices <;> rfl
  | _ :: _, [], _ :: _, _ => rfl
  | e :: es, s :: ss, k :: ks, h => by
    have ih := @length_subStrides es ss _ (Nat.succ.inj h)
    cases hindex : s.isIndex with
    | true =>
      cases s with
      | index i => exact ih
      | _ => exact Bool.noConfusion hindex
    | false =>
      rw [subStrides_cons hindex, submdspanExtents_cons hindex, List.length_cons, List.length_cons, ih]

theorem Slice.isIndex_of_isUnitStride {s : Slice} (h : s.isUnitStride = true) : s.isIndex = false := by
  cases s with
  | index i => exact Bool.noConfusion h
  | _ => rfl

theorem Slice.isIndex_of_isFullExtent {s : Slice} (h : s.isFullExtent = true) : s.isIndex = false := by
  cases s with
  | full => rfl
  | _ => exact Bool.noConfusion h

theorem Slice.factor_of_isUnitStride {s : Slice} (h : s.isUnitStride = true) : s.factor = 1 := by
  cases s with
  | strided offset x stride strideConstant =>
    have hstride : stride = 1 := by
      have h' := (Bool.and_eq_true_iff.mp h).2
      simpa using h'
    rw [factor, hstride, ite_self]
  | _ => rfl

theorem Slice.eq_full {s : Slice} (h : s.isFullExtent = true) : s = .full := by
  cases s with
  | full => rfl
  | _ => exact Bool.noConfusion h

theorem countP_split {n : ℕ} {u : Slice} (hu : slices[n]? = some u) :
    slices = slices.take n ++ u :: slices.drop (n + 1) := by
  obtain ⟨hlt, hget⟩ := List.getElem?_eq_some_iff.mp hu
  rw [← hget, List.cons_getElem_drop_succ, List.take_append_drop]

theorem subrank_append (ss rest : List Slice) : subrank (ss ++ rest) = subrank ss + subrank rest :=
  List.countP_append

theorem subrank_cons {s : Slice} (h : s.isIndex = false) (ss : List Slice) :
    subrank (s :: ss) = subrank ss + 1 := List.countP_cons_of_pos (by simp [h])

theorem subrank_of_full {ss : List Slice} (h : ss.all Slice.isFullExtent = true) :
    subrank ss = ss.length := by
  rw [subrank, List.countP_eq_length]
  intro s hs
  rw [Slice.isIndex_of_isFullExtent (List.all_eq_true.mp h s hs)]
  rfl

/-- **What `__can_layout_left` asks for**: full slices, one slice of unit stride, and integers. -/
theorem canLayoutLeft_shape (h : canLayoutLeft slices = true) :
    (∀ s ∈ slices, s.isIndex = true) ∨ ∃ ss u rest, slices = ss ++ u :: rest ∧
      ss.all Slice.isFullExtent = true ∧ u.isUnitStride = true ∧ ∀ s ∈ rest, s.isIndex = true := by
  rcases Bool.or_eq_true_iff.mp h with hzero | hshape
  · exact .inl (subrank_eq_zero.mp (by simpa using hzero))
  · obtain ⟨hunit, hfull⟩ := Bool.and_eq_true_iff.mp hshape
    obtain ⟨u, hget, hu⟩ := (Option.any_eq_true _ _).mp hunit
    have hsplit := countP_split hget
    refine .inr ⟨_, u, _, hsplit, hfull, hu, subrank_eq_zero.mp ?_⟩
    obtain ⟨hlt, -⟩ := List.getElem?_eq_some_iff.mp hget
    have hcount := congrArg subrank hsplit
    rw [subrank_append, subrank_cons (Slice.isIndex_of_isUnitStride hu), subrank_of_full hfull,
      List.length_take_of_le hlt.le] at hcount
    omega

/-- What `__can_layout_right` asks for, from the other side. -/
theorem canLayoutRight_shape (h : canLayoutRight slices = true) :
    (∀ s ∈ slices, s.isIndex = true) ∨ ∃ rest u ss, slices = rest ++ u :: ss ∧
      ss.all Slice.isFullExtent = true ∧ u.isUnitStride = true ∧ ∀ s ∈ rest, s.isIndex = true := by
  rcases Bool.or_eq_true_iff.mp h with hzero | hshape
  · exact .inl (subrank_eq_zero.mp (by simpa using hzero))
  · obtain ⟨hunit, hfull⟩ := Bool.and_eq_true_iff.mp hshape
    obtain ⟨u, hget, hu⟩ := (Option.any_eq_true _ _).mp hunit
    have hsplit := countP_split hget
    refine .inr ⟨_, u, _, hsplit, hfull, hu, subrank_eq_zero.mp ?_⟩
    obtain ⟨hlt, -⟩ := List.getElem?_eq_some_iff.mp hget
    have hle : subrank slices ≤ slices.length := List.countP_le_length
    have hcount := congrArg subrank hsplit
    rw [subrank_append, subrank_cons (Slice.isIndex_of_isUnitStride hu), subrank_of_full hfull,
      List.length_drop] at hcount
    omega

theorem leftStrides_submdspan : ∀ {extents : List ℕ} {ss : List Slice} {u : Slice} {rest : List Slice},
    extents.length = (ss ++ u :: rest).length → ss.all Slice.isFullExtent = true →
      u.isUnitStride = true → (∀ s ∈ rest, s.isIndex = true) →
        leftStrides (submdspanExtents extents (ss ++ u :: rest)) =
          subStrides (ss ++ u :: rest) (leftStrides extents)
  | [], ss, u, rest, hlength, _, _, _ => by simp at hlength
  | e :: es, [], u, rest, _, _, hu, hrest => by
    have hindex := Slice.isIndex_of_isUnitStride hu
    rw [List.nil_append, submdspanExtents_cons hindex, submdspanExtents_of_index hrest, leftStrides,
      leftStrides, leftStrides, subStrides_cons hindex, subStrides_of_index hrest,
      Slice.factor_of_isUnitStride hu]
    rfl
  | e :: es, s :: ss, u, rest, hlength, hfull, hu, hrest => by
    obtain ⟨hs, hss⟩ := Bool.and_eq_true_iff.mp (List.all_cons ▸ hfull)
    have ih := leftStrides_submdspan (Nat.succ.inj hlength) hss hu hrest
    rw [Slice.eq_full hs, List.cons_append, submdspanExtents_cons rfl, leftStrides, leftStrides,
      subStrides_cons rfl, subStrides_map_mul, ih]
    rfl

theorem submdspanExtents_full : ∀ {extents : List ℕ} {ss : List Slice},
    extents.length = ss.length → ss.all Slice.isFullExtent = true →
      submdspanExtents extents ss = extents
  | [], [], _, _ => rfl
  | e :: es, s :: ss, hlength, hfull => by
    obtain ⟨hs, hss⟩ := Bool.and_eq_true_iff.mp (List.all_cons ▸ hfull)
    rw [Slice.eq_full hs, submdspanExtents_cons rfl, submdspanExtents_full (Nat.succ.inj hlength) hss]
    rfl

theorem subStrides_full : ∀ {ss : List Slice} {ks : List ℕ}, ks.length = ss.length →
    ss.all Slice.isFullExtent = true → subStrides ss ks = ks
  | [], [], _, _ => rfl
  | s :: ss, k :: ks, hlength, hfull => by
    obtain ⟨hs, hss⟩ := Bool.and_eq_true_iff.mp (List.all_cons ▸ hfull)
    rw [Slice.eq_full hs, subStrides_cons rfl, subStrides_full (Nat.succ.inj hlength) hss]
    exact congrArg (· :: ks) (Nat.mul_one k)

theorem rightStrides_submdspan : ∀ {extents : List ℕ} {rest : List Slice} {u : Slice} {ss : List Slice},
    extents.length = (rest ++ u :: ss).length → ss.all Slice.isFullExtent = true →
      u.isUnitStride = true → (∀ s ∈ rest, s.isIndex = true) →
        rightStrides (submdspanExtents extents (rest ++ u :: ss)) =
          subStrides (rest ++ u :: ss) (rightStrides extents)
  | [], rest, u, ss, hlength, _, _, _ => by simp at hlength
  | e :: es, [], u, ss, hlength, hfull, hu, _ => by
    have hindex := Slice.isIndex_of_isUnitStride hu
    have hss : es.length = ss.length := Nat.succ.inj hlength
    rw [List.nil_append, submdspanExtents_cons hindex, submdspanExtents_full hss hfull, rightStrides,
      rightStrides, subStrides_cons hindex,
      subStrides_full ((length_rightStrides es).trans hss) hfull,
      Slice.factor_of_isUnitStride hu, Nat.mul_one]
  | e :: es, s :: rest, u, ss, hlength, hfull, hu, hrest => by
    obtain ⟨hs, hrest⟩ := List.forall_mem_cons.mp hrest
    have ih := rightStrides_submdspan (Nat.succ.inj hlength) hfull hu hrest
    cases s with
    | index i => exact ih
    | _ => exact Bool.noConfusion hs

/-! ## 4. The result -/

theorem submdspanMapping_extents (hs : ValidSlices M.extents slices) :
    (submdspanMapping m T M slices).mapping.extents = submdspanExtents M.extents slices := by
  obtain ⟨layout, extents⟩ := M
  rw [submdspanMapping]
  split
  · rename_i hzero
    rw [List.length_eq_zero_iff] at hzero
    dsimp only at hzero hs ⊢
    subst hzero
    cases hs
    rfl
  · cases layout with
    | left => dsimp only; split <;> rfl
    | right => dsimp only; split <;> rfl
    | stride strides => rfl

/-- **The result computes with the strides of the kept extents, whatever its layout.** -/
theorem submdspan_hasStrides (h : M.Valid m T) (hs : ValidSlices M.extents slices) :
    HasStrides m T (submdspanMapping m T M slices).mapping (subStrides slices M.strides) := by
  have hlength := h.hasStrides.length
  have hstrided : HasStrides m T
      ⟨.stride (submdspanStrides m T M slices), submdspanExtents M.extents slices⟩
      (subStrides slices M.strides) :=
    stride_hasStrides (length_subStrides hlength) (submdspanStrides_sameResidue h slices)
  rw [submdspanMapping]
  split
  · rename_i hzero
    have hnil : slices = [] := List.length_eq_zero_iff.mp (hs.length_eq.symm.trans hzero)
    have hstrides : M.strides = [] := List.length_eq_zero_iff.mp (hlength.trans hzero)
    have hself := h.hasStrides
    rw [hstrides] at hself
    rw [hnil, hstrides]
    exact hself
  · obtain ⟨layout, extents⟩ := M
    cases layout with
    | left =>
      dsimp only
      split
      · rename_i hcan
        have hstrides : leftStrides (submdspanExtents extents slices) =
            subStrides slices (leftStrides extents) := by
          rcases canLayoutLeft_shape hcan with hindex | ⟨ss, u, rest, rfl, hfull, hu, hrest⟩
          · rw [submdspanExtents_of_index hindex, subStrides_of_index hindex, leftStrides]
          · exact leftStrides_submdspan hs.length_eq hfull hu hrest
        rw [Mapping.strides, ← hstrides]
        exact left_hasStrides _
      · exact hstrided
    | right =>
      dsimp only
      split
      · rename_i hcan
        have hstrides : rightStrides (submdspanExtents extents slices) =
            subStrides slices (rightStrides extents) := by
          rcases canLayoutRight_shape hcan with hindex | ⟨rest, u, ss, rfl, hfull, hu, hrest⟩
          · rw [submdspanExtents_of_index hindex, subStrides_of_index hindex, rightStrides]
          · exact rightStrides_submdspan hs.length_eq hfull hu hrest
        rw [Mapping.strides, ← hstrides]
        exact right_hasStrides _
      · exact hstrided
    | stride strides => exact hstrided

/-! ## 5. The offset -/

theorem Slice.firstExtent_le {s : Slice} {e : ℕ} (h : s.Valid e) : s.firstExtent ≤ e := by
  cases s with
  | index i => exact Nat.le_of_lt h
  | pair first last => exact h.1.trans h.2
  | full => exact Nat.zero_le e
  | strided offset x stride strideConstant =>
    have hend : offset + x ≤ e := h.1
    change offset ≤ e
    omega

theorem Slice.firstExtent_lt {s : Slice} {e : ℕ} (h : s.Valid e)
    (hpos : s.isIndex = false → 0 < s.subextent e) : s.firstExtent < e := by
  cases hindex : s.isIndex with
  | true =>
    cases s with
    | index i => exact h
    | _ => exact Bool.noConfusion hindex
  | false =>
    have hlt := Slice.place_lt h hindex (hpos hindex)
    rw [Slice.place_eq hindex (hpos hindex), Nat.zero_mul] at hlt
    exact hlt

theorem firsts_fits (h : ValidSlices extents slices) :
    (∀ e ∈ submdspanExtents extents slices, 0 < e) → Fits (slices.map Slice.firstExtent) extents := by
  induction h with
  | nil => exact fun _ => .nil
  | @cons e s es ss hs _ ih =>
    intro hpos
    cases hindex : s.isIndex with
    | true =>
      refine .cons (Slice.firstExtent_lt hs fun h => absurd hindex (by simp [h])) (ih ?_)
      cases s with
      | index i => exact hpos
      | _ => exact Bool.noConfusion hindex
    | false =>
      rw [submdspanExtents_cons hindex] at hpos
      obtain ⟨hhead, hrest⟩ := List.forall_mem_cons.mp hpos
      exact .cons (Slice.firstExtent_lt hs fun _ => hhead) (ih hrest)

/-- Without a slice at the end of its extent, the first indices are inside. -/
theorem firsts_fits_of_not_beginsAtEnd (h : ValidSlices extents slices) :
    ¬ BeginsAtEnd extents slices → Fits (slices.map Slice.firstExtent) extents := by
  induction h with
  | nil => exact fun _ => .nil
  | @cons e s es ss hs _ ih =>
    intro hend
    have hne : s.firstExtent ≠ e := fun heq => hend ⟨_, List.mem_cons_self, heq⟩
    have hlt : s.firstExtent < e := lt_of_le_of_ne (Slice.firstExtent_le hs) hne
    exact .cons hlt (ih fun ⟨p, hp, heq⟩ => hend ⟨p, List.mem_cons_of_mem _ hp, heq⟩)

theorem not_beginsAtEnd (h : Fits (slices.map Slice.firstExtent) extents) :
    ¬ BeginsAtEnd extents slices := by
  rintro ⟨p, hp, heq⟩
  exact absurd heq (Nat.ne_of_lt ((List.forall₂_iff_zip.mp h).2 hp))

theorem findsEnd_beginsAtEnd (h : findsEnd extents slices = true) : BeginsAtEnd extents slices := by
  obtain ⟨p, hp, heq⟩ := List.any_eq_true.mp h
  exact ⟨p, List.mem_of_mem_take hp, by simpa using heq⟩

theorem toSize_eq {v : ℕ} (h : v < 2 ^ 64) : toSize v = v := by
  rw [toSize]
  exact Int.emod_eq_of_lt (Int.natCast_nonneg v) (by exact_mod_cast h)

theorem submdspanOffset_eq (h : M.Valid m T)
    (hfits : Fits (slices.map Slice.firstExtent) M.extents) :
    submdspanOffset m T M slices = M.position (slices.map Slice.firstExtent) := by
  have hlt := Mapping.position_lt_span hfits
  have hfinds : ¬ findsEnd M.extents slices = true :=
    fun hfinds => not_beginsAtEnd hfits (findsEnd_beginsAtEnd hfinds)
  rw [submdspanOffset, if_neg hfinds, Mapping.call_eq h hfits]
  exact toSize_eq (hlt.trans h.span_lt)

theorem submdspanMapping_offset (hs : ValidSlices M.extents slices) (hne : M.extents ≠ []) :
    (submdspanMapping m T M slices).offset = submdspanOffset m T M slices := by
  obtain ⟨layout, extents⟩ := M
  have hlength : ¬ extents.length = 0 := fun h => hne (List.length_eq_zero_iff.mp h)
  rw [submdspanMapping, if_neg hlength]
  cases layout with
  | left => dsimp only; split <;> rfl
  | right => dsimp only; split <;> rfl
  | stride strides => rfl

theorem submdspanMapping_offset_of_fits (h : M.Valid m T)
    (hs : ValidSlices M.extents slices) (hfits : Fits (slices.map Slice.firstExtent) M.extents) :
    (submdspanMapping m T M slices).offset = M.position (slices.map Slice.firstExtent) := by
  by_cases hnil : M.extents = []
  · have hlength : M.extents.length = 0 := List.length_eq_zero_iff.mpr hnil
    have hslices : slices = [] := List.length_eq_zero_iff.mp (hs.length_eq.symm.trans hlength)
    rw [submdspanMapping, if_pos hlength, hslices]
    rfl
  · rw [submdspanMapping_offset hs hnil, submdspanOffset_eq h hfits]

/-! ## 6. Results with an element -/

theorem Slice.exists_place {s : Slice} {e i : ℕ} (h : s.Valid e) (hindex : s.isIndex = false)
    (hi : i < e) (hselects : s.Selects i) : ∃ j, j < s.subextent e ∧ s.place j = i := by
  cases s with
  | index k => exact Bool.noConfusion hindex
  | pair first last =>
    obtain ⟨hfirst, hlast⟩ := hselects
    exact ⟨i - first, Nat.sub_lt_sub_right hfirst hlast, Nat.add_sub_cancel' hfirst⟩
  | full => exact ⟨i, hi, rfl⟩
  | strided offset x stride strideConstant =>
    obtain ⟨j, rfl, hj⟩ := hselects
    have hx : x ≠ 0 := by omega
    have hpos : 0 < stride := h.2.resolve_left hx
    have hle : j ≤ (x - 1) / stride := (Nat.le_div_iff_mul_le hpos).mpr (by omega)
    refine ⟨j, ?_, rfl⟩
    change j < if x = 0 then 0 else 1 + (x - 1) / stride
    rw [if_neg hx]
    omega

theorem exists_denote (h : ValidSlices extents slices) : ∀ {idx : List ℕ}, Fits idx extents →
    List.Forall₂ Slice.Selects idx slices →
      ∃ js, Fits js (submdspanExtents extents slices) ∧ denote slices js = idx := by
  induction h with
  | nil => rintro _ ⟨⟩ _; exact ⟨[], .nil, rfl⟩
  | @cons e s es ss hs _ ih =>
    intro idx hidx hselects
    cases hidx with
    | cons hi hidx =>
      cases hselects with
      | cons hsel hselects =>
        obtain ⟨js, hjs, hdenote⟩ := ih hidx hselects
        cases hindex : s.isIndex with
        | true =>
          cases s with
          | index k =>
            refine ⟨js, hjs, ?_⟩
            rw [denote, hdenote]
            exact congrArg (· :: _) hsel.symm
          | _ => exact Bool.noConfusion hindex
        | false =>
          obtain ⟨j, hj, hplace⟩ := Slice.exists_place hs hindex hi hsel
          refine ⟨j :: js, ?_, ?_⟩
          · rw [submdspanExtents_cons hindex]
            exact .cons hj hjs
          · rw [denote_cons hindex, hplace, hdenote]

/-- The last element of the result is an element of the mapping. -/
theorem position_lasts_lt (h : M.Valid m T) (hs : ValidSlices M.extents slices)
    (hpos : ∀ e ∈ submdspanExtents M.extents slices, 0 < e) :
    M.position (slices.map Slice.firstExtent) +
      (1 + dot (lasts (submdspanExtents M.extents slices)) (subStrides slices M.strides)) ≤ M.span := by
  have hlasts := lasts_fits hpos
  have hlt := Mapping.position_lt_span (denote_fits hs hlasts)
  rw [Mapping.position, dot_denote hs hlasts h.hasStrides.length] at hlt
  rw [Mapping.position]
  omega

theorem submdspan_call (h : M.Valid m T) (hs : ValidSlices M.extents slices) {js : List ℕ}
    (hjs : Fits js (submdspanExtents M.extents slices)) :
    (submdspanMapping m T M slices).offset + (submdspanMapping m T M slices).mapping.call m T js =
      M.call m T (denote slices js) := by
  have hfits := denote_fits hs hjs
  have hlt := Mapping.position_lt_span hfits
  have hspan := h.span_le
  have hlength : js.length = (submdspanMapping m T M slices).mapping.extents.length := by
    rw [submdspanMapping_extents hs, hjs.length_eq]
  rw [Mapping.position, dot_denote hs hjs h.hasStrides.length] at hlt
  rw [submdspanMapping_offset_of_fits h hs (firsts_fits hs (Fits.pos hjs)), Mapping.call_eq h hfits,
    (submdspan_hasStrides h hs).call js hlength, Mapping.position, Mapping.position,
    dot_denote hs hjs h.hasStrides.length, Nat.cast_add,
    IntegerType.staticCast_of_has (IntegerType.has_of_le (by omega))]

theorem submdspan_within (h : M.Valid m T) (hs : ValidSlices M.extents slices)
    (hpos : ∀ e ∈ submdspanExtents M.extents slices, 0 < e) :
    (submdspanMapping m T M slices).offset +
      (submdspanMapping m T M slices).mapping.requiredSpanSize m T ≤ M.requiredSpanSize m T := by
  have hextents := submdspanMapping_extents (m := m) (T := T) hs
  have hstrides := submdspan_hasStrides h hs
  have hle := position_lasts_lt h hs hpos
  have hspan := h.span_le
  have hprod : (submdspanExtents M.extents slices).prod ≤ T.max m := by
    have hmax : (submdspanExtents M.extents slices).prod ≤ M.span :=
      prod_le_of_injective (fun js => M.position (denote slices js))
        (fun js hjs => Mapping.position_lt_span (denote_fits hs hjs)) fun is js his hjs heq => by
          have hunique := Mapping.position_injective h (denote_fits hs his) (denote_fits hs hjs) heq
          exact denote_injective hs his hjs hunique
    exact hmax.trans hspan
  rw [submdspanMapping_offset_of_fits h hs (firsts_fits hs hpos), Mapping.requiredSpanSize_eq h,
    hstrides.span (by rwa [hextents]) (by rwa [hextents]), hextents,
    IntegerType.staticCast_of_has (IntegerType.has_of_le (by omega))]
  exact_mod_cast hle

/-! ## 7. The exact condition -/

/-- **Slices address exactly the sliced elements, inside the span, exactly if no slice begins at the end
of its extent, or the loop finds one that does, or the place of the first indices is inside all the
same.** -/
theorem addressesSlices_iff (h : M.Valid m T) (hs : ValidSlices M.extents slices) :
    AddressesSlices m T M slices ↔ (BeginsAtEnd M.extents slices →
      findsEnd M.extents slices = true ∨
        toSize (M.call m T (slices.map Slice.firstExtent)) ≤ M.requiredSpanSize m T) := by
  have hextents := submdspanMapping_extents (m := m) (T := T) hs
  have hwithin : AddressesSlices m T M slices ↔ (submdspanMapping m T M slices).offset +
      (submdspanMapping m T M slices).mapping.requiredSpanSize m T ≤ M.requiredSpanSize m T := by
    refine ⟨fun haddresses => haddresses.within, fun hwithin => ?_⟩
    refine ⟨fun js hjs => ?_, fun js hjs => ?_, fun is js his hjs heq => ?_, ?_, hwithin⟩
    · rw [hextents] at hjs
      exact denote_fits hs hjs
    · rw [hextents] at hjs
      exact submdspan_call h hs hjs
    · rw [hextents] at his hjs
      exact denote_injective hs his hjs heq
    · rw [hextents]
      exact fun idx => exists_denote hs
  rw [hwithin]
  by_cases hzero : 0 ∈ submdspanExtents M.extents slices
  · -- nothing is left, and the offset alone matters
    have hne : M.extents ≠ [] := by
      intro hnil
      rw [hnil] at hs hzero
      cases hs
      exact absurd hzero List.not_mem_nil
    rw [(submdspan_hasStrides h hs).span_zero (by rwa [hextents]), add_zero,
      submdspanMapping_offset hs hne]
    have hspan := Mapping.requiredSpanSize_eq h
    by_cases hfinds : findsEnd M.extents slices = true
    · have hle : submdspanOffset m T M slices ≤ M.requiredSpanSize m T := by
        rw [submdspanOffset, if_pos hfinds, hspan, toSize_eq h.span_lt]
      exact ⟨fun _ _ => .inl hfinds, fun _ => hle⟩
    · have hoffset : submdspanOffset m T M slices =
          toSize (M.call m T (slices.map Slice.firstExtent)) := if_neg hfinds
      constructor
      · intro hle _
        rw [hoffset] at hle
        exact .inr hle
      · intro hcond
        by_cases hend : BeginsAtEnd M.extents slices
        · rw [hoffset]
          exact (hcond hend).resolve_left hfinds
        · have hfits := firsts_fits_of_not_beginsAtEnd hs hend
          rw [submdspanOffset_eq h hfits, hspan]
          exact_mod_cast (Mapping.position_lt_span hfits).le
  · have hpos : ∀ e ∈ submdspanExtents M.extents slices, 0 < e :=
      fun e he => Nat.pos_of_ne_zero fun h0 => hzero (h0 ▸ he)
    exact ⟨fun _ hend => absurd hend (not_beginsAtEnd (firsts_fits hs hpos)),
      fun _ => submdspan_within h hs hpos⟩

/-- A row of a matrix, every other element. -/
theorem addressesSlices_row : AddressesSlices .lp64 ⟨.int, true⟩ ⟨.right, [2, 3]⟩
    [.index 1, .strided 0 3 2 false] := by
  have hvalid : Mapping.Valid .lp64 ⟨.int, true⟩ ⟨.right, [2, 3]⟩ :=
    ⟨by decide, by decide, by decide, fun _ h => Layout.noConfusion h⟩
  have hslices : ValidSlices [2, 3] [.index 1, .strided 0 3 2 false] :=
    .cons (by decide) (.cons (by decide) .nil)
  refine (addressesSlices_iff hvalid hslices).mpr fun hend => ?_
  exact absurd hend (not_beginsAtEnd (.cons (by decide) (.cons (by decide) .nil)))

/-- The empty slice at the end of the second row: the offset is past the span. -/
theorem not_addressesSlices_end : Mapping.Valid .lp64 ⟨.int, true⟩ ⟨.left, [2, 3]⟩ ∧
    ValidSlices [2, 3] [.index 1, .pair 3 3] ∧
    ¬ AddressesSlices .lp64 ⟨.int, true⟩ ⟨.left, [2, 3]⟩ [.index 1, .pair 3 3] := by
  refine ⟨⟨by decide, by decide, by decide, fun _ h => Layout.noConfusion h⟩,
    .cons (by decide) (.cons (by decide) .nil), fun h => ?_⟩
  exact absurd h.within (by decide)

end Cccl.Mdspan
