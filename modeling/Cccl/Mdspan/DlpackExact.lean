/-
# DLPack round trips

A view that is converted to a tensor and back has the same extents and the same strides, up to the
range of 64 bits, and every element keeps its address (`roundTrip_call`) -- except that `__to_dlpack`
leaves the offset of a `layout_stride_relaxed` mapping behind.  Nothing else is lost, but the conversion
may throw: where an extent or a stride does not fit, where the data pointer is not aligned to the size
of an element, and where the number of elements is zero in the index type (`roundTrips_iff`).

In the other direction an accepted tensor has its elements where DLPack says, if the byte offset is a
multiple of the size of an element; it may be none for `layout_stride_relaxed` and element types whose
data type is smaller than they are (`addressesTensor_iff`).
-/
import Cccl.Mdspan.Dlpack

namespace Cccl.Mdspan

open IntegerTypes Strided MixedRadix

variable {m : DataModel} {T : IntegerType} {E : ElementType} {V : View}

/-! ## 1. The property -/

/-- **To a tensor and back.** -/
def RoundTrips (m : DataModel) (T : IntegerType) (E : ElementType) (space : MemorySpace)
    (deviceOrdinal : ℤ) (V : View) : Prop :=
  ∃ t V', toDlpackTensor m T E space deviceOrdinal V = .ok t ∧
    toSpaceMdspan m space V.mapping.policy V.mapping.extents.length E t = .ok V' ∧
    V'.mapping.extents = V.mapping.extents ∧
    ∀ idx, Fits idx V.mapping.extents → V'.address m int64 E idx = V.address m T E idx

/-! ## 2. Places -/

theorem position_zeros (A : AnyMapping) (n : ℕ) : A.position (List.replicate n 0) = A.offset := by
  have hzero : ∀ {N : Type} [AddCommMonoid N] (n : ℕ) (ss : List N),
      dot (List.replicate n 0) ss = 0 := by
    intro N _ n
    induction n with
    | zero => exact fun _ => rfl
    | succ n ih =>
      intro ss
      cases ss with
      | nil => rfl
      | cons s ss => rw [List.replicate_succ, dot_cons, zero_nsmul, zero_add, ih]
  cases A with
  | standard M =>
    rw [AnyMapping.position, Mapping.position, hzero]
    rfl
  | relaxed R => rw [AnyMapping.position, hzero, add_zero, AnyMapping.offset]

theorem zeros_fits {extents : List ℕ} (h : ∀ e ∈ extents, 0 < e) :
    Fits (List.replicate extents.length 0) extents := by
  induction extents with
  | nil => exact .nil
  | cons e es ih =>
    obtain ⟨he, hrest⟩ := List.forall_mem_cons.mp h
    exact .cons he (ih hrest)

/-! ## 3. The tensor of a view -/

/-- The strides of a view. -/
def viewStrideList (m : DataModel) (T : IntegerType) (A : AnyMapping) : List ℤ :=
  (List.range A.extents.length).map (A.stride m T ·)

theorem entries_of_length {array : List ℤ} {rank : ℕ} (h : array.length = rank) :
    entries rank array = array := by
  subst h
  refine List.ext_getElem (by simp [entries]) fun i hi _ => ?_
  have hlt : i < array.length := by simpa [entries] using hi
  simp [entries, hlt]

/-- **What `__to_dlpack` makes of a view.** -/
theorem toDlpack_eq_ok {deviceType : DLDeviceType} {deviceId : ℤ} {t : DLTensor}
    (h : toDlpack m T E V deviceType deviceId = .ok t) :
    (∀ d ∈ V.mapping.extents.zip (viewStrideList m T V.mapping),
      d.1 ≤ int64.max m ∧ d.2 ≤ int64.max m) ∧
    t.deviceType = deviceType ∧ t.ndim = V.mapping.extents.length ∧ t.dtype = E.dtype ∧
    t.data = (if 0 < V.size m T then V.data else 0) ∧ t.byteOffset = 0 ∧
    entries V.mapping.extents.length (t.shape.getD []) = V.mapping.extents.map Nat.cast ∧
    (0 < V.mapping.extents.length → t.shape ≠ none) ∧
    (0 < V.mapping.extents.length →
      t.strides = some ((viewStrideList m T V.mapping).map (int64.staticCast m))) := by
  rw [toDlpack, bind_eq_ok] at h
  obtain ⟨dims, hdims, ht⟩ := h
  obtain ⟨hbounds, rfl⟩ := dimensions_eq_ok.mp hdims
  have ht' := (Except.ok.inj ht).symm
  have hlength : V.mapping.extents.length ≤ (viewStrideList m T V.mapping).length := by
    rw [viewStrideList, List.length_map, List.length_range]
  have hshape : (V.mapping.extents.zip (viewStrideList m T V.mapping)).map
      (fun d => int64.staticCast m d.1) = V.mapping.extents.map Nat.cast := by
    calc (V.mapping.extents.zip (viewStrideList m T V.mapping)).map
          (fun d => int64.staticCast m d.1)
        = (V.mapping.extents.zip (viewStrideList m T V.mapping)).map (Nat.cast ∘ Prod.fst) :=
          List.map_congr_left fun d hd =>
            IntegerType.staticCast_of_has (IntegerType.has_of_le (hbounds d hd).1)
      _ = V.mapping.extents.map Nat.cast := by rw [← List.map_map, List.map_fst_zip hlength]
  have hstrides : (V.mapping.extents.zip (viewStrideList m T V.mapping)).map
      (fun d => int64.staticCast m d.2) =
        (viewStrideList m T V.mapping).map (int64.staticCast m) := by
    have hlength' : (viewStrideList m T V.mapping).length ≤ V.mapping.extents.length := by
      rw [viewStrideList, List.length_map, List.length_range]
    rw [← Function.comp_def, ← List.map_map, List.map_snd_zip hlength']
  subst ht'
  refine ⟨hbounds, rfl, rfl, rfl, rfl, rfl, ?_, fun hrank => ?_, fun hrank => ?_⟩
  · dsimp only
    split
    · rw [Option.getD_some, List.map_map]
      refine (entries_of_length ?_).trans hshape
      rw [List.length_map, List.length_zip]
      exact min_eq_left hlength
    · rename_i hrank
      have hnil : V.mapping.extents = [] := List.length_eq_zero_iff.mp (by omega)
      rw [hnil]
      rfl
  · rw [if_pos hrank]
    exact Option.some_ne_none _
  · dsimp only
    rw [if_pos hrank, List.map_map]
    exact congrArg some hstrides

/-! ## 4. The way back -/

theorem stride_call_sameResidue {extents : List ℕ} {strides strides' : List ℤ}
    (hstrides : ∀ s ∈ strides, 0 < s) (hlength : strides.length = extents.length)
    (h : strides' = strides.map (int64.staticCast m)) {idx : List ℕ}
    (hidx : idx.length = extents.length) :
    SameResidue m int64 (Mapping.call m int64 ⟨.stride strides', extents⟩ idx)
      (Mapping.position ⟨.stride strides, extents⟩ idx) := by
  have hsame : List.Forall₂ (fun v (s : ℕ) => SameResidue m int64 v s) strides'
      (strides.map Int.toNat) := by
    rw [h, List.forall₂_map_left_iff, List.forall₂_map_right_iff, List.forall₂_same]
    intro s hs
    rw [Int.toNat_of_nonneg (hstrides s hs).le]
    exact staticCast_sameResidue s
  have hcall := (@stride_hasStrides m int64 extents _ _ ((List.length_map _).trans hlength)
    hsame).call idx hidx
  rw [hcall]
  exact staticCast_sameResidue _

theorem dot_sameResidue {strides strides' : List ℤ}
    (h : strides' = strides.map (int64.staticCast m)) (idx : List ℕ) :
    SameResidue m int64 (dot idx strides') (dot idx strides) := by
  rw [h]
  induction idx generalizing strides strides' with
  | nil => exact Int.ModEq.refl _
  | cons i is ih =>
    cases strides with
    | nil => exact Int.ModEq.refl _
    | cons s ss =>
      rw [List.map_cons, dot_cons, dot_cons, nsmul_eq_mul, nsmul_eq_mul]
      exact ((staticCast_sameResidue s).mul_left _).add (ih rfl)

theorem map_getD_range {strides : List ℤ} {n : ℕ} (h : strides.length = n) :
    (List.range n).map (strides.getD · 0) = strides := entries_of_length h

theorem map_toNat_cast (extents : List ℕ) :
    (extents.map (Nat.cast : ℕ → ℤ)).map Int.toNat = extents := by
  rw [List.map_map]
  exact List.map_id' extents

/-- **The view of the tensor of a view** has the places of the view, less its own offset. -/
theorem makeMapping_call (hV : V.mapping.Valid m T) {t : DLTensor} (hbyte : t.byteOffset = 0)
    {idx : List ℕ} (hidx : Fits idx V.mapping.extents) :
    (makeMapping m V.mapping.policy E t (V.mapping.extents.map Nat.cast)
      ((viewStrideList m T V.mapping).map (int64.staticCast m))).call m int64 idx ≡
        V.mapping.position idx - V.mapping.offset [ZMOD 2 ^ 64] := by
  have hlength := hidx.length_eq
  obtain ⟨data, A⟩ := V
  cases A with
  | standard M =>
    rw [AnyMapping.offset, sub_zero]
    obtain ⟨layout, extents⟩ := M
    cases layout with
    | left =>
      have hcall := (left_hasStrides (m := m) (T := int64) extents).call idx hlength
      have hmapping : ∀ ss, makeMapping m .left E t (extents.map Nat.cast) ss =
          .standard ⟨.left, extents⟩ := fun ss =>
        congrArg (fun es => AnyMapping.standard ⟨.left, es⟩) (map_toNat_cast extents)
      rw [AnyMapping.policy, AnyMapping.extents, hmapping]
      exact (congrArg (· % 2 ^ 64) hcall).trans (staticCast_sameResidue (m := m) (T := int64) _)
    | right =>
      have hcall := (right_hasStrides (m := m) (T := int64) extents).call idx hlength
      have hmapping : ∀ ss, makeMapping m .right E t (extents.map Nat.cast) ss =
          .standard ⟨.right, extents⟩ := fun ss =>
        congrArg (fun es => AnyMapping.standard ⟨.right, es⟩) (map_toNat_cast extents)
      rw [AnyMapping.policy, AnyMapping.extents, hmapping]
      exact (congrArg (· % 2 ^ 64) hcall).trans (staticCast_sameResidue (m := m) (T := int64) _)
    | stride strides =>
      obtain ⟨hsize, hpos, -⟩ := Mapping.Valid.strided hV strides rfl
      have hlist : viewStrideList m T (.standard ⟨.stride strides, extents⟩) = strides :=
        map_getD_range hsize
      have hmapping : ∀ ss, makeMapping m .stride E t (extents.map Nat.cast) ss =
          .standard ⟨.stride ss, extents⟩ := fun ss =>
        congrArg (fun es => AnyMapping.standard ⟨.stride ss, es⟩) (map_toNat_cast extents)
      rw [AnyMapping.policy, AnyMapping.extents, hmapping, hlist]
      exact stride_call_sameResidue (fun s hs => (hpos s hs).1) hsize rfl hlength
  | relaxed R =>
    obtain ⟨hsize, -, -⟩ := hV
    have hlist : viewStrideList m T (.relaxed R) = R.strides := map_getD_range hsize
    have hzero : int64.staticCast m ((t.byteOffset / E.size : ℕ) : ℤ) = 0 := by
      rw [hbyte, Nat.zero_div]
      exact staticCast_zero
    have hmapping : ∀ ss, makeMapping m .strideRelaxed E t (R.extents.map Nat.cast) ss =
        .relaxed ⟨R.extents, ss, 0⟩ := fun ss =>
      congrArg₂ (fun es o => AnyMapping.relaxed ⟨es, ss, o⟩) (map_toNat_cast R.extents) hzero
    rw [AnyMapping.policy, AnyMapping.extents, hmapping, hlist]
    refine (relaxed_call_sameResidue (m := m) (T := int64) _ idx).trans ?_
    rw [AnyMapping.position, AnyMapping.offset, zero_add, add_sub_cancel_left]
    exact dot_sameResidue rfl idx

theorem makeMapping_extents (policy : LayoutPolicy) (E : ElementType) (t : DLTensor)
    (shapes strides : List ℤ) :
    (makeMapping m policy E t shapes strides).extents = shapes.map Int.toNat := by
  cases policy <;> rfl

/-! ## 5. Strides of layouts without gaps -/

theorem prod_le_of_append {l₁ l₂ : List ℕ} (h : ∀ e ∈ l₁ ++ l₂, 0 < e) :
    l₁.prod ≤ (l₁ ++ l₂).prod ∧ l₂.prod ≤ (l₁ ++ l₂).prod := by
  have h₁ : 0 < l₁.prod := List.prod_pos fun e he => h e (List.mem_append_left _ he)
  have h₂ : 0 < l₂.prod := List.prod_pos fun e he => h e (List.mem_append_right _ he)
  rw [List.prod_append]
  exact ⟨Nat.le_mul_of_pos_right _ h₂, Nat.le_mul_of_pos_left _ h₁⟩

theorem checkStride_eq_ok (hV : V.mapping.Valid m T) (hne : V.NonEmpty) {i : ℕ}
    (hle : V.mapping.stride m T i ≤ int64.max m) (hi : i < V.mapping.extents.length) :
    checkStride m V.mapping.policy (V.mapping.extents.map Nat.cast) i
      (int64.staticCast m (V.mapping.stride m T i)) = .ok () := by
  obtain ⟨data, A⟩ := V
  cases A with
  | relaxed R => rfl
  | standard M =>
    obtain ⟨layout, extents⟩ := M
    have hprod : extents.prod ≤ T.max m := (Mapping.prod_le_span hV).trans hV.span_le
    -- the stride is a product of some of the extents
    have hexact : ∀ part : List ℕ, part.prod ≤ extents.prod → (∀ e ∈ part, 0 < e) →
        AnyMapping.stride m T i (.standard ⟨layout, extents⟩) = T.staticCast m part.prod →
        ∃ stride : ℕ, AnyMapping.stride m T i (.standard ⟨layout, extents⟩) = stride ∧
          int64.staticCast m stride = stride ∧
          checkedProduct m 1 (part.map Nat.cast) = .ok (stride : ℤ) := by
      intro part hpart hpos hstride
      rw [IntegerType.staticCast_of_has (IntegerType.has_of_le (hpart.trans hprod))] at hstride
      have hmax : part.prod ≤ int64.max m := by
        have h := hle
        rw [hstride] at h
        exact_mod_cast h
      refine ⟨part.prod, hstride, IntegerType.staticCast_of_has (IntegerType.has_of_le hmax), ?_⟩
      have hchecked := @checkedProduct_of_le m part 1 hpos (by rwa [Nat.one_mul])
      rwa [Nat.one_mul, Nat.cast_one] at hchecked
    have hsplit := fun n => @prod_le_of_append (extents.take n) (extents.drop n)
      (by rwa [List.take_append_drop])
    cases layout with
    | left =>
      have hle' := (hsplit i).1
      rw [List.take_append_drop] at hle'
      obtain ⟨stride, hstride, hcast, hchecked⟩ := hexact (extents.take i) hle'
        (fun e he => hne e (List.mem_of_mem_take he)) (foldl_scale_one _)
      rw [hstride, hcast, AnyMapping.policy, checkStride, AnyMapping.extents, getLayoutLeftStride,
        ← List.map_take, hchecked]
      exact throwIf_eq_ok.mpr (not_not.mpr rfl)
    | right =>
      have hle' := (hsplit (i + 1)).2
      rw [List.take_append_drop] at hle'
      obtain ⟨stride, hstride, hcast, hchecked⟩ := hexact (extents.drop (i + 1)) hle'
        (fun e he => hne e (List.mem_of_mem_drop he)) (foldr_scale_one _)
      rw [hstride, hcast, AnyMapping.policy, checkStride, AnyMapping.extents, getLayoutRightStride,
        ← List.map_drop, hchecked]
      exact throwIf_eq_ok.mpr (not_not.mpr rfl)
    | stride strides =>
      obtain ⟨hsize, hpos, -⟩ := Mapping.Valid.strided hV strides rfl
      have hlt : i < strides.length := hsize.symm ▸ hi
      have hget : AnyMapping.stride m T i (.standard ⟨.stride strides, extents⟩) = strides[i] := by
        simp [AnyMapping.stride, Mapping.stride, hlt]
      obtain ⟨hstride, -⟩ := hpos _ (List.getElem_mem hlt)
      rw [hget] at hle ⊢
      have hhas : int64.Has m strides[i] := by
        rw [← Int.toNat_of_nonneg hstride.le] at hle ⊢
        exact IntegerType.has_of_le (by exact_mod_cast hle)
      rw [IntegerType.staticCast_of_has hhas]
      exact throwIf_eq_ok.mpr (not_le.mpr hstride)

/-! ## 6. Round trips -/

/-- Everything fits into the 64-bit fields of a tensor. -/
def FitsTensor (m : DataModel) (T : IntegerType) (A : AnyMapping) : Prop :=
  ∀ d ∈ A.extents.zip (viewStrideList m T A), d.1 ≤ int64.max m ∧ d.2 ≤ int64.max m

instance (A : AnyMapping) : Decidable (FitsTensor m T A) :=
  inferInstanceAs (Decidable (∀ d ∈ A.extents.zip (viewStrideList m T A), _ ∧ _))

/-- The address is a multiple of the size of the data type, if that is at least one byte. -/
def AlignedTo (dtype : DLDataType) (address : ℕ) : Prop :=
  0 < datatypeSize dtype → address % datatypeSize dtype = 0

instance (dtype : DLDataType) (address : ℕ) : Decidable (AlignedTo dtype address) :=
  inferInstanceAs (Decidable (_ → _))

theorem not_mem_shapes (hne : V.NonEmpty) :
    ¬ (0 : ℤ) ∈ V.mapping.extents.map (Nat.cast : ℕ → ℤ) := by
  intro hmem
  obtain ⟨e, he, hzero⟩ := List.mem_map.mp hmem
  have hpos := hne e he
  have hzero' : e = 0 := by exact_mod_cast hzero
  omega

theorem viewStrides_of_view {policy : LayoutPolicy} {shapes strides : List ℤ} {t : DLTensor}
    (hstrides : 0 < V.mapping.extents.length →
      t.strides = some ((viewStrideList m T V.mapping).map (int64.staticCast m))) :
    viewStrides m policy V.mapping.extents.length shapes t.strides = .ok strides ↔
      (∀ i, i < V.mapping.extents.length →
        checkStride m policy shapes i (int64.staticCast m (V.mapping.stride m T i)) = .ok ()) ∧
      strides = (viewStrideList m T V.mapping).map (int64.staticCast m) := by
  rw [viewStrides]
  split
  · rename_i hrank
    have hnil : viewStrideList m T V.mapping = [] := by
      rw [viewStrideList, hrank]
      rfl
    rw [hnil, List.map_nil]
    exact ⟨fun h => ⟨fun i hi => absurd hi (by omega), (Except.ok.inj h).symm⟩,
      fun h => congrArg Except.ok h.2.symm⟩
  · rename_i hrank
    have hlength : ((viewStrideList m T V.mapping).map (int64.staticCast m)).length =
        V.mapping.extents.length := by
      rw [List.length_map, viewStrideList, List.length_map, List.length_range]
    rw [hstrides (Nat.pos_of_ne_zero hrank), validateDlpackStrides, bind_eq_ok,
      entries_of_length hlength]
    have hchecks : (∀ i (h : i < ((viewStrideList m T V.mapping).map (int64.staticCast m)).length),
        checkStride m policy shapes (0 + i)
          ((viewStrideList m T V.mapping).map (int64.staticCast m))[i] = .ok ()) ↔
        ∀ i, i < V.mapping.extents.length →
          checkStride m policy shapes i (int64.staticCast m (V.mapping.stride m T i)) = .ok () := by
      have hget : ∀ i (h : i < ((viewStrideList m T V.mapping).map (int64.staticCast m)).length),
          ((viewStrideList m T V.mapping).map (int64.staticCast m))[i] =
            int64.staticCast m (V.mapping.stride m T i) := by
        intro i h
        rw [List.getElem_map]
        simp only [viewStrideList, List.getElem_map, List.getElem_range]
      constructor
      · intro hall i hi
        have h := hall i (hlength.symm ▸ hi)
        rwa [Nat.zero_add, hget] at h
      · intro hall i hi
        rw [Nat.zero_add, hget]
        exact hall i (hlength ▸ hi)
    constructor
    · rintro ⟨_, hcheck, h⟩
      exact ⟨hchecks.mp (checkStrides_eq_ok.mp hcheck), (Except.ok.inj h).symm⟩
    · rintro ⟨hcheck, h⟩
      exact ⟨(), checkStrides_eq_ok.mpr (hchecks.mpr hcheck), congrArg Except.ok h.symm⟩

theorem toSpaceMdspan_eq_ok {space : MemorySpace} {policy : LayoutPolicy} {rank : ℕ}
    {t : DLTensor} {V' : View} : toSpaceMdspan m space policy rank E t = .ok V' ↔
      t.deviceType = space.deviceType ∧ toMdspan m policy rank E t = .ok V' := by
  unfold toSpaceMdspan
  rw [throwIf_bind_eq_ok, not_not]

/-- A tensor of a view: what the view of it is, and when it is accepted. -/
theorem toSpaceMdspan_of_view (hV : V.Valid m T E) (hne : V.NonEmpty) {space : MemorySpace}
    {deviceOrdinal : ℤ} {t : DLTensor} (ht : toDlpackTensor m T E space deviceOrdinal V = .ok t)
    (V' : View) :
    toSpaceMdspan m space V.mapping.policy V.mapping.extents.length E t = .ok V' ↔
      V.size m T ≠ 0 ∧ AlignedTo E.dtype V.data ∧
        V' = ⟨V.data, makeMapping m V.mapping.policy E t (V.mapping.extents.map Nat.cast)
          ((viewStrideList m T V.mapping).map (int64.staticCast m))⟩ := by
  obtain ⟨hfits, hdevice, hndim, hdtype, hdata, hbyte, hshapes, hshape, hstrides⟩ :=
    toDlpack_eq_ok ht
  have hsize : (0 : ℤ) ≤ V.size m T := Int.emod_nonneg _ (pow_ne_zero _ two_ne_zero)
  have hnonneg : ∀ shape ∈ V.mapping.extents.map (Nat.cast : ℕ → ℤ), 0 ≤ shape := by
    intro shape hmem
    obtain ⟨e, -, rfl⟩ := List.mem_map.mp hmem
    exact Int.natCast_nonneg e
  rw [toSpaceMdspan_eq_ok, toMdspan_eq_ok, hshapes, hdtype, hbyte]
  have hpointer : t.data ≠ 0 → t.data = V.data ∧ dataPointer V.mapping.policy t = V.data := by
    intro hne
    have hpos : 0 < V.size m T := by
      by_contra hzero
      rw [if_neg hzero] at hdata
      exact hne hdata
    rw [if_pos hpos] at hdata
    refine ⟨hdata, ?_⟩
    rw [dataPointer, hbyte, Nat.add_zero, if_pos hne, hdata, Nat.mod_eq_of_lt hV.data_lt, ite_self]
  have hwritten : t.data ≠ 0 ↔ V.size m T ≠ 0 := by
    rw [hdata]
    split
    · rename_i hpos
      exact ⟨fun _ => hpos.ne', fun _ => hV.data_pos.ne'⟩
    · rename_i hzero
      exact ⟨fun h => absurd rfl h, fun h => absurd (lt_of_le_of_ne hsize h.symm) hzero⟩
  constructor
  · rintro ⟨-, -, -, -, -, hnull, -, haligned, strides, hview, rfl⟩
    have hne' : t.data ≠ 0 := fun h => hnull ⟨h, not_mem_shapes hne⟩
    obtain ⟨-, hpointer⟩ := hpointer hne'
    obtain ⟨-, rfl⟩ := (viewStrides_of_view hstrides).mp hview
    rw [hpointer] at haligned ⊢
    exact ⟨hwritten.mp hne', fun h => by_contra fun hmod => haligned ⟨h, hmod⟩, rfl⟩
  · rintro ⟨hsize', haligned, rfl⟩
    have hne' := hwritten.mpr hsize'
    obtain ⟨-, hpointer⟩ := hpointer hne'
    rw [hpointer]
    refine ⟨hdevice, hndim, rfl, fun h => hshape h.1 h.2, hnonneg, fun h => hne' h.1,
      fun h => h.2.2 (Nat.zero_mod _), fun h => h.2 (haligned h.1), _,
      (viewStrides_of_view hstrides).mpr ⟨fun i hi => ?_, rfl⟩, rfl⟩
    have hlength : (viewStrideList m T V.mapping).length = V.mapping.extents.length := by
      rw [viewStrideList, List.length_map, List.length_range]
    have hmem : (V.mapping.extents[i], V.mapping.stride m T i) ∈
        V.mapping.extents.zip (viewStrideList m T V.mapping) := by
      refine List.mem_iff_getElem.mpr ⟨i, ?_, ?_⟩
      · rw [List.length_zip, hlength, min_self]
        exact hi
      · simp [viewStrideList]
    exact checkStride_eq_ok hV.mapping hne (hfits _ hmem).2 hi

/-- **A view that is not empty comes back as it was exactly if its extents and strides fit into 64 bits,
its size is not zero in the index type, its data pointer is aligned to the size of the data type, and
the mapping has no offset of its own.** -/
theorem roundTrips_iff (hV : V.Valid m T E) (hne : V.NonEmpty) (space : MemorySpace)
    (deviceOrdinal : ℤ) : RoundTrips m T E space deviceOrdinal V ↔
      FitsTensor m T V.mapping ∧ V.size m T ≠ 0 ∧ AlignedTo E.dtype V.data ∧
        V.mapping.offset = 0 := by
  have hzeros := zeros_fits hne
  have haddress : ∀ {t : DLTensor}, toDlpackTensor m T E space deviceOrdinal V = .ok t →
      ∀ idx, Fits idx V.mapping.extents →
        View.address m int64 E ⟨V.data, makeMapping m V.mapping.policy E t
          (V.mapping.extents.map Nat.cast)
          ((viewStrideList m T V.mapping).map (int64.staticCast m))⟩ idx =
        (V.data + (V.mapping.position idx - V.mapping.offset) * E.size) % 2 ^ 64 := by
    intro t ht idx hidx
    obtain ⟨-, -, -, -, -, hbyte, -⟩ := toDlpack_eq_ok ht
    exact (Int.ModEq.refl _).add ((makeMapping_call hV.mapping hbyte hidx).mul_right _)
  constructor
  · rintro ⟨t, V', ht, hback, -, hsame⟩
    obtain ⟨hfits, -⟩ := toDlpack_eq_ok ht
    obtain ⟨hsize, haligned, rfl⟩ := (toSpaceMdspan_of_view hV hne ht V').mp hback
    refine ⟨hfits, hsize, haligned, ?_⟩
    -- the first element tells
    have hfirst := hsame _ hzeros
    rw [haddress ht _ hzeros, View.address, AnyMapping.call_eq hV.mapping hzeros, position_zeros,
      sub_self, zero_mul, add_zero] at hfirst
    have hmemory := hV.memory _ hzeros
    rw [position_zeros] at hmemory
    have hsize := hV.size_pos
    have hdata := hV.data_lt
    have hoffset : 0 ≤ V.mapping.offset := by
      cases hmapping : V.mapping with
      | standard M => exact le_rfl
      | relaxed R =>
        have hvalid := hV.mapping
        rw [hmapping] at hvalid
        exact hvalid.2.1
    have hproduct : 0 ≤ V.mapping.offset * E.size := mul_nonneg hoffset (Int.natCast_nonneg _)
    have hexpand : (V.mapping.offset + 1) * E.size = V.mapping.offset * E.size + E.size := by
      rw [add_mul, one_mul]
    rw [hexpand] at hmemory
    have hlow : ((V.data : ℤ)) % 2 ^ 64 = V.data :=
      Int.emod_eq_of_lt (Int.natCast_nonneg _) (by exact_mod_cast hdata)
    have hhigh : ((V.data : ℤ) + V.mapping.offset * E.size) % 2 ^ 64 =
        V.data + V.mapping.offset * E.size := Int.emod_eq_of_lt (by omega) (by omega)
    rw [hlow, hhigh] at hfirst
    have hzero : V.mapping.offset * E.size = 0 := by omega
    exact (mul_eq_zero.mp hzero).resolve_right (by omega)
  · rintro ⟨hfits, hsize, haligned, hoffset⟩
    obtain ⟨t, ht⟩ : ∃ t, toDlpackTensor m T E space deviceOrdinal V = .ok t :=
      ⟨_, bind_eq_ok.mpr ⟨_, dimensions_eq_ok.mpr ⟨hfits, rfl⟩, rfl⟩⟩
    refine ⟨t, _, ht, (toSpaceMdspan_of_view hV hne ht _).mpr ⟨hsize, haligned, rfl⟩, ?_,
      fun idx hidx => ?_⟩
    · rw [makeMapping_extents, map_toNat_cast]
    · rw [haddress ht idx hidx, hoffset, sub_zero, View.address,
        AnyMapping.call_eq hV.mapping hidx]

/-! ## 7. Accepted tensors -/

variable {policy : LayoutPolicy} {t : DLTensor} {shapes strides : List ℤ}

theorem cast_prod (es : List ℕ) : ((es.prod : ℕ) : ℤ) = (es.map Nat.cast).prod :=
  map_list_prod (Nat.castRingHom ℤ) es

theorem map_cast_toNat (h : ∀ shape ∈ shapes, 0 ≤ shape) :
    (shapes.map Int.toNat).map (Nat.cast : ℕ → ℤ) = shapes := by
  rw [List.map_map]
  calc shapes.map (Nat.cast ∘ Int.toNat) = shapes.map id :=
        List.map_congr_left fun shape hmem => Int.toNat_of_nonneg (h shape hmem)
    _ = shapes := List.map_id shapes

theorem dot_cast (idx ss : List ℕ) : dot idx (ss.map (Nat.cast : ℕ → ℤ)) = (dot idx ss : ℕ) :=
  (map_dot (Nat.castAddMonoidHom ℤ) idx ss).symm

/-- Strides that were accepted for a layout without gaps are the strides of that layout. -/
theorem strides_of_checked {expected : List ℕ} (hlength : strides.length = expected.length)
    (h : ∀ i (hi : i < strides.length) (hi' : i < expected.length),
      strides[i] = (expected[i] : ℤ)) : strides = expected.map Nat.cast := by
  refine List.ext_getElem (by rw [List.length_map, hlength]) fun i hi hi' => ?_
  rw [List.getElem_map]
  exact h i hi _

/-- **The places of the view of an accepted tensor**, up to 64 bits. -/
theorem makeMapping_call_of_checked (hshapes : ∀ shape ∈ shapes, 0 ≤ shape)
    (hlength : strides.length = shapes.length)
    (hcheck : checkStrides m policy shapes 0 strides = .ok ()) {idx : List ℕ}
    (hidx : idx.length = shapes.length) :
    (makeMapping m policy E t shapes strides).call m int64 idx ≡
      (if policy = .strideRelaxed then ((t.byteOffset / E.size : ℕ) : ℤ) else 0) + dot idx strides
        [ZMOD 2 ^ 64] := by
  have hextents : idx.length = (shapes.map Int.toNat).length := by rwa [List.length_map]
  have hcheck' := checkStrides_eq_ok.mp hcheck
  have hcasts := map_cast_toNat hshapes
  -- a stride of a layout without gaps is the product that it was compared with
  have hproduct : ∀ {part : List ℕ} {stride expected : ℤ} {message : String},
      checkedProduct m 1 (part.map Nat.cast) = .ok expected →
      throwIf (stride ≠ expected) message = .ok () → stride = (part.prod : ℕ) := by
    intro part stride expected message hpart hthrow
    rw [not_not.mp (throwIf_eq_ok.mp hthrow), checkedProduct_ok hpart, one_mul, cast_prod]
  cases policy with
  | left =>
    have hstrides : strides = (leftStrides (shapes.map Int.toNat)).map Nat.cast := by
      refine strides_of_checked (by simpa using hlength) fun i hi _ => ?_
      have h := hcheck' i hi
      rw [Nat.zero_add, checkStride, bind_eq_ok] at h
      obtain ⟨expected, hpart, hthrow⟩ := h
      rw [getLayoutLeftStride, ← hcasts, ← List.map_take] at hpart
      rw [hproduct hpart hthrow]
      simp only [leftStrides_eq_range, List.getElem_map, List.getElem_range]
    have hcall := (left_hasStrides (m := m) (T := int64) _).call idx hextents
    rw [if_neg (by decide), zero_add, hstrides, dot_cast]
    exact (congrArg (· % 2 ^ 64) hcall).trans (staticCast_sameResidue (m := m) (T := int64) _)
  | right =>
    have hstrides : strides = (rightStrides (shapes.map Int.toNat)).map Nat.cast := by
      refine strides_of_checked (by simpa using hlength) fun i hi _ => ?_
      have h := hcheck' i hi
      rw [Nat.zero_add, checkStride, bind_eq_ok] at h
      obtain ⟨expected, hpart, hthrow⟩ := h
      rw [getLayoutRightStride, ← hcasts, ← List.map_drop] at hpart
      rw [hproduct hpart hthrow]
      simp only [rightStrides_eq_range, List.getElem_map, List.getElem_range]
    have hcall := (right_hasStrides (m := m) (T := int64) _).call idx hextents
    rw [if_neg (by decide), zero_add, hstrides, dot_cast]
    exact (congrArg (· % 2 ^ 64) hcall).trans (staticCast_sameResidue (m := m) (T := int64) _)
  | stride =>
    have hpos : ∀ s ∈ strides, 0 < s := by
      intro s hs
      obtain ⟨i, hi, rfl⟩ := List.mem_iff_getElem.mp hs
      exact not_le.mp (throwIf_eq_ok.mp (hcheck' i hi))
    have hsame := Mapping.sameResidue_toNat (m := m) (T := int64) hpos
    have hcall := (@stride_hasStrides m int64 (shapes.map Int.toNat) _ _ (by simpa using hlength)
      hsame).call idx hextents
    rw [if_neg (by decide), zero_add, ← map_cast_toNat fun s hs => (hpos s hs).le, dot_cast,
      map_cast_toNat fun s hs => (hpos s hs).le]
    exact (congrArg (· % 2 ^ 64) hcall).trans (staticCast_sameResidue (m := m) (T := int64) _)
  | strideRelaxed =>
    rw [if_pos rfl]
    exact (relaxed_call_sameResidue (m := m) (T := int64) _ idx).trans
      ((staticCast_sameResidue _).add_right _)

/-- The elements of a view of a tensor are where DLPack says. -/
def AddressesTensor (m : DataModel) (E : ElementType) (rank : ℕ) (t : DLTensor) (V : View) : Prop :=
  ∀ idx, Fits idx V.mapping.extents → V.address m int64 E idx =
    (t.data + t.byteOffset + dot idx (entries rank (t.strides.getD [])) * E.size) % 2 ^ 64

/-- The bytes of the offset that are no whole element. -/
def lostBytes (policy : LayoutPolicy) (E : ElementType) (t : DLTensor) : ℕ :=
  if policy = .strideRelaxed then t.byteOffset % E.size else 0

theorem length_entries (rank : ℕ) (array : List ℤ) : (entries rank array).length = rank := by
  rw [entries, List.length_map, List.length_range]

theorem viewStrides_eq_ok {rank : ℕ} (h : viewStrides m policy rank shapes t.strides = .ok strides) :
    strides = entries rank (t.strides.getD []) ∧ checkStrides m policy shapes 0 strides = .ok () := by
  rw [viewStrides] at h
  split at h
  · rename_i hrank
    subst hrank
    rw [← Except.ok.inj h]
    exact ⟨rfl, rfl⟩
  · cases hs : t.strides with
    | none =>
      rw [hs] at h
      exact absurd h error_ne_ok
    | some array =>
      rw [hs, validateDlpackStrides, bind_eq_ok] at h
      obtain ⟨_, hcheck, hok⟩ := h
      rw [← Except.ok.inj hok]
      exact ⟨rfl, hcheck⟩

theorem accepted_address {space : MemorySpace} {rank : ℕ}
    (h : toSpaceMdspan m space policy rank E t = .ok V) {idx : List ℕ}
    (hidx : Fits idx V.mapping.extents) : V.address m int64 E idx ≡
      t.data + t.byteOffset + dot idx (entries rank (t.strides.getD [])) * E.size -
        lostBytes policy E t [ZMOD 2 ^ 64] := by
  obtain ⟨-, hto⟩ := toSpaceMdspan_eq_ok.mp h
  obtain ⟨-, -, -, hshapes, hnull, -, -, strides, hview, rfl⟩ := toMdspan_eq_ok.mp hto
  obtain ⟨hstrides, hcheck⟩ := viewStrides_eq_ok hview
  have hextents := makeMapping_extents (m := m) policy E t (entries rank (t.shape.getD [])) strides
  have hlength : strides.length = (entries rank (t.shape.getD [])).length := by
    rw [hstrides, length_entries, length_entries]
  have hdata : t.data ≠ 0 := by
    intro hzero
    refine hnull ⟨hzero, fun hmem => ?_⟩
    have hpos := Fits.pos hidx 0
    rw [hextents] at hpos
    exact absurd (hpos (List.mem_map.mpr ⟨0, hmem, rfl⟩)) (Nat.lt_irrefl 0)
  have hplace := @makeMapping_call_of_checked m E policy t _ _ hshapes hlength hcheck idx
    (by rw [hidx.length_eq, hextents, List.length_map])
  rw [← hstrides]
  refine (Int.mod_modEq _ _).trans (((Int.ModEq.refl _).add (hplace.mul_right _)).trans ?_)
  by_cases hpolicy : policy = .strideRelaxed
  · have hpointer : dataPointer policy t = t.data := if_pos hpolicy
    have hlost : lostBytes policy E t = t.byteOffset % E.size := if_pos hpolicy
    have hdiv : ((t.byteOffset / E.size : ℕ) : ℤ) * E.size = t.byteOffset - (t.byteOffset % E.size : ℕ) := by
      have h := Nat.div_add_mod t.byteOffset E.size
      rw [Nat.mul_comm] at h
      exact eq_sub_of_add_eq (by exact_mod_cast h)
    rw [if_pos hpolicy, hpointer, hlost, add_mul, hdiv]
    refine congrArg (· % 2 ^ 64) ?_
    dsimp only
    omega
  · have hpointer : dataPointer policy t = (t.data + t.byteOffset) % 2 ^ 64 :=
      (if_neg hpolicy).trans (if_pos hdata)
    have hlost : lostBytes policy E t = 0 := if_neg hpolicy
    rw [if_neg hpolicy, hpointer, hlost, zero_add, Nat.cast_zero, sub_zero, Int.natCast_mod,
      Nat.cast_add, Nat.cast_pow, Nat.cast_two]
    exact (Int.mod_modEq _ _).add_right _

/-- **An accepted tensor has its elements where DLPack says exactly if the byte offset is a multiple of
the size of an element, or the layout is not `layout_stride_relaxed`, or there is no element.** -/
theorem addressesTensor_iff {space : MemorySpace} {rank : ℕ} (hpos : 0 < E.size)
    (hlt : E.size < 2 ^ 64) (h : toSpaceMdspan m space policy rank E t = .ok V) :
    AddressesTensor m E rank t V ↔
      (policy = .strideRelaxed → V.NonEmpty → E.size ∣ t.byteOffset) := by
  have hsub : ∀ v : ℤ, (v - lostBytes policy E t ≡ v [ZMOD 2 ^ 64]) ↔ lostBytes policy E t = 0 := by
    intro v
    have hsmall : lostBytes policy E t < 2 ^ 64 := by
      rw [lostBytes]
      split
      · exact (Nat.mod_lt _ hpos).trans hlt
      · decide
    constructor
    · intro hmod
      have hdvd : (2 ^ 64 : ℤ) ∣ lostBytes policy E t := by
        have := hmod.dvd
        rwa [sub_sub_cancel] at this
      exact Nat.eq_zero_of_dvd_of_lt (by exact_mod_cast hdvd) hsmall
    · intro hzero
      rw [hzero, Nat.cast_zero, sub_zero]
  have haddress : ∀ idx, V.address m int64 E idx % 2 ^ 64 = V.address m int64 E idx :=
    fun idx => Int.emod_emod_of_dvd _ (dvd_refl _)
  constructor
  · intro hall hpolicy hne
    have hzeros := zeros_fits hne
    have hfirst := accepted_address h hzeros
    rw [hall _ hzeros] at hfirst
    have hlost := (hsub _).mp (hfirst.symm.trans (Int.mod_modEq _ _))
    rw [lostBytes, if_pos hpolicy] at hlost
    exact Nat.dvd_of_mod_eq_zero hlost
  · intro hcond idx hidx
    have hne : V.NonEmpty := Fits.pos hidx
    have hlost : lostBytes policy E t = 0 := by
      rw [lostBytes]
      split
      · rename_i hpolicy
        exact Nat.mod_eq_zero_of_dvd (hcond hpolicy hne)
      · rfl
    rw [← haddress idx]
    exact (accepted_address h hidx).trans ((hsub _).mpr hlost)

/-! ## 8. Both directions -/

/-- `int`: 32 bits, one lane, four bytes. -/
def intElement : ElementType := ⟨⟨0, 32, 1⟩, 4⟩

/-- A matrix of integers. -/
def matrixView : View := ⟨4096, .standard ⟨.right, [2, 3]⟩⟩

theorem matrixView_valid : matrixView.Valid .lp64 ⟨.int, true⟩ intElement where
  mapping := ⟨by decide, by decide, by decide, fun _ h => Layout.noConfusion h⟩
  size_pos := by decide
  data_pos := by decide
  data_lt := by decide
  memory idx hidx := by
    have hlt : Mapping.position ⟨.right, [2, 3]⟩ idx < 6 := Mapping.position_lt_span hidx
    change (4096 : ℤ) + ((Mapping.position ⟨.right, [2, 3]⟩ idx : ℕ) + 1) * 4 ≤ 2 ^ 64
    omega

/-- Four integers, backwards: the mapping starts at the last one. -/
def backwardsView : View := ⟨4096, .relaxed ⟨[4], [-1], 3⟩⟩

theorem backwardsView_valid : backwardsView.Valid .lp64 ⟨.int, true⟩ intElement := by
  have hplace : ∀ idx, Fits idx [4] → 0 ≤ (3 : ℤ) + dot idx [-1] ∧ (3 : ℤ) + dot idx [-1] < 4 := by
    intro idx hidx
    cases hidx with
    | @cons i _ is _ hi his =>
      rw [dot_cons, nsmul_eq_mul, dot_nil_right]
      omega
  refine ⟨⟨rfl, by decide, fun idx hidx => ?_⟩, by decide, by decide, by decide, fun idx hidx => ?_⟩
  · obtain ⟨hnonneg, hlt⟩ := hplace idx hidx
    exact ⟨hnonneg, hlt.trans (by decide)⟩
  · obtain ⟨-, hlt⟩ := hplace idx hidx
    change (4096 : ℤ) + ((3 : ℤ) + dot idx [-1] + 1) * 4 ≤ 2 ^ 64
    omega

end Cccl.Mdspan
