/-
# What the constructor of a partition has checked

If no product of extents has been reduced modulo `2 ^ 64`, the leaves of a descriptor tile the padded
space (`CutePartitionDescriptor.tiles`): sorted, their strides are the products of the extents before
them.  The axes of the grid that no leaf is bound to have extent one (`extent_eq_one`), since the leaves
have as many places as the grid.  The place that `owner` returns has, along the axis of a leaf, the digit
of the leaf (`owner_get`); the order in which the leaves are decoded does not matter.
-/
import Mathlib.Algebra.Order.BigOperators.GroupWithZero.List
import Mathlib.Algebra.Order.Ring.Nat
import Mathlib.Algebra.BigOperators.Group.List.Lemmas
import Mathlib.Data.List.Perm.Subperm
import Cccl.Places.CutePartition

namespace Cccl.Places

open MixedRadix

/-! ## 1. Arithmetic of `size_t` -/

theorem sizeT_of_lt {n : ℕ} (h : n < 2 ^ 64) : sizeT n = n := Nat.mod_eq_of_lt h

theorem sizeT_lt (n : ℕ) : sizeT n < 2 ^ 64 := Nat.mod_lt _ (by decide)

theorem foldl_extent (leaves : List LayoutLeaf) :
    ∀ n, n < 2 ^ 64 → leaves.foldl (fun n l => sizeT (n * l.extent)) n =
      sizeT (n * (leaves.map LayoutLeaf.extent).prod) := by
  induction leaves with
  | nil =>
    intro n hn
    rw [List.foldl_nil, List.map_nil, List.prod_nil, Nat.mul_one, sizeT_of_lt hn]
  | cons l leaves ih =>
    intro n hn
    rw [List.foldl_cons, ih _ (sizeT_lt _), List.map_cons, List.prod_cons, sizeT, sizeT, sizeT,
      Nat.mod_mul_mod, Nat.mul_assoc]

theorem extentProduct_eq (leaves : List LayoutLeaf) :
    extentProduct leaves = sizeT (leaves.map LayoutLeaf.extent).prod := by
  rw [extentProduct, foldl_extent leaves 1 (by decide), Nat.one_mul]

theorem Dim4.prod_get (d : Dim4) : ((List.range 4).map d.get).prod = d.x * d.y * d.z * d.t := by
  have hrange : List.range 4 = [0, 1, 2, 3] := rfl
  rw [hrange]
  simp only [List.map_cons, List.map_nil, List.prod_cons, List.prod_nil, get, Nat.mul_one,
    Nat.mul_assoc]

/-! ## 2. Accepted arguments -/

theorem require_eq_ok {cond : Bool} {message : String} {u : Unit} :
    require cond message = .ok u ↔ cond = true := by
  cases cond <;> simp [require]

theorem bind_eq_ok {α β : Type} {x : Except String α} {f : α → Except String β} {b : β} :
    x >>= f = .ok b ↔ ∃ a, x = .ok a ∧ f a = .ok b := by
  cases x with
  | error e => simp [bind, Except.bind]
  | ok a => simp [bind, Except.bind]

/-- What has been checked. -/
structure PartitionArgs.Valid (A : PartitionArgs) : Prop where
  length_eq : A.placeLeaves.length = A.placeAxes.length
  axes : ∀ p ∈ A.placeLeaves.zip A.placeAxes, 0 ≤ p.2 ∧ p.2 ≤ 3 ∧
    p.1.extent = A.gridDims.get p.2.toNat
  nodup : A.placeAxes.Nodup
  places : A.numPlaces = A.gridDims.size
  dims : ∀ d < 4, 1 ≤ A.trueDims.get d ∧ A.trueDims.get d ≤ A.paddedDims.get d
  leaves : ∀ l ∈ A.placeLeaves ++ A.localLeaves, 0 ≤ l.stride ∧ 0 < l.extent
  strides : PartitionArgs.validateStrides 1 A.sortedLeaves = .ok A.paddedDims.size

theorem PartitionArgs.validateAxes_ok {A : PartitionArgs} :
    ∀ {bound : List ℤ} {ps : List (LayoutLeaf × ℤ)}, A.validateAxes bound ps = .ok () →
      (∀ p ∈ ps, 0 ≤ p.2 ∧ p.2 ≤ 3 ∧ p.1.extent = A.gridDims.get p.2.toNat) ∧
      (ps.map Prod.snd).Nodup ∧ ∀ p ∈ ps, p.2 ∉ bound
  | bound, [], _ => by simp
  | bound, (l, a) :: ps, h => by
    simp only [validateAxes, bind_eq_ok, require_eq_ok, decide_eq_true_eq, exists_const] at h
    obtain ⟨hrange, hextent, hfresh, hrest⟩ := h
    obtain ⟨hps, hnodup, hbound⟩ := validateAxes_ok hrest
    refine ⟨?_, ?_, ?_⟩
    · intro p hp
      rcases List.mem_cons.mp hp with rfl | hp
      · exact ⟨hrange.1, hrange.2, hextent⟩
      · exact hps p hp
    · rw [List.map_cons, List.nodup_cons]
      refine ⟨fun hmem => ?_, hnodup⟩
      obtain ⟨p, hp, heq⟩ := List.mem_map.mp hmem
      refine hbound p hp ?_
      rw [heq]
      exact List.mem_cons_self
    · intro p hp
      rcases List.mem_cons.mp hp with rfl | hp
      · exact hfresh
      · exact fun hmem => hbound p hp (List.mem_cons_of_mem _ hmem)

theorem PartitionArgs.validateLeaves_ok : ∀ {ls : List LayoutLeaf},
    PartitionArgs.validateLeaves ls = .ok () → ∀ l ∈ ls, 0 ≤ l.stride ∧ 0 < l.extent
  | l :: ls, h, l', hl' => by
    simp only [validateLeaves, bind_eq_ok, require_eq_ok, decide_eq_true_eq, exists_const] at h
    obtain ⟨hstride, hextent, hrest⟩ := h
    rcases List.mem_cons.mp hl' with rfl | hl'
    · exact ⟨hstride, Nat.pos_of_ne_zero hextent⟩
    · exact validateLeaves_ok hrest l' hl'

/-- **An accepted descriptor is valid.** -/
theorem CutePartitionDescriptor.valid (D : CutePartitionDescriptor) : D.Valid := by
  have h := D.accepted
  simp only [PartitionArgs.construct, PartitionArgs.validate, bind_eq_ok, require_eq_ok,
    decide_eq_true_eq, exists_const] at h
  obtain ⟨-, hlength, _, haxes, hplaces, hdims, _, hleaves, expected, hstrides, hsize⟩ := h
  obtain ⟨hzip, hnodup, -⟩ := PartitionArgs.validateAxes_ok haxes
  refine ⟨hlength, hzip, ?_, hplaces, fun d hd => ?_, PartitionArgs.validateLeaves_ok hleaves, ?_⟩
  · rwa [List.map_snd_zip hlength.ge] at hnodup
  · have := List.all_eq_true.mp hdims d (List.mem_range.mpr hd)
    simpa using this
  · rw [hstrides, hsize]

/-! ## 3. No overflow -/

/-- The product of the extents of all leaves, and the number of places of the grid, are numbers of type
`size_t`. -/
structure PartitionArgs.NoOverflow (A : PartitionArgs) : Prop where
  leaves : ((A.placeLeaves ++ A.localLeaves).map LayoutLeaf.extent).prod < 2 ^ 64
  grid : A.gridDims.x * A.gridDims.y * A.gridDims.z * A.gridDims.t < 2 ^ 64

/-- A leaf with its stride as a natural number. -/
def LayoutLeaf.toLeaf (l : LayoutLeaf) : Leaf := ⟨l.extent, l.size⟩

theorem chain_of_validateStrides : ∀ {ls : List LayoutLeaf} {expected n : ℕ},
    PartitionArgs.validateStrides expected ls = .ok n →
    expected * (ls.map LayoutLeaf.extent).prod < 2 ^ 64 → (∀ l ∈ ls, 0 < l.extent) →
    Chain expected (ls.map LayoutLeaf.toLeaf) n
  | [], expected, n, h, _, _ => by
    rw [PartitionArgs.validateStrides] at h
    exact Except.ok.inj h
  | l :: ls, expected, n, h, hlt, hpos => by
    simp only [PartitionArgs.validateStrides, bind_eq_ok, require_eq_ok, decide_eq_true_eq,
      exists_const] at h
    obtain ⟨hstride, hrest⟩ := h
    have hpos' : ∀ l' ∈ ls, 0 < l'.extent := fun l' hl' => hpos l' (List.mem_cons_of_mem _ hl')
    have hprod : 0 < (ls.map LayoutLeaf.extent).prod := by
      refine List.prod_pos fun e he => ?_
      obtain ⟨l', hl', rfl⟩ := List.mem_map.mp he
      exact hpos' l' hl'
    rw [List.map_cons, List.prod_cons, ← Nat.mul_assoc] at hlt
    have hnext : expected * l.extent < 2 ^ 64 :=
      (Nat.le_mul_of_pos_right _ hprod).trans_lt hlt
    rw [sizeT_of_lt hnext] at hrest
    exact ⟨hstride, chain_of_validateStrides hrest hlt hpos'⟩

theorem prod_map_filter {α : Type*} (f : α → ℕ) (X : α → Prop) [DecidablePred X] :
    ∀ {l : List α}, (∀ a ∈ l, ¬ X a → f a = 1) → ((l.filter X).map f).prod = (l.map f).prod
  | [], _ => rfl
  | a :: l, h => by
    have ih := prod_map_filter f X fun b hb => h b (List.mem_cons_of_mem _ hb)
    rw [List.filter_cons]
    split
    · rw [List.map_cons, List.prod_cons, List.map_cons, List.prod_cons, ih]
    · rename_i ha
      rw [decide_eq_true_eq] at ha
      rw [List.map_cons, List.prod_cons, ih, h a List.mem_cons_self ha, Nat.one_mul]

namespace CutePartitionDescriptor

variable {D : CutePartitionDescriptor}

/-- The number of padded elements. -/
def paddedSize (D : CutePartitionDescriptor) : ℕ :=
  D.paddedDims.x * D.paddedDims.y * D.paddedDims.z * D.paddedDims.t

/-- **The leaves of a descriptor tile the padded space**, if no product has overflowed. -/
theorem tiles (h : ((D.placeLeaves ++ D.localLeaves).map LayoutLeaf.extent).prod < 2 ^ 64)
    (hpadded : D.paddedSize < 2 ^ 64) :
    Tiles ((D.placeLeaves ++ D.localLeaves).map LayoutLeaf.toLeaf) D.paddedSize := by
  have hvalid := D.valid
  have hperm : D.sortedLeaves.Perm
      ((D.placeLeaves ++ D.localLeaves).filter fun l => 1 < l.extent) :=
    List.perm_insertionSort _ _
  refine ⟨fun l hl => ?_, D.sortedLeaves.map LayoutLeaf.toLeaf, ?_, ?_⟩
  · obtain ⟨l', hl', rfl⟩ := List.mem_map.mp hl
    exact (hvalid.leaves l' hl').2
  · rw [List.filter_map]
    exact hperm.map _
  · have hsize : D.paddedDims.size = D.paddedSize := sizeT_of_lt hpadded
    rw [← hsize]
    refine chain_of_validateStrides hvalid.strides ?_ fun l hl => ?_
    · rw [Nat.one_mul, (hperm.map _).prod_eq, prod_map_filter]
      · exact h
      · intro l hl hext
        have := (hvalid.leaves l hl).2
        omega
    · exact (hvalid.leaves l (List.mem_filter.mp (hperm.mem_iff.mp hl)).1).2

/-! ## 4. The grid -/

/-- The axes that leaves are bound to. -/
def axes (D : CutePartitionDescriptor) : List ℕ := D.placeAxes.map Int.toNat

theorem axes_nodup : D.axes.Nodup := by
  refine List.Nodup.map_on (fun a ha b hb hab => ?_) D.valid.nodup
  have hrange : ∀ c ∈ D.placeAxes, 0 ≤ c := by
    intro c hc
    rw [← List.map_snd_zip D.valid.length_eq.ge] at hc
    obtain ⟨p, hp, rfl⟩ := List.mem_map.mp hc
    exact (D.valid.axes p hp).1
  have ha' := hrange a ha
  have hb' := hrange b hb
  omega

theorem mem_axes {a : ℕ} : a ∈ D.axes ↔ ∃ p ∈ D.placeLeaves.zip D.placeAxes, p.2.toNat = a := by
  have hmap : D.axes = (D.placeLeaves.zip D.placeAxes).map fun p => p.2.toNat := by
    rw [axes]
    nth_rewrite 1 [← List.map_snd_zip D.valid.length_eq.ge]
    rw [List.map_map]
    rfl
  rw [hmap, List.mem_map]

theorem axes_lt {a : ℕ} (ha : a ∈ D.axes) : a < 4 := by
  obtain ⟨p, hp, rfl⟩ := mem_axes.mp ha
  have := (D.valid.axes p hp).2.1
  omega

theorem map_extent : D.placeLeaves.map LayoutLeaf.extent = D.axes.map D.gridDims.get := by
  have hfst := List.map_fst_zip D.valid.length_eq.le
  have hsnd := List.map_snd_zip D.valid.length_eq.ge
  rw [axes, List.map_map, ← hsnd]
  nth_rewrite 1 [← hfst]
  rw [List.map_map, List.map_map]
  exact List.map_congr_left fun p hp => (D.valid.axes p hp).2.2

theorem gridDims_eq_prod (h : D.NoOverflow) :
    D.gridDims.x * D.gridDims.y * D.gridDims.z * D.gridDims.t =
      (D.axes.map D.gridDims.get).prod := by
  have hplaces := D.valid.places
  have hlocal : 0 < (D.localLeaves.map LayoutLeaf.extent).prod := by
    refine List.prod_pos fun e he => ?_
    obtain ⟨l, hl, rfl⟩ := List.mem_map.mp he
    exact (D.valid.leaves l (List.mem_append_right _ hl)).2
  have hle : (D.placeLeaves.map LayoutLeaf.extent).prod < 2 ^ 64 := by
    refine lt_of_le_of_lt ?_ h.leaves
    rw [List.map_append, List.prod_append]
    exact Nat.le_mul_of_pos_right _ hlocal
  rw [PartitionArgs.numPlaces, extentProduct_eq, sizeT_of_lt hle, Dim4.size, sizeT_of_lt h.grid,
    map_extent] at hplaces
  exact hplaces.symm

theorem axes_prod_pos : 0 < (D.axes.map D.gridDims.get).prod := by
  rw [← map_extent]
  refine List.prod_pos fun e he => ?_
  obtain ⟨l, hl, rfl⟩ := List.mem_map.mp he
  exact (D.valid.leaves l (List.mem_append_left _ hl)).2

/-- **An axis that no leaf is bound to has extent one.** -/
theorem extent_eq_one (h : D.NoOverflow) {a : ℕ} (ha : a < 4) (hfree : a ∉ D.axes) :
    D.gridDims.get a = 1 := by
  have hsubset : D.axes ⊆ List.range 4 := fun b hb => List.mem_range.mpr (axes_lt hb)
  obtain ⟨bound, hperm, hsub⟩ := List.subperm_of_subset axes_nodup hsubset
  obtain ⟨rest, hrange⟩ := hsub.exists_perm_append
  have hmem : a ∈ rest := by
    have := hrange.mem_iff.mp (List.mem_range.mpr ha)
    rcases List.mem_append.mp this with hb | hr
    · exact absurd (hperm.mem_iff.mp hb) hfree
    · exact hr
  have hprod := (hrange.map D.gridDims.get).prod_eq
  rw [Dim4.prod_get, gridDims_eq_prod h, List.map_append, List.prod_append,
    (hperm.map _).prod_eq] at hprod
  have hone : (rest.map D.gridDims.get).prod = 1 :=
    Nat.eq_of_mul_eq_mul_left axes_prod_pos (hprod.symm.trans (Nat.mul_one _).symm)
  refine Nat.eq_one_of_dvd_one ?_
  rw [← hone]
  exact List.dvd_prod (List.mem_map_of_mem hmem)

theorem gridDims_pos (h : D.NoOverflow) {a : ℕ} (ha : a < 4) : 0 < D.gridDims.get a := by
  rcases Classical.em (a ∈ D.axes) with hbound | hfree
  · obtain ⟨p, hp, rfl⟩ := mem_axes.mp hbound
    rw [← (D.valid.axes p hp).2.2]
    exact (D.valid.leaves p.1 (List.mem_append_left _ (List.of_mem_zip hp).1)).2
  · rw [extent_eq_one h ha hfree]
    exact Nat.one_pos

/-! ## 5. The owner of an element -/

/-- What the loop of `owner` leaves for an axis: the digit that some leaf has stored there, if all that
store there store the same. -/
theorem foldl_decodeLeaf {linear a v : ℕ} :
    ∀ {ds : List (LayoutLeaf × Option ℕ)} {f : ℕ → ℕ},
      (∀ l k, (l, some k) ∈ ds → 1 < l.extent → D.axis k = a → linear / l.size % l.extent = v) →
      (f a = v ∨ ∃ l k, (l, some k) ∈ ds ∧ 1 < l.extent ∧ D.axis k = a) →
      ds.foldl (D.decodeLeaf linear) f a = v
  | [], f, _, hf => by
    rcases hf with hf | ⟨l, k, hmem, -⟩
    · exact hf
    · exact absurd hmem List.not_mem_nil
  | d :: ds, f, hsame, hf => by
    rw [List.foldl_cons]
    refine foldl_decodeLeaf (fun l k hmem => hsame l k (List.mem_cons_of_mem _ hmem)) ?_
    rcases Classical.em (∃ l k, (l, some k) ∈ ds ∧ 1 < l.extent ∧ D.axis k = a) with hlater | hno
    · exact Or.inr hlater
    refine Or.inl ?_
    -- this leaf stores the digit, or leaves what is there
    obtain ⟨l, index⟩ := d
    unfold decodeLeaf
    split
    · rename_i hext
      refine hf.resolve_right ?_
      rintro ⟨l', k, hmem, hext', hk⟩
      rcases List.mem_cons.mp hmem with heq | hmem
      · obtain ⟨rfl, -⟩ := Prod.mk.inj heq
        exact absurd hext' (by simpa using hext)
      · exact hno ⟨l', k, hmem, hext', hk⟩
    · rename_i hext
      cases index with
      | none =>
        refine hf.resolve_right ?_
        rintro ⟨l', k, hmem, hext', hk⟩
        rcases List.mem_cons.mp hmem with heq | hmem
        · exact absurd (Prod.mk.inj heq).2 (by simp)
        · exact hno ⟨l', k, hmem, hext', hk⟩
      | some k =>
        rcases eq_or_ne a (D.axis k) with rfl | hne
        · simp only [Function.update_self]
          exact hsame l k List.mem_cons_self (by simpa using hext) rfl
        · simp only [Function.update_of_ne hne]
          refine hf.resolve_right ?_
          rintro ⟨l', k', hmem, hext', hk⟩
          rcases List.mem_cons.mp hmem with heq | hmem
          · obtain ⟨-, heq⟩ := Prod.mk.inj heq
            obtain rfl := Option.some.inj heq
            exact hne hk.symm
          · exact hno ⟨l', k', hmem, hext', hk⟩

theorem mem_decode {l : LayoutLeaf} {k : ℕ} :
    (l, some k) ∈ D.decode ↔ D.placeLeaves[k]? = some l := by
  rw [decode, List.mem_insertionSort, List.mem_append, List.mem_map, List.mem_map]
  constructor
  · rintro (⟨p, hp, heq⟩ | ⟨l', -, heq⟩)
    · obtain ⟨rfl, hk⟩ := Prod.mk.inj heq
      obtain rfl := Option.some.inj hk
      exact List.mem_zipIdx_iff_getElem?.mp hp
    · exact absurd (Prod.mk.inj heq).2 (by simp)
  · intro h
    exact Or.inl ⟨(l, k), List.mem_zipIdx_iff_getElem?.mpr h, rfl⟩

theorem axis_eq {k : ℕ} {a : ℤ} (h : D.placeAxes[k]? = some a) : D.axis k = a.toNat := by
  rw [axis, List.getD_eq_getElem?_getD, h]
  rfl

theorem owner_get_eq (coords : Pos4) {a : ℕ} (ha : a < 4) : (D.owner coords).get a =
    D.decode.foldl (D.decodeLeaf (D.paddedDims.getIndex coords)) (fun _ => 0) a := by
  match a, ha with
  | 0, _ => rfl
  | 1, _ => rfl
  | 2, _ => rfl
  | 3, _ => rfl

/-- **The owner has the digits of the leaves of places.** -/
theorem owner_get (coords : Pos4) {p : LayoutLeaf × ℤ} (hp : p ∈ D.placeLeaves.zip D.placeAxes) :
    (D.owner coords).get p.2.toNat = p.1.toLeaf.digit (D.paddedDims.getIndex coords) := by
  obtain ⟨l, a⟩ := p
  have ha := axes_lt (mem_axes.mpr ⟨_, hp, rfl⟩)
  obtain ⟨k, hk⟩ := List.mem_iff_getElem?.mp hp
  obtain ⟨hl, hak⟩ := List.getElem?_zip_eq_some.mp hk
  rw [owner_get_eq coords ha]
  refine foldl_decodeLeaf (fun l' k' hmem hext haxis => ?_) ?_
  · -- no other leaf is bound to the axis
    have hl' := mem_decode.mp hmem
    obtain ⟨hk', -⟩ := List.getElem?_eq_some_iff.mp hl'
    have hsame : D.axes[k']? = D.axes[k]? := by
      rw [D.valid.length_eq] at hk'
      rw [axis_eq (List.getElem?_eq_getElem hk')] at haxis
      rw [axes, List.getElem?_map, List.getElem?_map, hak, List.getElem?_eq_getElem hk',
        Option.map_some, Option.map_some, haxis]
    have hlt : k' < D.axes.length := by
      rw [axes, List.length_map, ← D.valid.length_eq]
      exact hk'
    obtain rfl := (List.getElem?_inj hlt axes_nodup).mp hsame
    obtain rfl := Option.some.inj (hl'.symm.trans hl)
    rw [Leaf.digit, if_neg (by simpa [LayoutLeaf.toLeaf] using hext)]
    rfl
  · rcases Nat.lt_or_ge 1 l.extent with hext | hext
    · exact Or.inr ⟨l, k, mem_decode.mpr hl, hext, axis_eq hak⟩
    · refine Or.inl ?_
      rw [Leaf.digit, if_pos (by simpa [LayoutLeaf.toLeaf] using hext)]

theorem owner_get_of_free (coords : Pos4) {a : ℕ} (ha : a < 4) (hfree : a ∉ D.axes) :
    (D.owner coords).get a = 0 := by
  rw [owner_get_eq coords ha]
  refine foldl_decodeLeaf (fun l k hmem _ haxis => ?_) (Or.inl rfl)
  refine absurd ?_ hfree
  obtain ⟨hk, -⟩ := List.getElem?_eq_some_iff.mp (mem_decode.mp hmem)
  rw [D.valid.length_eq] at hk
  rw [axis_eq (List.getElem?_eq_getElem hk)] at haxis
  rw [← haxis, axes]
  exact List.mem_map_of_mem (List.getElem_mem hk)

end CutePartitionDescriptor

end Cccl.Places
