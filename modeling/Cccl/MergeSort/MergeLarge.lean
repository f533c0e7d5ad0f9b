/-
# Groups that are too large

When the size of a run is not a number of the offset type, it is cut to one.  Half of a group then has all the
tiles, so that the array is one sorted run.  Wherever the cut size divides it, its two parts are in order, and the
diagonals are those of an array that is copied (`largePartition_eq`, `largeSlices_eq`): the slices of a tile are
next to each other.
-/
import Cccl.MergeSort.MergePartitions
import Cccl.MergeSort.MergeTile

namespace Cccl.MergeSort

open Wrapped StableSort Chunks

variable {K V : Type}

namespace MergePass

variable {M : MergePass} {r : ℕ}

/-- The size of a run is not a number of the offset type. -/
structure Large (M : MergePass) (r : ℕ) : Prop where
  target_eq : M.targetMergedTilesNumber = 2 ^ (r + 1)
  target_lt : 2 ^ (r + 1) < 2 ^ M.offsetBits
  keysCount_lt : M.keysCount < 2 ^ M.offsetBits
  le_size : 2 ^ M.offsetBits ≤ M.itemsPerTile * 2 ^ r

/-- What is left of the size. -/
def cutSize (M : MergePass) (r : ℕ) : ℕ := (cutNat M.offsetBits (M.itemsPerTile * (2 ^ r : ℕ))).value

theorem Large.numTiles_le (h : M.Large r) : M.numTiles ≤ 2 ^ r := by
  by_contra hmore
  have hlt := lt_numTiles.mp (Nat.not_le.mp hmore)
  have := h.le_size
  have := h.keysCount_lt
  omega

theorem Large.tile_lt (h : M.Large r) {idx : ℕ} (hidx : idx ≤ M.numTiles) : idx < 2 ^ (r + 1) := by
  have hle := h.numTiles_le
  have hpos := Nat.two_pow_pos r
  rw [Nat.pow_succ]
  omega

theorem Large.mask_eq (h : M.Large r) :
    (cutNat M.offsetBits ((M.targetMergedTilesNumber : ℤ) - 1)).value = 2 ^ (r + 1) - 1 := by
  have hpos := Nat.two_pow_pos (r + 1)
  refine (is_cutNat (n := 2 ^ (r + 1) - 1) ?_ ((Nat.sub_le _ _).trans_lt h.target_lt)).1
  rw [h.target_eq]
  omega

theorem Large.half_eq (h : M.Large r) : M.targetMergedTilesNumber / 2 = 2 ^ r := by
  rw [h.target_eq, Nat.pow_succ, Nat.mul_div_cancel _ (by decide)]

section Tile

variable {lt : K → K → Bool} {keys : ℕ → Option K} {f : ℕ → K × V} {idx : ℕ}

theorem largeOffsets_eq (h : M.Large r) (hidx : idx ≤ M.numTiles) :
    (M.partitionOffsets idx).value = ⟨0, min M.keysCount (M.cutSize r), min M.keysCount (M.cutSize r),
      min M.keysCount (min M.keysCount (M.cutSize r) + M.cutSize r), idx⟩ := by
  have hcount := h.keysCount_lt
  have hlt := h.tile_lt hidx
  have hcut : M.cutSize r < 2 ^ M.offsetBits := cutNat_lt _ _
  have hpos := Nat.two_pow_pos M.offsetBits
  unfold partitionOffsets
  refine value_bind_eq h.mask_eq ?_
  simp only [h.half_eq, BlockMergeSortStrategy.ldiff_mask, BlockMergeSortStrategy.mask_and, Nat.mod_eq_of_lt hlt,
    Nat.div_eq_of_lt hlt, Nat.zero_mul, Nat.cast_zero, mul_zero]
  refine value_bind_eq (is_cutNat (n := 0) rfl hpos).1 (value_bind_eq (a := M.cutSize r) rfl ?_)
  have hbound : min (0 + M.cutSize r) (2 ^ M.offsetBits - 1) = M.cutSize r := by
    rw [Nat.zero_add]
    exact Nat.min_eq_left (Nat.le_sub_one_of_lt hcut)
  have hsecond : ∀ c, min M.keysCount (min c (2 ^ M.offsetBits - 1)) = min M.keysCount c := fun c => by
    rw [Nat.min_comm c, ← Nat.min_assoc, Nat.min_eq_left (Nat.le_sub_one_of_lt hcount)]
  refine value_bind_eq (safeAddBoundToMax_is hpos).1
    (value_bind_eq (safeAddBoundToMax_is ((Nat.min_le_left _ _).trans_lt hcount)).1 ?_)
  rw [value_pure, hbound, hsecond, Nat.min_zero]

/-- Of two parts that are in order, the first one is before the second one. -/
theorem mergePath_sorted [IsStrictWeakOrder K fun a b => lt a b = true] {n c c' d : ℕ}
    (hkeys : ∀ i < n, keys i = some (f i).1)
    (hsorted : (slice f 0 n).Pairwise fun a b => keyBelow lt b a = false) (hc : c ≤ c') (hc' : c' ≤ n) (hd : d ≤ c') :
    mergePath lt (fun i => keys (0 + i)) (fun i => keys (c + i)) c (c' - c) d = some (min d c) := by
  obtain ⟨p, hpath, hcut⟩ := @mergePath_spec _ lt (fun i => keys (0 + i)) (fun i => keys (c + i))
    (fun i => (f (0 + i)).1) (fun i => (f (c + i)).1) c (c' - c) d
    (fun i hi => hkeys _ (by omega)) (fun i hi => hkeys _ (by omega)) (by omega)
  have hle := hcut.le_count
  have hdiag := hcut.le_diag
  have hrest := hcut.rest_le
  rw [hpath, Option.some.injEq]
  -- no key of the second part is below one of the first
  by_contra hne
  have hmore : p < c := by omega
  have hup := not_below_of_le hsorted (i := 0 + p) (j := c + (d - 1 - p)) (by omega) (by omega) (by omega)
  rw [keyBelow, hcut.behind hmore (by omega)] at hup
  cases hup

/-- The first part is before the second one, as far as there are keys. -/
theorem largePartition_eq [IsStrictWeakOrder K fun a b => lt a b = true] (h : M.Large r)
    (hkeys : ∀ i < M.keysCount, keys i = some (f i).1)
    (hsorted : (slice f 0 M.keysCount).Pairwise fun a b => keyBelow lt b a = false) (hidx : idx ≤ M.numTiles) :
    (M.agentPartition lt keys idx).value =
      some (min (M.itemsPerTile * idx) (min M.keysCount (M.cutSize r))) := by
  have hcount := h.keysCount_lt
  have hnum := M.numTiles_le
  have hnum' := hnum
  have hcut : M.cutSize r < 2 ^ M.offsetBits := cutNat_lt _ _
  unfold agentPartition
  refine value_bind_eq (largeOffsets_eq h hidx) ?_
  split
  next hlast =>
    have hidx' : idx = M.numTiles := by
      rcases Nat.lt_or_ge (M.numTiles + 1) (2 ^ M.offsetBits) with hfits | hwraps
      · rw [Nat.mod_eq_of_lt (by omega), Nat.mod_eq_of_lt hfits] at hlast
        omega
      · have hnumTiles : M.numTiles + 1 = 2 ^ M.offsetBits := by omega
        rw [hnumTiles, Nat.mod_self] at hlast
        by_contra hne
        rw [Nat.mod_eq_of_lt (by omega)] at hlast
        omega
    have henough : M.keysCount ≤ M.itemsPerTile * M.numTiles := by
      by_contra hless
      exact absurd (lt_numTiles.mpr (Nat.not_le.mp hless)) (lt_irrefl _)
    rw [value_pure, hidx']
    simp only [Option.some.injEq]
    omega
  next hnot =>
    have htile : idx < M.numTiles := by
      by_contra hge
      exact hnot (by rw [show idx = M.numTiles by omega])
    have hbase := lt_numTiles.mp htile
    obtain ⟨c, hc⟩ : ∃ c, min M.keysCount (M.cutSize r) = c := ⟨_, rfl⟩
    obtain ⟨c', hc'⟩ : ∃ c', min M.keysCount (c + M.cutSize r) = c' := ⟨_, rfl⟩
    have hle : c ≤ c' := hc' ▸ le_min (hc ▸ Nat.min_le_left _ _) (Nat.le_add_right _ _)
    have hin : c' ≤ M.keysCount := hc' ▸ Nat.min_le_left _ _
    simp only [hc, hc']
    clear hc hc' hcut hnum hnum' hnot
    have hpath := mergePath_sorted hkeys hsorted hle hin (Nat.min_le_left c' (M.itemsPerTile * idx))
    rw [show min (min c' (M.itemsPerTile * idx)) c = min (M.itemsPerTile * idx) c by omega] at hpath
    unfold partitionDiag
    dsimp only
    refine value_bind_eq (is_cutNat (n := c') (Int.sub_zero _) (by omega)).1 ?_
    refine value_bind_eq (is_cutNat (n := M.itemsPerTile * idx) (Int.natCast_mul _ _).symm (by omega)).1 ?_
    refine value_bind_eq (is_cutNat (n := c) (Int.sub_zero _) (by omega)).1 ?_
    refine value_bind_eq (is_cutNat (n := c' - c) (Int.natCast_sub hle).symm (by omega)).1 ?_
    simp only [hpath]
    exact value_bind_eq (is_cutNat (n := min (M.itemsPerTile * idx) c) (by simp) (by omega)).1 rfl

theorem second_end {n c e bound : ℕ} (hn : n < bound) :
    min (n - c) (min e (bound - 1) - min e (min n c)) = min e n - c := by
  rcases Nat.le_total n c with hless | hmore
  · rw [Nat.sub_eq_zero_of_le hless, Nat.zero_min, Nat.sub_eq_zero_of_le ((Nat.min_le_right e n).trans hless)]
  · rw [Nat.min_eq_right hmore]
    rcases Nat.le_total e n with hin | hout
    · rw [Nat.min_eq_left hin, Nat.min_eq_left (hin.trans (Nat.le_sub_one_of_lt hn))]
      omega
    · rw [Nat.min_eq_right hout, Nat.min_eq_right (hmore.trans hout)]
      omega

/-- What a tile takes of the first part, and of the second one. -/
theorem largeSlices_eq (h : M.Large r) (htile : idx < M.numTiles) :
    (M.tileSlices idx (min (M.itemsPerTile * idx) (min M.keysCount (M.cutSize r)))
      (min (M.itemsPerTile * (idx + 1)) (min M.keysCount (M.cutSize r)))).value =
        ⟨0, M.cutSize r, min (M.itemsPerTile * idx) (M.cutSize r),
          min (min (M.itemsPerTile * idx + M.itemsPerTile) M.keysCount) (M.cutSize r),
          M.itemsPerTile * idx - M.cutSize r,
          min (M.itemsPerTile * idx + M.itemsPerTile) M.keysCount - M.cutSize r,
          min (min (M.itemsPerTile * idx + M.itemsPerTile) M.keysCount) (M.cutSize r) -
            min (M.itemsPerTile * idx) (M.cutSize r),
          min (M.itemsPerTile * idx + M.itemsPerTile) M.keysCount - M.cutSize r -
            (M.itemsPerTile * idx - M.cutSize r)⟩ := by
  have hcount := h.keysCount_lt
  have hlt := h.tile_lt htile.le
  have hbase := lt_numTiles.mp htile
  have hcut : M.cutSize r < 2 ^ M.offsetBits := cutNat_lt _ _
  have hpos := Nat.two_pow_pos M.offsetBits
  have hmask : 2 ^ (r + 1) - 1 ≠ idx := by
    have := h.numTiles_le
    have := Nat.two_pow_pos r
    rw [Nat.pow_succ]
    omega
  have hends : (M.sliceEnds idx (2 ^ (r + 1) - 1) 0 (M.cutSize r) (M.itemsPerTile * idx)
      (M.keysCount - M.cutSize r) (min (M.itemsPerTile * (idx + 1)) (min M.keysCount (M.cutSize r)))).value =
        (min (min (M.itemsPerTile * idx + M.itemsPerTile) M.keysCount) (M.cutSize r),
          min (M.itemsPerTile * idx + M.itemsPerTile) M.keysCount - M.cutSize r) := by
    unfold sliceEnds
    rw [BlockMergeSortStrategy.mask_and, Nat.mod_eq_of_lt hlt, if_neg hmask, Nat.mul_add_one]
    refine value_bind_eq (is_cutNat (n := min (M.itemsPerTile * idx + M.itemsPerTile)
      (min M.keysCount (M.cutSize r))) (by simp) (by omega)).1 ?_
    refine value_bind_eq (safeAddBoundToMax_is (by omega)).1 ?_
    refine value_bind_eq (is_cutNat (n := min (M.itemsPerTile * idx + M.itemsPerTile) (2 ^ M.offsetBits - 1) -
      min (M.itemsPerTile * idx + M.itemsPerTile) (min M.keysCount (M.cutSize r))) (by omega) (by omega)).1 ?_
    rw [value_pure, Prod.mk.injEq]
    exact ⟨(min_assoc _ _ _).symm, second_end hcount⟩
  have hmaxKeys2 : (M.maxKeys2 (M.cutSize r) M.keysCount).value = M.keysCount - M.cutSize r := by
    unfold maxKeys2
    split
    · exact (is_cutNat (by omega) (by omega)).1
    · rw [value_pure]
      omega
  unfold tileSlices
  refine value_bind_eq h.mask_eq ?_
  simp only [h.half_eq, BlockMergeSortStrategy.ldiff_mask, Nat.div_eq_of_lt hlt, Nat.zero_mul, Nat.cast_zero,
    mul_zero]
  refine value_bind_eq (is_cutNat (n := 0) rfl hpos).1 (value_bind_eq (a := M.cutSize r) rfl ?_)
  refine value_bind_eq (is_cutNat (n := M.itemsPerTile * idx) (Int.natCast_mul _ _).symm (by omega)).1 ?_
  refine value_bind_eq (is_cutNat (n := M.itemsPerTile * idx) (by omega) (by omega)).1 ?_
  refine value_bind_eq (is_cutNat (n := min (M.itemsPerTile * idx) (M.cutSize r)) (by omega) (by omega)).1 ?_
  refine value_bind_eq (is_cutNat (n := M.keysCount) (by omega) (by omega)).1 (value_bind_eq hmaxKeys2 ?_)
  refine value_bind_eq (is_cutNat (n := M.itemsPerTile * idx - M.cutSize r) (by omega) (by omega)).1 ?_
  rw [Nat.min_eq_right (show M.itemsPerTile * idx - M.cutSize r ≤ M.keysCount - M.cutSize r by omega)]
  refine value_bind_eq hends ?_
  refine value_bind_eq (numKeys_is (by omega) (by omega)).1 (value_bind_eq (numKeys_is (by omega) (by omega)).1 ?_)
  rfl

/-- Two neighbouring slices of a sorted array are merged to one. -/
theorem merge_neighbours [IsStrictWeakOrder K fun a b => lt a b = true] {b m e : ℕ} (hb : b ≤ m) (he : m ≤ e)
    (hsorted : (slice f b e).Pairwise fun a b => keyBelow lt b a = false) :
    (slice f b m).merge (slice f m e) (notAbove (keyBelow lt)) = slice f b e := by
  have happend := @merge_append _ (keyBelow lt) (slice f b m) [] [] (slice f m e)
    (fun x hx y hy => by
      obtain ⟨i, hi, hi', rfl⟩ := mem_slice.mp hx
      obtain ⟨j, hj, hj', rfl⟩ := mem_slice.mp hy
      exact not_below_of_le hsorted hi (by omega) hj')
    (fun y hy => absurd hy List.not_mem_nil)
  rw [List.append_nil, List.nil_append, List.merge_right, List.nil_merge, slice_append hb he] at happend
  exact happend

/-- The parts of a tile, from `d` up to `e`, before and behind `z`. -/
theorem largeParts {d items n e z n1 n2 : ℕ} (hd : d < n) (he : min (d + items) n = e) (hn1 : min e z - min d z = n1)
    (hn2 : e - z - (d - z) = n2) :
    e - d = n1 + n2 ∧ n1 + n2 ≤ items ∧ (d + items ≤ n → n1 + n2 = items) ∧ min d z + n1 ≤ n ∧
      (n2 = 0 ∨ z + (d - z) + n2 ≤ n) := by
  rcases Nat.le_total d z with hbefore | hbehind
  · rw [Nat.sub_eq_zero_of_le hbefore] at hn2 ⊢
    rw [Nat.min_eq_left hbefore] at hn1 ⊢
    omega
  · rw [Nat.min_eq_right hbehind] at hn1 ⊢
    omega

theorem merge_parts [IsStrictWeakOrder K fun a b => lt a b = true] {d e z n1 n2 : ℕ} (hde : d ≤ e)
    (hn1 : min e z - min d z = n1) (hn2 : e - z - (d - z) = n2)
    (hsorted : (slice f d e).Pairwise fun a b => keyBelow lt b a = false) :
    (slice f (min d z) (min d z + n1)).merge (slice f (z + (d - z)) (z + (d - z) + n2)) (notAbove (keyBelow lt)) =
      slice f d e := by
  rcases Nat.lt_or_ge z e with hmore | hless
  · rcases Nat.lt_or_ge d z with hbefore | hbehind
    · rw [show min d z + n1 = z by omega, show z + (d - z) + n2 = e by omega, show min d z = d by omega,
        show z + (d - z) = z by omega]
      exact merge_neighbours hbefore.le hmore.le hsorted
    · rw [show min d z + n1 = min d z by omega, slice_of_le le_rfl, List.nil_merge,
        show z + (d - z) + n2 = e by omega, show z + (d - z) = d by omega]
  · rw [show z + (d - z) + n2 = z + (d - z) by omega, slice_of_le (b := z + (d - z)) le_rfl, List.merge_right,
      show min d z + n1 = e by omega, show min d z = d by omega]

/-- **A tile of a group that is too large is copied.** -/
theorem agentMerge_large [IsStrictWeakOrder K fun a b => lt a b = true] (h : M.Large r) {input : List (K × V)}
    (hlen : input.length = M.keysCount) (hf : ∀ i < M.keysCount, input[i]? = some (f i))
    (hsorted : (slice f 0 M.keysCount).Pairwise fun a b => keyBelow lt b a = false) (old : OldContents K V)
    (htile : idx < M.numTiles) :
    M.agentMerge lt (fun i => input[i]?.map Prod.fst) (fun i => input[i]?.map Prod.snd) old idx =
      some ⟨(chunk M.itemsPerTile idx input).map Prod.fst, (chunk M.itemsPerTile idx input).map Prod.snd⟩ := by
  have hkeys : ∀ i < M.keysCount, input[i]?.map Prod.fst = some (f i).1 := fun i hi => by rw [hf i hi]; rfl
  have hitems : ∀ i < M.keysCount, input[i]?.map Prod.snd = some (f i).2 := fun i hi => by rw [hf i hi]; rfl
  have hbase := lt_numTiles.mp htile
  have hcount := h.keysCount_lt
  have hbeg := @largePartition_eq _ _ _ _ lt (fun i => input[i]?.map Prod.fst) _ _ _ h hkeys hsorted htile.le
  have hfin := @largePartition_eq _ _ _ _ lt (fun i => input[i]?.map Prod.fst) _ _ _ h hkeys hsorted
    (Nat.succ_le_of_lt htile)
  have hslices := largeSlices_eq h htile
  obtain ⟨d, hd⟩ : ∃ d, M.itemsPerTile * idx = d := ⟨_, rfl⟩
  obtain ⟨z, hz⟩ : ∃ z, M.cutSize r = z := ⟨_, rfl⟩
  obtain ⟨e, he⟩ : ∃ e, min (d + M.itemsPerTile) M.keysCount = e := ⟨_, rfl⟩
  have hchunk : chunk M.itemsPerTile idx input = slice f d e := by
    have hall := BlockMergeSortStrategy.chunk_eq_slice hf M.itemsPerTile idx
    rw [List.take_of_length_le hlen.le, hd, Nat.min_eq_right (by omega), Nat.min_comm, he] at hall
    exact hall
  have hcountTile : (M.itemsInTile idx).value = e - d := by
    unfold itemsInTile
    refine value_bind_eq (is_cutNat (n := d) (by rw [← hd, Nat.mul_comm, Int.natCast_mul]) (by omega)).1 ?_
    refine value_bind_eq (is_cutNat (n := M.keysCount - d) (by omega) (by omega)).1 ?_
    rw [value_pure]
    omega
  rw [hz, hd, he] at hslices
  have hbase' : d < M.keysCount := hd ▸ hbase
  have hle : d ≤ e := he ▸ le_min (Nat.le_add_right _ _) hbase'.le
  obtain ⟨n1, hn1⟩ : ∃ n, min e z - min d z = n := ⟨_, rfl⟩
  obtain ⟨n2, hn2⟩ : ∃ n, e - z - (d - z) = n := ⟨_, rfl⟩
  have hsortedOf : ∀ {b e'}, e' ≤ M.keysCount → (slice f b e').Pairwise fun a b => keyBelow lt b a = false :=
    fun hle => slice_pairwise.mpr fun i j hi hij hj =>
      slice_pairwise.mp hsorted i j (Nat.zero_le _) hij (by omega)
  obtain ⟨hboth, hfit, hmany, hfirst, hsecond⟩ := largeParts hbase' he hn1 hn2
  have hfull : decide (idx < M.numTiles - 1) = true → n1 + n2 = M.itemsPerTile := by
    intro hless
    have hnext := lt_numTiles.mp (Nat.add_lt_of_lt_sub (of_decide_eq_true hless))
    rw [Nat.mul_add_one, hd] at hnext
    exact hmany hnext.le
  have hend1 : ∀ i < n1, min d z + i < M.keysCount := fun i hi => (Nat.add_lt_add_left hi _).trans_le hfirst
  have hend2 : ∀ i < n2, z + (d - z) + i < M.keysCount := fun i hi =>
    hsecond.elim (fun hnone => absurd hi (hnone ▸ Nat.not_lt_zero i)) fun hle => (Nat.add_lt_add_left hi _).trans_le hle
  have hsorted2 : (slice f (z + (d - z)) (z + (d - z) + n2)).Pairwise fun a b => keyBelow lt b a = false := by
    rcases hsecond with hnone | hle
    · rw [hnone, Nat.add_zero, slice_of_le le_rfl]
      exact List.Pairwise.nil
    · exact hsortedOf hle
  have hconsume := @consumeTile_eq _ _ M f old n1 n2 (min d z) (z + (d - z)) lt _
    (fun i => input[i]?.map Prod.fst) (fun i => input[i]?.map Prod.snd)
    ⟨0, z, min d z, min e z, d - z, e - z, min e z - min d z, e - z - (d - z)⟩
    (decide (idx < M.numTiles - 1)) (e - d)
    hn1 hn2 hfit hfull hboth
    (fun i hi => by rw [Nat.zero_add]; exact hkeys (min d z + i) (hend1 i hi))
    (fun i hi => by rw [Nat.zero_add]; exact hkeys (z + (d - z) + i) (hend2 i hi))
    (fun i hi => by rw [Nat.zero_add]; exact hitems (min d z + i) (hend1 i hi))
    (fun i hi => by rw [Nat.zero_add]; exact hitems (z + (d - z) + i) (hend2 i hi))
    (hsortedOf hfirst) hsorted2
  have hmerge := merge_parts hle hn1 hn2 (hsortedOf (he ▸ Nat.min_le_right _ _))
  unfold agentMerge
  rw [hbeg, hfin]
  simp only [Option.bind_eq_bind, Option.bind_some]
  rw [hd, hz, hslices, hcountTile, hconsume, hmerge, hchunk]

end Tile

end MergePass

end Cccl.MergeSort
