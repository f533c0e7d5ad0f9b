/-
# The partitions of a merge pass

The offsets of `AgentPartition` are those of the two runs of the group, cut at the number of keys
(`partitionOffsets_is`), and its search finds a cut of the merge path (`agentPartition_is`).  The slices of a tile
lie between two cuts (`tileSlices_is`), and so they have as many keys as the tile has places.

Nothing is cut to the offset type on the way, as no offset of a tile is above the number of keys and the bounds
are added with `safe_add_bound_to_max`.  The partition behind the last tile is an exception: when the last group is
full, the start of the group after it need not be a number of the offset type.  Its value is not used then.
-/
import Cccl.MergeSort.MergeAgents

namespace Cccl.MergeSort

open Wrapped

variable {K V : Type}

namespace MergePass

variable {M : MergePass} {r : ℕ}

/-! ## 1. Groups of tiles -/

/-- The number of tiles in a group is a power of two, and the number of keys and the size of a run are numbers of
the offset type. -/
structure Fits (M : MergePass) (r : ℕ) : Prop where
  target_eq : M.targetMergedTilesNumber = 2 ^ (r + 1)
  target_lt : 2 ^ (r + 1) < 2 ^ M.offsetBits
  keysCount_lt : M.keysCount < 2 ^ M.offsetBits
  size_lt : M.itemsPerTile * 2 ^ r < 2 ^ M.offsetBits

/-- The keys of a run. -/
def runSize (M : MergePass) (r : ℕ) : ℕ := M.itemsPerTile * 2 ^ r

/-- Where the group of a tile begins. -/
def groupStart (M : MergePass) (r tileIdx : ℕ) : ℕ := M.runSize r * (2 * (tileIdx / 2 ^ (r + 1)))

/-- How far the tile is from there. -/
def groupDiag (M : MergePass) (r tileIdx : ℕ) : ℕ := M.itemsPerTile * (tileIdx % 2 ^ (r + 1))

theorem itemsPerTile_pos (M : MergePass) : 0 < M.itemsPerTile :=
  Nat.mul_pos M.threadsPerBlock_pos M.itemsPerThread_pos

theorem itemsPerTile_lt_two_pow (M : MergePass) : M.itemsPerTile < 2 ^ M.offsetBits := by
  calc M.itemsPerTile < 2 ^ 31 := M.itemsPerTile_lt
    _ ≤ 2 ^ M.offsetBits := Nat.pow_le_pow_right (by decide) (by have := M.offsetBits_ge; omega)

theorem groupStart_eq (M : MergePass) (r tileIdx : ℕ) :
    M.itemsPerTile * (tileIdx / 2 ^ (r + 1) * 2 ^ (r + 1)) = M.groupStart r tileIdx :=
  BlockMergeSortStrategy.group_start _ _ _

theorem groupStart_add (M : MergePass) (r tileIdx : ℕ) :
    M.groupStart r tileIdx + M.groupDiag r tileIdx = M.itemsPerTile * tileIdx := by
  rw [← groupStart_eq, groupDiag, ← Nat.mul_add, Nat.div_add_mod']

theorem groupDiag_le (M : MergePass) (r tileIdx : ℕ) :
    M.groupDiag r tileIdx + M.itemsPerTile ≤ 2 * M.runSize r := by
  have hlt := Nat.mod_lt tileIdx (Nat.two_pow_pos (r + 1))
  rw [groupDiag, runSize, ← Nat.mul_add_one, Nat.mul_left_comm, Nat.mul_comm 2, ← Nat.pow_succ]
  exact Nat.mul_le_mul_left _ hlt

theorem lt_numTiles {tileIdx : ℕ} : tileIdx < M.numTiles ↔ M.itemsPerTile * tileIdx < M.keysCount := by
  have hpos := M.itemsPerTile_pos
  rw [numTiles, Nat.lt_div_iff_mul_lt hpos, Nat.mul_comm]
  omega

/-- Two neighbouring tiles are in one group, unless the first one is the last of its group. -/
theorem group_succ {group tileIdx : ℕ} (hpos : 0 < group) (h : tileIdx % group ≠ group - 1) :
    (tileIdx + 1) / group = tileIdx / group ∧ (tileIdx + 1) % group = tileIdx % group + 1 := by
  have hlt : tileIdx % group + 1 < group := by
    have := Nat.mod_lt tileIdx hpos
    omega
  have hsplit := Nat.div_add_mod tileIdx group
  have hnext : tileIdx + 1 = group * (tileIdx / group) + (tileIdx % group + 1) := by omega
  constructor
  · calc (tileIdx + 1) / group = (group * (tileIdx / group) + (tileIdx % group + 1)) / group := by rw [← hnext]
      _ = tileIdx / group := by rw [Nat.mul_add_div hpos, Nat.div_eq_of_lt hlt, Nat.add_zero]
  · calc (tileIdx + 1) % group = (group * (tileIdx / group) + (tileIdx % group + 1)) % group := by rw [← hnext]
      _ = tileIdx % group + 1 := by rw [Nat.mul_add_mod, Nat.mod_eq_of_lt hlt]

/-! ## 2. The runs of a group -/

theorem safeAddBoundToMax_is {lhs rhs : ℕ} (hlhs : lhs < 2 ^ M.offsetBits) :
    (M.safeAddBoundToMax lhs rhs).Is (min (lhs + rhs) (2 ^ M.offsetBits - 1)) := by
  have hroom : ((2 : ℤ) ^ M.offsetBits - 1 - lhs) = (2 ^ M.offsetBits - 1 - lhs : ℕ) := by
    have hcast : ((2 ^ M.offsetBits : ℕ) : ℤ) = 2 ^ M.offsetBits := Nat.cast_pow 2 _
    omega
  unfold safeAddBoundToMax
  refine (is_cutNat hroom (by omega)).bind (is_cutNat ?_ (by omega))
  omega

/-- **The two runs of the group**, as far as there are keys. -/
theorem partitionOffsets_is (h : M.Fits r) {idx : ℕ} (hstart : M.groupStart r idx < 2 ^ M.offsetBits) :
    (M.partitionOffsets idx).Is ⟨min M.keysCount (M.groupStart r idx),
      min M.keysCount (M.groupStart r idx + M.runSize r), min M.keysCount (M.groupStart r idx + M.runSize r),
      min M.keysCount (M.groupStart r idx + M.runSize r + M.runSize r), idx % 2 ^ (r + 1)⟩ := by
  have hcount := h.keysCount_lt
  have hhalf : M.targetMergedTilesNumber / 2 = 2 ^ r := by
    rw [h.target_eq, Nat.pow_succ, Nat.mul_div_cancel _ (by decide)]
  have hpos := Nat.two_pow_pos (r + 1)
  have hmask : ((M.targetMergedTilesNumber : ℤ) - 1) = (2 ^ (r + 1) - 1 : ℕ) := by
    rw [h.target_eq]
    omega
  unfold partitionOffsets
  refine (is_cutNat hmask ((Nat.sub_le _ _).trans_lt h.target_lt)).bind ?_
  simp only [hhalf, BlockMergeSortStrategy.ldiff_mask, BlockMergeSortStrategy.mask_and]
  refine (is_cutNat (n := M.groupStart r idx) ?_ hstart).bind ?_
  · rw [← groupStart_eq]
    exact (Int.natCast_mul _ _).symm
  refine (is_cutNat (n := M.runSize r) (Int.natCast_mul _ _).symm h.size_lt).bind ?_
  refine (safeAddBoundToMax_is hstart).bind ((safeAddBoundToMax_is ?_).bind (Is.pure_eq ?_))
  · omega
  · simp only [PartitionOffsets.mk.injEq, true_and, and_true]
    omega

/-- The offsets of a partition are in order, also where the start has been cut. -/
theorem partitionOffsets_ordered (hcount : M.keysCount < 2 ^ M.offsetBits) (idx : ℕ) :
    (M.partitionOffsets idx).value.keys1Beg ≤ (M.partitionOffsets idx).value.keys1End ∧
      (M.partitionOffsets idx).value.keys1End = (M.partitionOffsets idx).value.keys2Beg ∧
      (M.partitionOffsets idx).value.keys2Beg ≤ (M.partitionOffsets idx).value.keys2End ∧
      (M.partitionOffsets idx).value.keys2End ≤ M.keysCount := by
  have hadd : ∀ {lhs rhs}, lhs < 2 ^ M.offsetBits →
      (M.safeAddBoundToMax lhs rhs).value = min (lhs + rhs) (2 ^ M.offsetBits - 1) :=
    fun hlhs => (safeAddBoundToMax_is hlhs).1
  unfold partitionOffsets
  simp only [value_bind, value_pure]
  have hlt := cutNat_lt M.offsetBits
  generalize (cutNat M.offsetBits (M.itemsPerTile * (M.targetMergedTilesNumber / 2 : ℕ))).value = size
  generalize hstart : (cutNat M.offsetBits (M.itemsPerTile * _)).value = start
  have hless : start < 2 ^ M.offsetBits := hstart ▸ hlt _
  rw [hadd hless, hadd (by omega)]
  refine ⟨?_, trivial, ?_, ?_⟩
  · omega
  · omega
  · omega

/-! ## 3. The partitions -/

/-- Where the first run of the group ends. -/
def runEnd (M : MergePass) (r tileIdx : ℕ) : ℕ := min M.keysCount (M.groupStart r tileIdx + M.runSize r)

/-- Where the group ends. -/
def groupEnd (M : MergePass) (r tileIdx : ℕ) : ℕ :=
  min M.keysCount (M.groupStart r tileIdx + M.runSize r + M.runSize r)

/-- A cut of the merge path of the group, with `p` keys of the first run before it. -/
def GroupCut (M : MergePass) (lt : K → K → Bool) (f : ℕ → K × V) (r tileIdx diag p : ℕ) : Prop :=
  IsCut lt (fun i => (f (M.groupStart r tileIdx + i)).1) (fun i => (f (M.runEnd r tileIdx + i)).1)
    (M.runEnd r tileIdx - M.groupStart r tileIdx) (M.groupEnd r tileIdx - M.runEnd r tileIdx) diag p

theorem secondRun_le (M : MergePass) (r tileIdx : ℕ) :
    M.groupEnd r tileIdx - M.runEnd r tileIdx ≤ M.keysCount - M.groupStart r tileIdx - M.runSize r := by
  rw [groupEnd, runEnd]
  omega

theorem numTiles_le (M : MergePass) : M.numTiles ≤ M.keysCount := by
  by_contra hmore
  have hlt := lt_numTiles.mp (Nat.not_le.mp hmore)
  have hle := Nat.le_mul_of_pos_left M.keysCount M.itemsPerTile_pos
  omega

section Tile

variable {lt : K → K → Bool} {keys : ℕ → Option K} {f : ℕ → K × V} {tileIdx : ℕ}

theorem tile_inside (htile : tileIdx < M.numTiles) :
    M.groupStart r tileIdx + M.groupDiag r tileIdx < M.groupEnd r tileIdx := by
  have hbase := lt_numTiles.mp htile
  have hsum := M.groupStart_add r tileIdx
  have hlast := M.groupDiag_le r tileIdx
  have hpos := M.itemsPerTile_pos
  rw [groupEnd]
  omega

/-- **A partition is a cut of the merge path** of its group. -/
theorem agentPartition_is (h : M.Fits r) (hkeys : ∀ i < M.keysCount, keys i = some (f i).1)
    (htile : tileIdx < M.numTiles) : ∃ p, M.GroupCut lt f r tileIdx (M.groupDiag r tileIdx) p ∧
      (M.agentPartition lt keys tileIdx).Is (some (M.groupStart r tileIdx + p)) := by
  have hcount := h.keysCount_lt
  have hinside := tile_inside (r := r) htile
  have hnum := M.numTiles_le
  have hlast : ¬(tileIdx + 1) % 2 ^ M.offsetBits = (M.numTiles + 1) % 2 ^ M.offsetBits := by
    rw [Nat.mod_eq_of_lt (by omega)]
    rcases Nat.lt_or_ge (M.numTiles + 1) (2 ^ M.offsetBits) with hfits | hwraps
    · rw [Nat.mod_eq_of_lt hfits]
      omega
    · rw [show M.numTiles + 1 = 2 ^ M.offsetBits by omega, Nat.mod_self]
      omega
  have hstart : M.groupStart r tileIdx < M.keysCount := by
    rw [groupEnd] at hinside
    omega
  have hend : M.groupEnd r tileIdx ≤ M.keysCount := Nat.min_le_left _ _
  have hrun : M.groupStart r tileIdx ≤ M.runEnd r tileIdx ∧ M.runEnd r tileIdx ≤ M.groupEnd r tileIdx := by
    rw [runEnd, groupEnd]
    omega
  obtain ⟨p, hpath, hcut⟩ := @mergePath_spec _ lt
    (fun i => keys (M.groupStart r tileIdx + i)) (fun i => keys (M.runEnd r tileIdx + i))
    (fun i => (f (M.groupStart r tileIdx + i)).1) (fun i => (f (M.runEnd r tileIdx + i)).1)
    (M.runEnd r tileIdx - M.groupStart r tileIdx) (M.groupEnd r tileIdx - M.runEnd r tileIdx)
    (M.groupDiag r tileIdx)
    (fun i hi => hkeys _ (by omega)) (fun i hi => hkeys _ (by omega)) (by omega)
  refine ⟨p, hcut, ?_⟩
  unfold agentPartition
  refine (partitionOffsets_is h (hstart.trans hcount)).bind ?_
  rw [if_neg hlast]
  unfold partitionDiag
  simp only [Nat.min_eq_right hstart.le]
  refine (is_cutNat (n := M.groupEnd r tileIdx - M.groupStart r tileIdx) ?_ (by omega)).bind ?_
  · change ((M.groupEnd r tileIdx : ℕ) : ℤ) - _ = _
    omega
  refine (is_cutNat (n := M.groupDiag r tileIdx) (Int.natCast_mul _ _).symm (by omega)).bind ?_
  refine (is_cutNat (n := M.runEnd r tileIdx - M.groupStart r tileIdx) ?_ (by omega)).bind ?_
  · change ((M.runEnd r tileIdx : ℕ) : ℤ) - _ = _
    omega
  refine (is_cutNat (n := M.groupEnd r tileIdx - M.runEnd r tileIdx) ?_ (by omega)).bind ?_
  · change ((M.groupEnd r tileIdx : ℕ) : ℤ) - (M.runEnd r tileIdx : ℕ) = _
    omega
  rw [Nat.min_eq_right (show M.groupDiag r tileIdx ≤ M.groupEnd r tileIdx - M.groupStart r tileIdx by omega)]
  rw [show min M.keysCount (M.groupStart r tileIdx + M.runSize r) = M.runEnd r tileIdx from rfl, hpath]
  have hle := hcut.le_count
  exact (is_cutNat (Int.natCast_add _ _).symm (by omega)).bind Is.pure

/-- The partition behind the last tile is the end of the first run. -/
theorem agentPartition_last (h : M.Fits r) (hstart : M.groupStart r M.numTiles < 2 ^ M.offsetBits) :
    (M.agentPartition lt keys M.numTiles).Is (some (M.runEnd r M.numTiles)) := by
  unfold agentPartition
  refine (partitionOffsets_is h hstart).bind ?_
  rw [if_pos rfl]
  exact Is.pure

/-- The partition behind the last tile exists, whatever has been cut. -/
theorem agentPartition_last_value (h : M.Fits r) :
    ∃ p ≤ M.keysCount, (M.agentPartition lt keys M.numTiles).value = some p := by
  obtain ⟨-, hsame, hle, hcount⟩ := partitionOffsets_ordered h.keysCount_lt M.numTiles
  refine ⟨_, (hsame.le.trans hle).trans hcount, ?_⟩
  unfold agentPartition
  rw [value_bind, if_pos rfl, value_pure]

/-! ## 4. The slices -/

/-- How far the end of the tile is from the beginning of its group. -/
def tileEnd (M : MergePass) (r tileIdx : ℕ) : ℕ :=
  min (M.groupEnd r tileIdx - M.groupStart r tileIdx) (M.groupDiag r tileIdx + M.itemsPerTile)

theorem groupCut_end (htile : tileIdx < M.numTiles) : M.GroupCut lt f r tileIdx
    (M.groupEnd r tileIdx - M.groupStart r tileIdx) (M.runEnd r tileIdx - M.groupStart r tileIdx) := by
  have hinside := tile_inside (r := r) htile
  have hrun : M.groupStart r tileIdx ≤ M.runEnd r tileIdx ∧ M.runEnd r tileIdx ≤ M.groupEnd r tileIdx := by
    rw [groupEnd] at hinside
    rw [runEnd, groupEnd]
    omega
  exact ⟨le_rfl, by omega, by omega, fun _ hlt => by omega, fun hlt => by omega⟩

theorem exists_partition (h : M.Fits r) (hkeys : ∀ i < M.keysCount, keys i = some (f i).1)
    (htile : tileIdx < M.numTiles) : ∃ e, (M.agentPartition lt keys (tileIdx + 1)).value = some e := by
  rcases Nat.lt_or_ge (tileIdx + 1) M.numTiles with hnext | hlast
  · obtain ⟨p, -, hp⟩ := agentPartition_is h hkeys hnext
    exact ⟨_, hp.1⟩
  · obtain ⟨e, -, he⟩ := @agentPartition_last_value _ _ _ lt keys h
    exact ⟨e, by rwa [show tileIdx + 1 = M.numTiles by omega]⟩

/-- What is left of the second run behind a cut, when the end of the tile is bounded by the offset type. -/
theorem rest_of_slice {n s z d i B p t ge re : ℕ} (hge : ge = min n (s + z + z)) (hre : re = min n (s + z))
    (ht : t = min (ge - s) (d + i)) (hn : n < B) (hz : d + i ≤ 2 * z) (hle : p ≤ re - s)
    (hrest : t ≤ p + (ge - re)) : min (n - s - z) (min (d + i) (B - 1) - p) = t - p := by
  rcases Nat.le_total n (s + z) with hshort | hlong
  · rw [Nat.min_eq_left hshort] at hre
    rw [Nat.min_eq_left (by omega)] at hge
    have hzero : n - s - z = 0 := by omega
    rw [hzero, Nat.zero_min]
    omega
  · rw [Nat.min_eq_right hlong] at hre
    rcases Nat.le_total (ge - s) (d + i) with hall | hpart
    · rw [Nat.min_eq_left hall] at ht
      rcases Nat.le_total n (s + z + z) with hn' | hn'
      · rw [Nat.min_eq_left hn'] at hge
        rw [Nat.min_eq_left (by omega)]
        omega
      · rw [Nat.min_eq_right hn'] at hge
        rw [Nat.min_eq_left (show d + i ≤ B - 1 by omega), Nat.min_eq_right (by omega)]
        omega
    · rw [Nat.min_eq_right hpart] at ht
      have hgen : ge ≤ n := hge ▸ Nat.min_le_left _ _
      rw [Nat.min_eq_left (show d + i ≤ B - 1 by omega), Nat.min_eq_right (by omega)]
      omega

theorem min_sub_start (n s z : ℕ) : min (n - s) z = min n (s + z) - s ∧
    min (n - s - z) z = min n (s + z + z) - s - (min n (s + z) - s) := by omega

/-- **The slices end at the next cut**, which is the end of both runs for the last tile of a group. -/
theorem sliceEnds_is (h : M.Fits r) (hkeys : ∀ i < M.keysCount, keys i = some (f i).1)
    (htile : tileIdx < M.numTiles) {e : ℕ} (he : (M.agentPartition lt keys (tileIdx + 1)).value = some e) :
    ∃ p', M.GroupCut lt f r tileIdx (M.tileEnd r tileIdx) p' ∧
      (M.sliceEnds tileIdx (2 ^ (r + 1) - 1) (M.groupStart r tileIdx) (M.runSize r) (M.groupDiag r tileIdx)
        (M.keysCount - M.groupStart r tileIdx - M.runSize r) e).Is (p', M.tileEnd r tileIdx - p') := by
  have hcount := h.keysCount_lt
  have hinside := tile_inside (r := r) htile
  have hlast := M.groupDiag_le r tileIdx
  have hend : M.groupEnd r tileIdx ≤ M.keysCount := Nat.min_le_left _ _
  have hstart_le : M.groupStart r tileIdx ≤ M.keysCount := by omega
  have hsize : M.groupEnd r tileIdx - M.groupStart r tileIdx ≤ 2 * M.runSize r := by
    refine Nat.sub_le_iff_le_add.mpr ((Nat.min_le_right _ _).trans ?_)
    rw [Nat.add_assoc, ← Nat.two_mul, Nat.add_comm]
  have htotal := @groupCut_end _ _ _ r lt f _ htile
  unfold sliceEnds
  rw [BlockMergeSortStrategy.mask_and]
  split
  next hmask =>
    -- the last tile of its group
    have hfull : M.groupDiag r tileIdx + M.itemsPerTile = 2 * M.runSize r := by
      have hpow := Nat.two_pow_pos (r + 1)
      rw [groupDiag, ← hmask, runSize, ← Nat.mul_add_one, Nat.sub_add_cancel hpow, Nat.pow_succ, Nat.mul_comm 2,
        Nat.mul_assoc]
    have htileEnd : M.tileEnd r tileIdx = M.groupEnd r tileIdx - M.groupStart r tileIdx :=
      Nat.min_eq_left (hfull ▸ hsize)
    rw [htileEnd]
    obtain ⟨hfirst, hsecond⟩ := min_sub_start M.keysCount (M.groupStart r tileIdx) (M.runSize r)
    exact ⟨_, htotal, (is_cutNat_sub hstart_le hcount).bind (Is.pure_eq (Prod.ext hfirst hsecond))⟩
  next hmask =>
    obtain ⟨hdiv, hmod⟩ := group_succ (Nat.two_pow_pos (r + 1)) fun hsame => hmask hsame.symm
    have hstart : M.groupStart r (tileIdx + 1) = M.groupStart r tileIdx := by rw [groupStart, hdiv, groupStart]
    have hdiag : M.groupDiag r (tileIdx + 1) = M.groupDiag r tileIdx + M.itemsPerTile := by
      rw [groupDiag, hmod, Nat.mul_add_one, groupDiag]
    have hrunEnd : M.runEnd r (tileIdx + 1) = M.runEnd r tileIdx := by rw [runEnd, hstart, runEnd]
    have hgroupEnd : M.groupEnd r (tileIdx + 1) = M.groupEnd r tileIdx := by rw [groupEnd, hstart, groupEnd]
    have hbound := @safeAddBoundToMax_is M (M.groupDiag r tileIdx) M.itemsPerTile (by omega)
    -- in both cases the partition is that of a cut
    obtain ⟨p', hcut, rfl⟩ : ∃ p', M.GroupCut lt f r tileIdx (M.tileEnd r tileIdx) p' ∧
        e = M.groupStart r tileIdx + p' := by
      rcases Nat.lt_or_ge (tileIdx + 1) M.numTiles with hnext | hlastTile
      · obtain ⟨p', hcut, hp'⟩ := @agentPartition_is _ _ _ _ lt _ _ _ h hkeys hnext
        have hinside' := tile_inside (r := r) hnext
        rw [hstart, hdiag, hgroupEnd] at hinside'
        rw [GroupCut, hstart, hdiag, hrunEnd, hgroupEnd] at hcut
        have htileEnd : M.tileEnd r tileIdx = M.groupDiag r tileIdx + M.itemsPerTile :=
          Nat.min_eq_right (by omega)
        refine ⟨p', by rwa [GroupCut, htileEnd], ?_⟩
        rw [hp'.1, hstart] at he
        exact (Option.some.inj he).symm
      · have hnum : M.numTiles = tileIdx + 1 := by omega
        have hlastCut := @agentPartition_last _ _ _ lt keys h (by rw [hnum, hstart]; omega)
        rw [hnum, hrunEnd] at hlastCut
        rw [hlastCut.1] at he
        have hall : ¬M.itemsPerTile * (tileIdx + 1) < M.keysCount := fun hlt => by
          have := lt_numTiles.mpr hlt
          omega
        have hsum := M.groupStart_add r (tileIdx + 1)
        rw [hstart, hdiag] at hsum
        have htileEnd : M.tileEnd r tileIdx = M.groupEnd r tileIdx - M.groupStart r tileIdx :=
          Nat.min_eq_left (by omega)
        rw [htileEnd]
        refine ⟨_, htotal, ?_⟩
        have hstart_run : M.groupStart r tileIdx ≤ M.runEnd r tileIdx := le_min hstart_le (Nat.le_add_right _ _)
        rw [← Option.some.inj he, Nat.add_sub_cancel' hstart_run]
    have hle := hcut.le_count
    have hrest := hcut.rest_le
    have hroom : min (M.groupDiag r tileIdx + M.itemsPerTile) (2 ^ M.offsetBits - 1) < 2 ^ M.offsetBits :=
      (Nat.min_le_right _ _).trans_lt (Nat.sub_lt (Nat.two_pow_pos _) Nat.one_pos)
    have hcut_le : p' ≤ M.tileEnd r tileIdx := hcut.le_diag
    have hall : M.tileEnd r tileIdx ≤ M.groupEnd r tileIdx - M.groupStart r tileIdx := Nat.min_le_left _ _
    have hfits : p' ≤ min (M.groupDiag r tileIdx + M.itemsPerTile) (2 ^ M.offsetBits - 1) :=
      le_min (hcut_le.trans (Nat.min_le_right _ _)) (by omega)
    refine ⟨p', hcut, (is_cutNat (n := p') ?_ (by omega)).bind
      (hbound.bind ((is_cutNat_sub hfits hroom).bind (Is.pure_eq (Prod.ext rfl ?_))))⟩
    · rw [Int.natCast_add, add_sub_cancel_left]
    · exact rest_of_slice rfl rfl rfl hcount hlast hle hrest

theorem numKeys_is {beg fin : ℕ} (hle : beg ≤ fin) (hlen : fin - beg ≤ M.itemsPerTile) :
    (M.numKeys beg fin).Is (fin - beg) := by
  have hint : M.itemsPerTile < 2 ^ 31 := M.itemsPerTile_lt
  have hlt := M.itemsPerTile_lt_two_pow
  unfold numKeys
  exact (is_cutNat (n := fin - beg) (Int.natCast_sub hle).symm (by omega)).bind (is_cutNat rfl (by omega))

theorem itemsInTile_is (h : M.Fits r) (htile : tileIdx < M.numTiles) :
    (M.itemsInTile tileIdx).Is (M.tileEnd r tileIdx - M.groupDiag r tileIdx) := by
  have hcount := h.keysCount_lt
  have hbase := lt_numTiles.mp htile
  have hsum := M.groupStart_add r tileIdx
  have hlast := M.groupDiag_le r tileIdx
  unfold itemsInTile
  refine (is_cutNat (n := M.itemsPerTile * tileIdx) ?_ (by omega)).bind
    ((is_cutNat (n := M.keysCount - M.itemsPerTile * tileIdx) (by omega) (by omega)).bind (Is.pure_eq ?_))
  · rw [Nat.mul_comm, Int.natCast_mul]
  · rw [tileEnd, groupEnd]
    omega

/-- **The slices of a tile** lie between two cuts of the merge path of its group. -/
theorem tileSlices_is [IsStrictWeakOrder K fun a b => lt a b = true] (h : M.Fits r)
    (hkeys : ∀ i < M.keysCount, keys i = some (f i).1)
    (h1 : (slice f (M.groupStart r tileIdx) (M.runEnd r tileIdx)).Pairwise fun a b => keyBelow lt b a = false)
    (h2 : (slice f (M.runEnd r tileIdx) (M.groupEnd r tileIdx)).Pairwise fun a b => keyBelow lt b a = false)
    (htile : tileIdx < M.numTiles) : ∃ p p' e, (M.agentPartition lt keys tileIdx).Is (some (M.groupStart r tileIdx + p)) ∧
      (M.agentPartition lt keys (tileIdx + 1)).value = some e ∧
      M.GroupCut lt f r tileIdx (M.groupDiag r tileIdx) p ∧ M.GroupCut lt f r tileIdx (M.tileEnd r tileIdx) p' ∧
      p ≤ p' ∧ M.groupDiag r tileIdx - p ≤ M.tileEnd r tileIdx - p' ∧
      (M.tileSlices tileIdx (M.groupStart r tileIdx + p) e).Is
        ⟨M.groupStart r tileIdx, M.runSize r, p, p', M.groupDiag r tileIdx - p, M.tileEnd r tileIdx - p',
          p' - p, M.tileEnd r tileIdx - p' - (M.groupDiag r tileIdx - p)⟩ := by
  have hcount := h.keysCount_lt
  have hinside := tile_inside (r := r) htile
  have hend : M.groupEnd r tileIdx ≤ M.keysCount := Nat.min_le_left _ _
  have hsecond := M.secondRun_le r tileIdx
  have hall : M.tileEnd r tileIdx ≤ M.groupEnd r tileIdx - M.groupStart r tileIdx := Nat.min_le_left _ _
  have hpart : M.tileEnd r tileIdx ≤ M.groupDiag r tileIdx + M.itemsPerTile := Nat.min_le_right _ _
  have hbefore : M.groupDiag r tileIdx ≤ M.tileEnd r tileIdx := le_min (by omega) (Nat.le_add_right _ _)
  have hsum := M.groupStart_add r tileIdx
  have hpos := M.itemsPerTile_pos
  obtain ⟨p, hcut, hpartition⟩ := @agentPartition_is _ _ _ _ lt _ _ _ h hkeys htile
  obtain ⟨e, he⟩ := @exists_partition _ _ _ _ lt _ _ _ h hkeys htile
  obtain ⟨p', hcut', hends⟩ := sliceEnds_is h hkeys htile he
  obtain ⟨hp, hq⟩ := hcut.le_of_le hcut' h1 h2 hbefore
  refine ⟨p, p', e, hpartition, he, hcut, hcut', hp, hq, ?_⟩
  have hle := hcut.le_count
  have hdiag := hcut.le_diag
  have hrest := hcut.rest_le
  have hdiag' := hcut'.le_diag
  have hhalf : M.targetMergedTilesNumber / 2 = 2 ^ r := by
    rw [h.target_eq, Nat.pow_succ, Nat.mul_div_cancel _ (by decide)]
  have hpow := Nat.two_pow_pos (r + 1)
  have hmask : ((M.targetMergedTilesNumber : ℤ) - 1) = (2 ^ (r + 1) - 1 : ℕ) := by
    rw [h.target_eq]
    omega
  unfold tileSlices
  refine (is_cutNat hmask ((Nat.sub_le _ _).trans_lt h.target_lt)).bind ?_
  simp only [hhalf, BlockMergeSortStrategy.ldiff_mask]
  refine (is_cutNat (n := M.groupStart r tileIdx) ?_ (by omega)).bind ?_
  · rw [← groupStart_eq]
    exact (Int.natCast_mul _ _).symm
  refine (is_cutNat (n := M.runSize r) (Int.natCast_mul _ _).symm h.size_lt).bind ?_
  refine (is_cutNat (n := M.itemsPerTile * tileIdx) (Int.natCast_mul _ _).symm (by omega)).bind ?_
  refine (is_cutNat (n := M.groupDiag r tileIdx) ?_ (by omega)).bind ?_
  · rw [← hsum, Int.natCast_add, add_sub_cancel_left]
  refine (is_cutNat (n := p) ?_ (by omega)).bind ?_
  · rw [Int.natCast_add, add_sub_cancel_left]
  refine (is_cutNat_sub (by omega) hcount).bind ?_
  refine Is.bind (a := M.keysCount - M.groupStart r tileIdx - M.runSize r) ?_ ?_
  · unfold maxKeys2
    split
    next hless => exact is_cutNat_sub hless.le ((Nat.sub_le _ _).trans_lt hcount)
    next hless => exact Is.pure_eq (Nat.sub_eq_zero_of_le (Nat.not_lt.mp hless)).symm
  refine (is_cutNat_sub hdiag (by omega)).bind ?_
  rw [Nat.min_eq_right (show M.groupDiag r tileIdx - p ≤ M.keysCount - M.groupStart r tileIdx - M.runSize r by omega)]
  refine hends.bind ((numKeys_is hp (by omega)).bind ((numKeys_is hq (by omega)).bind Is.pure))

end Tile

end MergePass

end Cccl.MergeSort
