/-
# A merge pass merges the runs

The slices of a tile lie between two cuts of the merge path of its group, so that their merge is what the merge of
the two runs has between the diagonals (`agentMerge_eq`).  The tiles one after the other are then the merges of
the groups one after the other (`mergePass_merges`).

This is so as long as the size of a run is a number of the offset type.  The sort itself asks for no larger runs,
since half of a group has fewer tiles than there are.  A group that is too large has runs of size zero, and the
tiles stay empty (`not_mergePass_offsets`).
-/
import Cccl.MergeSort.MergeLarge
import Mathlib

namespace Cccl.MergeSort

open Chunks StableSort Wrapped

variable {K V : Type}

namespace MergePass

/-! ## 1. Offsets -/

/-- The slices of a tile are slices of the array, and have as many keys as the tile has places. -/
structure TileSlices.Inside (M : MergePass) (tileIdx : ℕ) (s : TileSlices) : Prop where
  first : s.keys1Beg ≤ s.keys1End
  first_end : s.start + s.keys1End ≤ M.keysCount
  second : s.keys2Beg ≤ s.keys2End
  second_end : 0 < s.keys2End → s.start + s.size + s.keys2End ≤ M.keysCount
  numKeys1_eq : s.numKeys1 = s.keys1End - s.keys1Beg
  numKeys2_eq : s.numKeys2 = s.keys2End - s.keys2Beg
  numKeys_eq : s.numKeys1 + s.numKeys2 = min M.itemsPerTile (M.keysCount - M.itemsPerTile * tileIdx)

/-- The offsets of a pass are in order. -/
structure OffsetsInside (M : MergePass) (lt : K → K → Bool) (keys : ℕ → Option K) : Prop where
  partitions : ∀ idx, (M.partitionOffsets idx).value.keys1Beg ≤ (M.partitionOffsets idx).value.keys1End ∧
    (M.partitionOffsets idx).value.keys1End = (M.partitionOffsets idx).value.keys2Beg ∧
    (M.partitionOffsets idx).value.keys2Beg ≤ (M.partitionOffsets idx).value.keys2End ∧
    (M.partitionOffsets idx).value.keys2End ≤ M.keysCount
  tiles : ∀ tileIdx < M.numTiles, ∃ b e, (M.agentPartition lt keys tileIdx).value = some b ∧
    (M.agentPartition lt keys (tileIdx + 1)).value = some e ∧ (M.tileSlices tileIdx b e).value.Inside M tileIdx

/-- No offset that a tile uses has been cut. -/
structure OffsetsKept (M : MergePass) (lt : K → K → Bool) (keys : ℕ → Option K) : Prop where
  partitions : ∀ idx < M.numTiles, (M.agentPartition lt keys idx).kept = true
  last : M.numTiles % M.targetMergedTilesNumber ≠ 0 → (M.agentPartition lt keys M.numTiles).kept = true
  tiles : ∀ tileIdx < M.numTiles, ∃ b e, (M.agentPartition lt keys tileIdx).value = some b ∧
    (M.agentPartition lt keys (tileIdx + 1)).value = some e ∧ (M.tileSlices tileIdx b e).kept = true ∧
    (M.itemsInTile tileIdx).kept = true

section Pass

variable {M : MergePass} {r : ℕ} {lt : K → K → Bool} [IsStrictWeakOrder K fun a b => lt a b = true]
  {input : List (K × V)} {f : ℕ → K × V} {tileIdx : ℕ}

theorem tileEnd_sub (htile : tileIdx < M.numTiles) : M.tileEnd r tileIdx - M.groupDiag r tileIdx =
    min M.itemsPerTile (M.keysCount - M.itemsPerTile * tileIdx) := by
  have hsum := M.groupStart_add r tileIdx
  have hlast := M.groupDiag_le r tileIdx
  have hinside := lt_numTiles.mp htile
  rw [tileEnd, groupEnd]
  omega

theorem tileEnd_sub_diag : M.tileEnd r tileIdx - M.groupDiag r tileIdx =
    min (M.groupEnd r tileIdx - M.groupStart r tileIdx - M.groupDiag r tileIdx) M.itemsPerTile := by
  rw [tileEnd, ← Nat.sub_min_sub_right, Nat.add_sub_cancel_left]

theorem groupDiag_le_tileEnd (htile : tileIdx < M.numTiles) : M.groupDiag r tileIdx ≤ M.tileEnd r tileIdx := by
  have hinside := tile_inside (r := r) htile
  rw [tileEnd]
  omega

theorem tileEnd_sub_le : M.tileEnd r tileIdx - M.groupDiag r tileIdx ≤ M.itemsPerTile :=
  tileEnd_sub_diag.trans_le (Nat.min_le_right _ _)

theorem chunk_fst (hf : ∀ i < M.keysCount, input[i]? = some (f i)) (hlen : input.length = M.keysCount)
    (htile : tileIdx < M.numTiles) : chunk (M.runSize r) (2 * (tileIdx / 2 ^ (r + 1))) input =
      slice f (M.groupStart r tileIdx) (M.runEnd r tileIdx) := by
  have hinside := tile_inside (r := r) htile
  have hchunk := BlockMergeSortStrategy.chunk_eq_slice hf (M.runSize r) (2 * (tileIdx / 2 ^ (r + 1)))
  rw [List.take_of_length_le hlen.le] at hchunk
  have hstart : min M.keysCount (M.groupStart r tileIdx) = M.groupStart r tileIdx := by
    rw [groupEnd] at hinside
    omega
  rw [hchunk]
  change slice f (min M.keysCount (M.groupStart r tileIdx)) _ = _
  rw [hstart]
  rfl

theorem chunk_snd (hf : ∀ i < M.keysCount, input[i]? = some (f i)) (hlen : input.length = M.keysCount) :
    chunk (M.runSize r) (2 * (tileIdx / 2 ^ (r + 1)) + 1) input =
      slice f (M.runEnd r tileIdx) (M.groupEnd r tileIdx) := by
  have hchunk := BlockMergeSortStrategy.chunk_eq_slice hf (M.runSize r) (2 * (tileIdx / 2 ^ (r + 1)) + 1)
  rw [List.take_of_length_le hlen.le, Nat.mul_add_one] at hchunk
  exact hchunk

/-- The merge of the two runs of a group. -/
def mergedGroup (M : MergePass) (lt : K → K → Bool) (r : ℕ) (input : List (K × V)) (g : ℕ) : List (K × V) :=
  (chunk (M.runSize r) (2 * g) input).merge (chunk (M.runSize r) (2 * g + 1) input) (notAbove (keyBelow lt))

omit [IsStrictWeakOrder K fun a b => lt a b = true] in
theorem length_mergedGroup (hlen : input.length = M.keysCount) (g : ℕ) :
    (M.mergedGroup lt r input g).length = min (2 * M.runSize r) (M.keysCount - 2 * M.runSize r * g) := by
  have hstart : M.runSize r * (2 * g) = 2 * M.runSize r * g := by rw [← Nat.mul_assoc, Nat.mul_comm _ 2]
  rw [mergedGroup, List.length_merge, length_chunk, length_chunk, hlen, Nat.mul_add_one, hstart]
  omega

omit [IsStrictWeakOrder K fun a b => lt a b = true] in
/-- The runs of a group are one after the other, and there is a second one only if the first one is complete. -/
theorem runs_inside (htile : tileIdx < M.numTiles) :
    M.groupStart r tileIdx ≤ M.runEnd r tileIdx ∧ M.runEnd r tileIdx ≤ M.groupEnd r tileIdx ∧
      M.groupEnd r tileIdx ≤ M.keysCount ∧
      (M.runEnd r tileIdx < M.groupEnd r tileIdx → M.runEnd r tileIdx = M.groupStart r tileIdx + M.runSize r) := by
  have hinside := tile_inside (r := r) htile
  rw [runEnd]
  rw [groupEnd] at hinside ⊢
  rcases Nat.le_total M.keysCount (M.groupStart r tileIdx + M.runSize r) with hshort | hlong
  · rw [Nat.min_eq_left hshort, Nat.min_eq_left (by omega)]
    exact ⟨by omega, le_rfl, le_rfl, fun h => absurd h (lt_irrefl _)⟩
  · rw [Nat.min_eq_right hlong]
    exact ⟨by omega, by omega, Nat.min_le_left _ _, fun _ => rfl⟩

omit [IsStrictWeakOrder K fun a b => lt a b = true] in
theorem taken_parts {start run stop diag diag' p p' n1 n2 : ℕ} (hp : p ≤ p') (hq : diag - p ≤ diag' - p')
    (hle : p' ≤ run - start) (hdiag : p ≤ diag) (hdiag' : p' ≤ diag') (hrest : diag' ≤ p' + (stop - run))
    (hrun : start ≤ run) (hstop : run ≤ stop) (hn1 : p' - p = n1) (hn2 : diag' - p' - (diag - p) = n2) :
    diag' - diag = n1 + n2 ∧ start + p' = start + p + n1 ∧ run + (diag' - p') = run + (diag - p) + n2 ∧
      start + p + n1 ≤ run ∧ run + (diag - p) + n2 ≤ stop := by
  obtain ⟨q, rfl⟩ := Nat.exists_eq_add_of_le hdiag
  obtain ⟨q', rfl⟩ := Nat.exists_eq_add_of_le hdiag'
  obtain ⟨n, rfl⟩ := Nat.exists_eq_add_of_le hp
  obtain ⟨length1, rfl⟩ := Nat.exists_eq_add_of_le hrun
  obtain ⟨length2, rfl⟩ := Nat.exists_eq_add_of_le hstop
  simp only [Nat.add_sub_cancel_left] at hq hle hrest hn1 hn2 ⊢
  clear hdiag hdiag' hp hrun hstop
  omega

theorem slices_inside (h : M.Fits r) {keys : ℕ → Option K} (hkeys : ∀ i < M.keysCount, keys i = some (f i).1)
    (h1 : (slice f (M.groupStart r tileIdx) (M.runEnd r tileIdx)).Pairwise fun a b => keyBelow lt b a = false)
    (h2 : (slice f (M.runEnd r tileIdx) (M.groupEnd r tileIdx)).Pairwise fun a b => keyBelow lt b a = false)
    (htile : tileIdx < M.numTiles) : ∃ b e, (M.agentPartition lt keys tileIdx).value = some b ∧
      (M.agentPartition lt keys (tileIdx + 1)).value = some e ∧ (M.tileSlices tileIdx b e).kept = true ∧
      (M.tileSlices tileIdx b e).value.Inside M tileIdx := by
  obtain ⟨p, p', e, hpartition, he, hcut, hcut', hp, hq, hslices⟩ := tileSlices_is h hkeys h1 h2 htile
  refine ⟨_, e, hpartition.1, he, hslices.2, ?_⟩
  obtain ⟨hrun, hsecond, hend, hfull⟩ := runs_inside (r := r) htile
  have hcount := tileEnd_sub (r := r) htile
  have hle := hcut'.le_count
  have hdiag := hcut.le_diag
  have hdiag' := hcut'.le_diag
  have hrest := hcut'.rest_le
  obtain ⟨hboth, hend1, hend2, hin1, hin2⟩ := taken_parts hp hq hle hdiag hdiag' hrest hrun hsecond rfl rfl
  rw [hslices.1]
  refine ⟨hp, ?_, hq, ?_, rfl, rfl, ?_⟩
  · exact hend1.trans_le (hin1.trans (hsecond.trans hend))
  · intro hpos
    change 0 < M.tileEnd r tileIdx - p' at hpos
    change M.groupStart r tileIdx + M.runSize r + (M.tileEnd r tileIdx - p') ≤ M.keysCount
    rw [← hfull ((Nat.lt_add_of_pos_right hpos).trans_le (hend2.trans_le hin2))]
    exact (hend2.trans_le hin2).trans hend
  · rw [← hcount]
    exact hboth.symm

/-- **A tile stores what the merge of its group has at its places.** -/
theorem agentMerge_eq (h : M.Fits r) (hlen : input.length = M.keysCount)
    (hsorted : ∀ g, (chunk (M.runSize r) g input).Pairwise fun a b => keyBelow lt b a = false)
    (old : OldContents K V) (htile : tileIdx < M.numTiles) :
    M.agentMerge lt (fun i => input[i]?.map Prod.fst) (fun i => input[i]?.map Prod.snd) old tileIdx =
      some ⟨(chunk M.itemsPerTile (tileIdx % 2 ^ (r + 1))
          (M.mergedGroup lt r input (tileIdx / 2 ^ (r + 1)))).map Prod.fst,
        (chunk M.itemsPerTile (tileIdx % 2 ^ (r + 1))
          (M.mergedGroup lt r input (tileIdx / 2 ^ (r + 1)))).map Prod.snd⟩ := by
  obtain ⟨f, hf⟩ : ∃ f : ℕ → K × V, ∀ i < M.keysCount, input[i]? = some (f i) := by
    refine ⟨fun i => input[i]?.getD (old.keysShared, old.itemsShared), fun i hi => ?_⟩
    simp [List.getElem?_eq_getElem (show i < input.length by omega)]
  have hkeys : ∀ i < M.keysCount, input[i]?.map Prod.fst = some (f i).1 := fun i hi => by rw [hf i hi]; rfl
  have hitems : ∀ i < M.keysCount, input[i]?.map Prod.snd = some (f i).2 := fun i hi => by rw [hf i hi]; rfl
  have h1 := hsorted (2 * (tileIdx / 2 ^ (r + 1)))
  have h2 := hsorted (2 * (tileIdx / 2 ^ (r + 1)) + 1)
  rw [mergedGroup, chunk_fst hf hlen htile, chunk_snd hf hlen]
  rw [chunk_fst hf hlen htile] at h1
  rw [chunk_snd hf hlen] at h2
  obtain ⟨p, p', e, hpartition, he, hcut, hcut', hp, hq, hslices⟩ :=
    @tileSlices_is _ _ _ _ _ (fun i => input[i]?.map Prod.fst) _ _ _ h hkeys h1 h2 htile
  obtain ⟨hrun, hsecond, hend, hcomplete⟩ := runs_inside (r := r) htile
  have hle := hcut'.le_count
  have hdiag := hcut.le_diag
  have hdiag' := hcut'.le_diag
  have hrest := hcut'.rest_le
  have hle' : M.groupDiag r tileIdx ≤ M.tileEnd r tileIdx := groupDiag_le_tileEnd htile
  have hall : M.tileEnd r tileIdx ≤ M.groupEnd r tileIdx - M.groupStart r tileIdx := Nat.min_le_left _ _
  have hpart : M.tileEnd r tileIdx - M.groupDiag r tileIdx ≤ M.itemsPerTile := tileEnd_sub_le
  have hbetween := hcut.merge_between hcut' (by omega) (by omega) h1 h2 hle'
  obtain ⟨n1, hn1⟩ : ∃ n, p' - p = n := ⟨_, rfl⟩
  obtain ⟨n2, hn2⟩ : ∃ n, M.tileEnd r tileIdx - p' - (M.groupDiag r tileIdx - p) = n := ⟨_, rfl⟩
  obtain ⟨hboth, hend1, hend2, hin1, hin2⟩ := taken_parts hp hq hle hdiag hdiag' hrest hrun hsecond hn1 hn2
  have hsorted1 : (slice f (M.groupStart r tileIdx + p) (M.groupStart r tileIdx + p')).Pairwise
      fun a b => keyBelow lt b a = false :=
    slice_pairwise.mpr fun i j hi hij hj =>
      slice_pairwise.mp h1 i j ((Nat.le_add_right _ _).trans hi) hij (hj.trans_le (hend1.trans_le hin1))
  have hsorted2 : (slice f (M.runEnd r tileIdx + (M.groupDiag r tileIdx - p))
      (M.runEnd r tileIdx + (M.tileEnd r tileIdx - p'))).Pairwise fun a b => keyBelow lt b a = false :=
    slice_pairwise.mpr fun i j hi hij hj =>
      slice_pairwise.mp h2 i j ((Nat.le_add_right _ _).trans hi) hij (hj.trans_le (hend2.trans_le hin2))
  have hkey1 : ∀ i < n1, M.groupStart r tileIdx + p + i < M.keysCount := fun i hi =>
    (Nat.add_lt_add_left hi _).trans_le (hin1.trans (hsecond.trans hend))
  -- the second slice begins behind the first run, unless it is empty
  have hbegins : ∀ i < n2, M.groupStart r tileIdx + M.runSize r + (M.groupDiag r tileIdx - p) + i =
      M.runEnd r tileIdx + (M.groupDiag r tileIdx - p) + i ∧
      M.runEnd r tileIdx + (M.groupDiag r tileIdx - p) + i < M.keysCount := by
    intro i hi
    have hbefore := (Nat.add_lt_add_left hi (M.runEnd r tileIdx + (M.groupDiag r tileIdx - p))).trans_le hin2
    rw [← hcomplete ((Nat.le_add_right _ _).trans_lt ((Nat.le_add_right _ _).trans_lt hbefore))]
    exact ⟨rfl, hbefore.trans_le hend⟩
  have hfull : decide (tileIdx < M.numTiles - 1) = true → n1 + n2 = M.itemsPerTile := by
    intro hless
    have hnext := lt_numTiles.mp (Nat.add_lt_of_lt_sub (of_decide_eq_true hless))
    have hsub := tileEnd_sub (r := r) htile
    rw [Nat.mul_add_one] at hnext
    rwa [Nat.min_eq_left (Nat.le_sub_of_add_le (Nat.add_comm _ _ ▸ hnext.le)), hboth] at hsub
  have hconsume := @consumeTile_eq _ _ M f old n1 n2
    (M.groupStart r tileIdx + p) (M.runEnd r tileIdx + (M.groupDiag r tileIdx - p)) lt _
    (fun i => input[i]?.map Prod.fst) (fun i => input[i]?.map Prod.snd)
    ⟨M.groupStart r tileIdx, M.runSize r, p, p', M.groupDiag r tileIdx - p, M.tileEnd r tileIdx - p', p' - p,
      M.tileEnd r tileIdx - p' - (M.groupDiag r tileIdx - p)⟩
    (decide (tileIdx < M.numTiles - 1)) (M.tileEnd r tileIdx - M.groupDiag r tileIdx)
    hn1 hn2 (hboth ▸ hpart) hfull hboth (fun i hi => hkeys (M.groupStart r tileIdx + p + i) (hkey1 i hi))
    (fun i hi => by rw [(hbegins i hi).1]; exact hkeys _ (hbegins i hi).2)
    (fun i hi => hitems (M.groupStart r tileIdx + p + i) (hkey1 i hi))
    (fun i hi => by rw [(hbegins i hi).1]; exact hitems _ (hbegins i hi).2)
    (hend1 ▸ hsorted1) (hend2 ▸ hsorted2)
  have htake : ((((slice f (M.groupStart r tileIdx) (M.runEnd r tileIdx)).merge
      (slice f (M.runEnd r tileIdx) (M.groupEnd r tileIdx)) (notAbove (keyBelow lt))).drop
        (M.groupDiag r tileIdx)).take (M.tileEnd r tileIdx - M.groupDiag r tileIdx)) =
      chunk M.itemsPerTile (tileIdx % 2 ^ (r + 1)) ((slice f (M.groupStart r tileIdx) (M.runEnd r tileIdx)).merge
        (slice f (M.runEnd r tileIdx) (M.groupEnd r tileIdx)) (notAbove (keyBelow lt))) := by
    rw [chunk]
    refine List.take_eq_take_iff.mpr ?_
    rw [List.length_drop, List.length_merge, length_slice, length_slice]
    rw [tileEnd_sub_diag, Nat.add_comm, Nat.sub_add_sub_cancel hsecond hrun, Nat.min_right_comm, Nat.min_self, Nat.min_comm]
  unfold agentMerge
  rw [hpartition.1, he]
  simp only [Option.bind_eq_bind, Option.bind_some]
  rw [hslices.1, (itemsInTile_is h htile).1, hconsume, ← hend1, ← hend2, hbetween, htake]

/-! ## 2. The pass -/

omit [IsStrictWeakOrder K fun a b => lt a b = true] in
theorem mergePass_of_chunks {output : List (K × V)} (hlen : output.length = M.keysCount) {old : ℕ → OldContents K V}
    (htile : ∀ tileIdx < M.numTiles, M.agentMerge lt (fun i => input[i]?.map Prod.fst)
      (fun i => input[i]?.map Prod.snd) (old tileIdx) tileIdx =
        some ⟨(chunk M.itemsPerTile tileIdx output).map Prod.fst,
          (chunk M.itemsPerTile tileIdx output).map Prod.snd⟩) :
    ∃ tiles, M.mergePass lt input old = some tiles ∧ tiles.flatMap TileOutput.keys = output.map Prod.fst ∧
      tiles.flatMap TileOutput.items = output.map Prod.snd := by
  have henough : M.keysCount ≤ M.itemsPerTile * M.numTiles := by
    by_contra hless
    exact absurd (lt_numTiles.mpr (Nat.not_le.mp hless)) (lt_irrefl _)
  obtain ⟨tiles, htiles, hlenTiles, hstored⟩ := forThreads_spec (l := List.range M.numTiles)
    (f := fun tileIdx _ => M.agentMerge lt (fun i => input[i]?.map Prod.fst) (fun i => input[i]?.map Prod.snd)
      (old tileIdx) tileIdx)
    (X := fun tileIdx out => out = ⟨(chunk M.itemsPerTile tileIdx output).map Prod.fst,
      (chunk M.itemsPerTile tileIdx output).map Prod.snd⟩) (by
    intro tileIdx a ha
    have hidx : tileIdx < M.numTiles := by
      have := (List.getElem?_eq_some_iff.mp ha).1
      rwa [List.length_range] at this
    exact ⟨_, htile tileIdx hidx, rfl⟩)
  rw [List.length_range] at hlenTiles
  have hlist : tiles = (List.range M.numTiles).map fun tileIdx =>
      ⟨(chunk M.itemsPerTile tileIdx output).map Prod.fst, (chunk M.itemsPerTile tileIdx output).map Prod.snd⟩ := by
    refine List.ext_getElem (by rw [hlenTiles, List.length_map, List.length_range]) fun i hi hi' => ?_
    rw [hstored i _ (List.getElem?_eq_getElem hi), List.getElem_map, List.getElem_range]
  have hwhole : (List.range M.numTiles).flatMap (fun tileIdx => chunk M.itemsPerTile tileIdx output) = output := by
    rw [flatMap_chunk, List.take_of_length_le (by omega)]
  refine ⟨tiles, htiles, ?_, ?_⟩
  · rw [hlist, List.flatMap_map, ← List.map_flatMap, hwhole]
  · rw [hlist, List.flatMap_map, ← List.map_flatMap, hwhole]

/-- **The tiles are the merges of the groups**, one after the other. -/
theorem mergePass_spec (h : M.Fits r) (hlen : input.length = M.keysCount)
    (hsorted : ∀ g, (chunk (M.runSize r) g input).Pairwise fun a b => keyBelow lt b a = false)
    (old : ℕ → OldContents K V) : ∃ tiles output, M.mergePass lt input old = some tiles ∧
      output.length = input.length ∧ (∀ g, chunk (2 * M.runSize r) g output = M.mergedGroup lt r input g) ∧
      tiles.flatMap TileOutput.keys = output.map Prod.fst ∧
      tiles.flatMap TileOutput.items = output.map Prod.snd := by
  have hlenGroup := @length_mergedGroup _ _ M r lt _ hlen
  obtain ⟨hlenOutput, hchunks⟩ := chunk_flatMap hlenGroup M.numTiles
  obtain ⟨output, houtput⟩ : ∃ l, (List.range M.numTiles).flatMap (M.mergedGroup lt r input) = l := ⟨_, rfl⟩
  rw [houtput] at hlenOutput hchunks
  -- as many groups as there are tiles are enough
  have henough : M.keysCount ≤ M.itemsPerTile * M.numTiles := by
    by_contra hless
    exact absurd (lt_numTiles.mpr (Nat.not_le.mp hless)) (lt_irrefl _)
  have hgroups : M.itemsPerTile * M.numTiles ≤ 2 * M.runSize r * M.numTiles := by
    refine Nat.mul_le_mul_right _ ?_
    have := Nat.le_mul_of_pos_right M.itemsPerTile (Nat.two_pow_pos r)
    rw [runSize]
    omega
  have hall : ∀ g, chunk (2 * M.runSize r) g output = M.mergedGroup lt r input g := by
    intro g
    rcases Nat.lt_or_ge g M.numTiles with hlt | hge
    · exact hchunks g hlt
    · have hbehind := Nat.mul_le_mul_left (2 * M.runSize r) hge
      have hnil := hlenGroup g
      rw [List.eq_nil_of_length_eq_zero (l := M.mergedGroup lt r input g) (by omega)]
      refine List.eq_nil_of_length_eq_zero ?_
      rw [length_chunk]
      omega
  have hdouble : 2 * M.runSize r = M.itemsPerTile * 2 ^ (r + 1) := by
    rw [runSize, Nat.mul_left_comm, Nat.mul_comm 2, ← Nat.pow_succ]
  have htile : ∀ tileIdx, chunk M.itemsPerTile tileIdx output = chunk M.itemsPerTile (tileIdx % 2 ^ (r + 1))
      (M.mergedGroup lt r input (tileIdx / 2 ^ (r + 1))) := by
    intro tileIdx
    rw [← hall, hdouble, chunk_chunk _ _ (Nat.mod_lt _ (Nat.two_pow_pos _)), Nat.mul_comm, Nat.mul_comm (tileIdx / _),
      Nat.div_add_mod]
  obtain ⟨tiles, htiles, hkeys, hitems⟩ := @mergePass_of_chunks _ _ M lt input
    output (by omega) old fun tileIdx hidx => by
      rw [agentMerge_eq h hlen hsorted (old tileIdx) hidx, htile]
  exact ⟨tiles, output, htiles, by omega, hall, hkeys, hitems⟩

theorem mergePass_large (h : M.Large r) (hlen : input.length = M.keysCount)
    (hf : ∀ i < M.keysCount, input[i]? = some (f i))
    (hsorted : (slice f 0 M.keysCount).Pairwise fun a b => keyBelow lt b a = false)
    (old : ℕ → OldContents K V) : ∃ tiles output, M.mergePass lt input old = some tiles ∧
      output.length = input.length ∧ (∀ g, chunk (2 * M.runSize r) g output = M.mergedGroup lt r input g) ∧
      tiles.flatMap TileOutput.keys = output.map Prod.fst ∧
      tiles.flatMap TileOutput.items = output.map Prod.snd := by
  obtain ⟨tiles, htiles, hkeys, hitems⟩ := @mergePass_of_chunks _ _ _ lt _ _ hlen
    old fun tileIdx hidx => agentMerge_large h hlen hf hsorted (old tileIdx) hidx
  refine ⟨tiles, input, htiles, rfl, fun g => ?_, hkeys, hitems⟩
  have hsize : M.keysCount < M.runSize r := h.keysCount_lt.trans_le h.le_size
  have hnil : ∀ {z g}, M.keysCount ≤ z * g → chunk z g input = [] := by
    intro z g hle
    refine List.eq_nil_of_length_eq_zero ?_
    rw [length_chunk]
    omega
  have hwhole : ∀ {z}, M.keysCount ≤ z → chunk z 0 input = input := by
    intro z hle
    rw [chunk, Nat.mul_zero, List.drop_zero, List.take_of_length_le (by omega)]
  rw [mergedGroup]
  rcases Nat.eq_zero_or_pos g with rfl | hpos
  · rw [hwhole (by omega), Nat.mul_zero, hwhole hsize.le, hnil (by omega), List.merge_right]
  · have hle : M.runSize r ≤ M.runSize r * (2 * g) := Nat.le_mul_of_pos_right _ (by omega)
    have hle' : M.runSize r ≤ M.runSize r * (2 * g + 1) := Nat.le_mul_of_pos_right _ (by omega)
    have hle'' : 2 * M.runSize r ≤ 2 * M.runSize r * g := Nat.le_mul_of_pos_right _ hpos
    rw [hnil (by omega), hnil (by omega), hnil (by omega), List.nil_merge]

/-! ## 3. All offsets -/

omit [IsStrictWeakOrder K fun a b => lt a b = true] in
theorem runs_sorted (hf : ∀ i < M.keysCount, input[i]? = some (f i)) (hlen : input.length = M.keysCount)
    (hsorted : ∀ g, (chunk (M.runSize r) g input).Pairwise fun a b => keyBelow lt b a = false)
    (htile : tileIdx < M.numTiles) :
    ((slice f (M.groupStart r tileIdx) (M.runEnd r tileIdx)).Pairwise fun a b => keyBelow lt b a = false) ∧
      (slice f (M.runEnd r tileIdx) (M.groupEnd r tileIdx)).Pairwise fun a b => keyBelow lt b a = false := by
  have h1 := hsorted (2 * (tileIdx / 2 ^ (r + 1)))
  have h2 := hsorted (2 * (tileIdx / 2 ^ (r + 1)) + 1)
  rw [chunk_fst hf hlen htile] at h1
  rw [chunk_snd hf hlen] at h2
  exact ⟨h1, h2⟩

/-- **No offset is cut**, if the size of a run is a number of the offset type. -/
theorem offsetsKept (h : M.Fits r) (hf : ∀ i < M.keysCount, input[i]? = some (f i))
    (hlen : input.length = M.keysCount)
    (hsorted : ∀ g, (chunk (M.runSize r) g input).Pairwise fun a b => keyBelow lt b a = false) :
    M.OffsetsKept lt fun i => input[i]?.map Prod.fst := by
  have hkeys : ∀ i < M.keysCount, input[i]?.map Prod.fst = some (f i).1 := fun i hi => by rw [hf i hi]; rfl
  refine ⟨fun idx hidx => ?_, fun hlast => ?_, fun tileIdx htile => ?_⟩
  · obtain ⟨p, -, hp⟩ := @agentPartition_is _ _ _ _ lt (fun i => input[i]?.map Prod.fst) _ _ h hkeys hidx
    exact hp.2
  · -- the group of the last partition has a tile before it
    rw [h.target_eq] at hlast
    obtain ⟨last, hnum⟩ : ∃ k, M.numTiles = k + 1 := by
      refine Nat.exists_eq_succ_of_ne_zero fun hzero => hlast ?_
      rw [hzero, Nat.zero_mod]
    rw [hnum] at hlast
    have hinside := tile_inside (r := r) (show last < M.numTiles by omega)
    have hcount := h.keysCount_lt
    have hmod : last % 2 ^ (r + 1) ≠ 2 ^ (r + 1) - 1 := by
      intro hfull
      have hnext : last + 1 = 2 ^ (r + 1) * (last / 2 ^ (r + 1) + 1) := by
        calc last + 1 = 2 ^ (r + 1) * (last / 2 ^ (r + 1)) + (2 ^ (r + 1) - 1) + 1 := by
              rw [← hfull, Nat.div_add_mod]
          _ = _ := by rw [Nat.add_assoc, Nat.sub_add_cancel (Nat.two_pow_pos _), ← Nat.mul_add_one]
      rw [hnext, Nat.mul_mod_right] at hlast
      exact hlast rfl
    refine (agentPartition_last h ?_).2
    rw [hnum, groupStart, (group_succ (Nat.two_pow_pos (r + 1)) hmod).1]
    exact ((Nat.le_add_right _ _).trans_lt hinside).trans_le ((Nat.min_le_left _ _).trans hcount.le)
  · obtain ⟨h1, h2⟩ := runs_sorted hf hlen hsorted htile
    obtain ⟨b, e, hb, he, hkept, -⟩ := @slices_inside _ _ _ _ _ _ _ _ h (fun i => input[i]?.map Prod.fst) hkeys h1 h2 htile
    exact ⟨b, e, hb, he, hkept, (itemsInTile_is h htile).2⟩

theorem large_inside (h : M.Large r) {keys : ℕ → Option K} (hkeys : ∀ i < M.keysCount, keys i = some (f i).1)
    (hsorted : (slice f 0 M.keysCount).Pairwise fun a b => keyBelow lt b a = false)
    (htile : tileIdx < M.numTiles) : ∃ b e, (M.agentPartition lt keys tileIdx).value = some b ∧
      (M.agentPartition lt keys (tileIdx + 1)).value = some e ∧
      (M.tileSlices tileIdx b e).value.Inside M tileIdx := by
  have hbase := lt_numTiles.mp htile
  refine ⟨_, _, largePartition_eq h hkeys hsorted htile.le,
    largePartition_eq h hkeys hsorted (Nat.succ_le_of_lt htile), ?_⟩
  rw [largeSlices_eq h htile]
  refine ⟨?_, ?_, ?_, ?_, rfl, rfl, ?_⟩
  all_goals dsimp only; omega

end Pass

/-! ## 4. The result -/

/-- **A merge pass.**  For every number of keys, shape of a block and group of two, four, eight or more tiles, and
every array with sorted runs, the tiles one after the other are the stable merges of each pair of neighbouring
runs, all offsets are in order, and the slices of a tile have as many keys as the tile has places.  No offset that a
tile uses has been cut, as long as the size of a run is a number of the offset type. -/
theorem mergePass_merges (lt : K → K → Bool) [IsStrictWeakOrder K fun a b => lt a b = true] (M : MergePass) (r : ℕ)
    (htarget : M.targetMergedTilesNumber = 2 ^ (r + 1)) (htarget_lt : 2 ^ (r + 1) < 2 ^ M.offsetBits)
    (hcount : M.keysCount < 2 ^ M.offsetBits) (input : List (K × V)) (hlen : input.length = M.keysCount)
    (hsorted : ∀ g, (chunk (M.runSize r) g input).Pairwise fun a b => keyBelow lt b a = false)
    (old : ℕ → OldContents K V) :
    (∃ tiles output, M.mergePass lt input old = some tiles ∧ output.length = input.length ∧
      (∀ g, chunk (2 * M.runSize r) g output = (chunk (M.runSize r) (2 * g) input).merge
        (chunk (M.runSize r) (2 * g + 1) input) (notAbove (keyBelow lt))) ∧
      tiles.flatMap TileOutput.keys = output.map Prod.fst ∧
      tiles.flatMap TileOutput.items = output.map Prod.snd) ∧
    M.OffsetsInside lt (fun i => input[i]?.map Prod.fst) ∧
    (M.itemsPerTile * 2 ^ r < 2 ^ M.offsetBits → M.OffsetsKept lt fun i => input[i]?.map Prod.fst) := by
  obtain ⟨f, hf⟩ : ∃ f : ℕ → K × V, ∀ i < M.keysCount, input[i]? = some (f i) := by
    refine ⟨fun i => input[i]?.getD ((old 0).keysShared, (old 0).itemsShared), fun i hi => ?_⟩
    simp [List.getElem?_eq_getElem (show i < input.length by omega)]
  have hkeys : ∀ i < M.keysCount, input[i]?.map Prod.fst = some (f i).1 := fun i hi => by rw [hf i hi]; rfl
  rcases Nat.lt_or_ge (M.itemsPerTile * 2 ^ r) (2 ^ M.offsetBits) with hsize | hsize
  · have h : M.Fits r := ⟨htarget, htarget_lt, hcount, hsize⟩
    refine ⟨mergePass_spec h hlen hsorted old, ⟨partitionOffsets_ordered hcount, fun tileIdx htile => ?_⟩,
      fun _ => offsetsKept h hf hlen hsorted⟩
    obtain ⟨h1, h2⟩ := runs_sorted hf hlen hsorted htile
    obtain ⟨b, e, hb, he, -, hinside⟩ :=
      @slices_inside _ _ _ _ _ _ _ _ h (fun i => input[i]?.map Prod.fst) hkeys h1 h2 htile
    exact ⟨b, e, hb, he, hinside⟩
  · have h : M.Large r := ⟨htarget, htarget_lt, hcount, hsize⟩
    -- all keys are in the first run
    have hall : (slice f 0 M.keysCount).Pairwise fun a b => keyBelow lt b a = false := by
      have hrun := hsorted 0
      have hwhole := BlockMergeSortStrategy.chunk_eq_slice hf (M.runSize r) 0
      rw [List.take_of_length_le hlen.le, Nat.mul_zero, Nat.min_zero, Nat.zero_add,
        Nat.min_eq_left (show M.keysCount ≤ M.runSize r from hcount.le.trans hsize)] at hwhole
      rwa [hwhole] at hrun
    exact ⟨mergePass_large h hlen hf hall old,
      ⟨partitionOffsets_ordered hcount, fun tileIdx htile => large_inside h hkeys hall htile⟩,
      fun hless => absurd hless (Nat.not_lt.mpr hsize)⟩

/-- Five keys in tiles of two. -/
def fiveKeys : MergePass := ⟨32, 1, 2, 5, 2, Nat.one_pos, Nat.two_pos, by decide, by decide⟩

/-- The runs `3 5`, `1 4` and `2` are merged; the last one has no neighbour. -/
theorem mergePass_merges_five : ∃ tiles output, fiveKeys.mergePass (fun a b : ℕ => decide (a < b))
      [(3, 'a'), (5, 'b'), (1, 'c'), (4, 'd'), (2, 'e')] (fun _ => ⟨fun _ _ => 0, fun _ _ => 'x', 0, 'x'⟩) = some tiles ∧
    output.length = 5 ∧ (∀ g, chunk (2 * fiveKeys.runSize 0) g output =
      (chunk (fiveKeys.runSize 0) (2 * g) [(3, 'a'), (5, 'b'), (1, 'c'), (4, 'd'), (2, 'e')]).merge
        (chunk (fiveKeys.runSize 0) (2 * g + 1) [(3, 'a'), (5, 'b'), (1, 'c'), (4, 'd'), (2, 'e')])
        (notAbove (keyBelow fun a b : ℕ => decide (a < b)))) ∧
    tiles.flatMap TileOutput.keys = output.map Prod.fst ∧ tiles.flatMap TileOutput.items = output.map Prod.snd :=
  (mergePass_merges (fun a b : ℕ => decide (a < b)) fiveKeys 0 rfl (by decide) (by decide)
    [(3, 'a'), (5, 'b'), (1, 'c'), (4, 'd'), (2, 'e')] rfl
    (fun g => match g with
      | 0 | 1 | 2 => by decide
      | g + 3 => by
        have hnil : chunk (fiveKeys.runSize 0) (g + 3) [(3, 'a'), (5, 'b'), (1, 'c'), (4, 'd'), (2, 'e')] = [] := by
          refine List.eq_nil_of_length_eq_zero ?_
          have hsize : fiveKeys.runSize 0 = 2 := rfl
          rw [length_chunk, hsize]
          simp only [List.length_cons, List.length_nil]
          omega
        rw [hnil]
        exact List.Pairwise.nil)
    (fun _ => ⟨fun _ _ => 0, fun _ _ => 'x', 0, 'x'⟩)).1

/-- As many keys as there are numbers of 32 bits, and tiles of 2048 keys. -/
def mostKeys : MergePass := ⟨32, 32, 64, 2 ^ 32 - 1, 2, by decide, by decide, by decide, by decide⟩

/-- The partition behind the last tile begins at a number that has been cut. -/
theorem not_mergePass_kept : ¬∀ idx ≤ mostKeys.numTiles, (mostKeys.partitionOffsets idx).kept = true := by
  intro h
  have hlast := h mostKeys.numTiles le_rfl
  have hnum : mostKeys.numTiles = 2097152 := by decide
  have hmask : (cutNat mostKeys.offsetBits ((mostKeys.targetMergedTilesNumber : ℤ) - 1)).value = 2 ^ 1 - 1 := by decide
  rw [hnum, partitionOffsets, kept_bind, hmask] at hlast
  obtain ⟨-, hlast⟩ := hlast
  simp only [BlockMergeSortStrategy.ldiff_mask] at hlast
  rw [kept_bind] at hlast
  have hstart := hlast.1
  revert hstart
  decide

end MergePass

end Cccl.MergeSort
