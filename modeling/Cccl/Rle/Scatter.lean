/-
# What a tile writes

The scans of threads, warps and the tile are one scan: before an item of the tile they find the fold of all
items before it (`found`).  Each start of a run writes what was found there, directly or through the exchange
memory (`scatter_eq`).

If offsets and lengths are exchanged one after the other, and ranks are padded, then the second exchange pads
the padded ranks again: the item that is discarded is stored behind the end of the memory, and the tile has no
result (`scatter_crowded`).
-/
import Cccl.Rle.Runs

namespace Cccl.Rle

open Segments Exchange Block Scan

/-! ## 1. Outputs -/

namespace Output

/-- An output that has offsets and lengths only. -/
def ofWrites (offsets lengths : List (ℕ × Option ℕ)) : Output := ⟨offsets, lengths, none, none, none⟩

theorem ofWrites_andThen (a b a' b' : List (ℕ × Option ℕ)) :
    (ofWrites a b).andThen (ofWrites a' b') = ofWrites (a ++ a') (b ++ b') := rfl

theorem inOrder_eq {f : ℕ → Option Output} {a b : ℕ → List (ℕ × Option ℕ)} : ∀ {n},
    (∀ i < n, f i = some (ofWrites (a i) (b i))) →
    inOrder f n = some (ofWrites ((List.range n).flatMap a) ((List.range n).flatMap b))
  | 0, _ => rfl
  | n + 1, h => by
    rw [inOrder, inOrder_eq fun i hi => h i (Nat.lt_succ_of_lt hi), Option.bind_some, h n (Nat.lt_succ_self n),
      Option.map_some, ofWrites_andThen, List.range_succ, List.flatMap_append, List.flatMap_append,
      List.flatMap_singleton, List.flatMap_singleton]

theorem inOrder_eq_none {f : ℕ → Option Output} {i : ℕ} (hi : f i = none) : ∀ {n}, i < n →
    inOrder f n = none
  | n + 1, hlt => by
    rw [inOrder]
    rcases Nat.lt_succ_iff_lt_or_eq.mp hlt with hlt | rfl
    · rw [inOrder_eq_none hi hlt]
      rfl
    · rw [hi]
      cases inOrder f i <;> rfl

end Output

namespace Agent

variable {T : Type*} {A : Agent T} {I : Invocation T} {tileIdx warpId i : ℕ}

theorem tileItems_eq : A.tileItems = A.warps * A.warpItems := by
  rw [tileItems, blockThreads, warpItems, Block.warpItems, Nat.mul_comm warpThreads, Nat.mul_assoc]

theorem warpItems_pos : 0 < A.warpItems := Nat.mul_pos (by decide) A.itemsPerThread_pos

theorem tileItems_pos : 0 < A.tileItems := by
  rw [tileItems_eq]
  exact Nat.mul_pos A.warps_pos warpItems_pos

/-! ## 2. The scan -/

/-- What is before the tile. -/
def tileExclusive (A : Agent T) (I : Invocation T) (tileIdx : ℕ) : LengthOffsetPair :=
  if tileIdx = 0 then identity else A.tileExclusiveInGlobal I tileIdx

/-- What is before an item of the tile. -/
def found (A : Agent T) (I : Invocation T) (tileIdx i : ℕ) : LengthOffsetPair :=
  foldFrom scanOp (A.tileExclusive I tileIdx) (A.lengthsAndNumRuns I tileIdx) 0 i

/-- What is before an item, in its warp. -/
def foundInWarp (A : Agent T) (I : Invocation T) (tileIdx warpId i : ℕ) : LengthOffsetPair :=
  foldFrom scanOp identity (A.lengthsAndNumRuns I tileIdx) (warpId * A.warpItems) i

theorem threadAggregate_eq (tileIdx tid : ℕ) : A.threadAggregate I tileIdx tid =
    foldFrom scanOp identity (A.lengthsAndNumRuns I tileIdx) (tid * A.itemsPerThread) A.itemsPerThread := by
  rw [threadAggregate, fold1_eq_foldFrom scanOp_identity_left, Nat.sub_add_cancel A.itemsPerThread_pos]

theorem foldFrom_threadAggregate (tileIdx warpId lanes : ℕ) :
    foldFrom scanOp identity (A.threadAggregate I tileIdx) (warpId * warpThreads) lanes =
      A.foundInWarp I tileIdx warpId (lanes * A.itemsPerThread) := by
  rw [foldFrom_congr (g := fun tid => foldFrom scanOp identity (A.lengthsAndNumRuns I tileIdx)
      (tid * A.itemsPerThread) A.itemsPerThread) fun k _ => threadAggregate_eq tileIdx _,
    foldFrom_pieces scanOp_assoc scanOp_identity_right, foundInWarp, warpItems, Block.warpItems, Nat.mul_assoc]

theorem warpAggregate_eq (tileIdx warpId : ℕ) :
    A.warpAggregate I tileIdx warpId = A.foundInWarp I tileIdx warpId A.warpItems :=
  foldFrom_threadAggregate tileIdx warpId warpThreads

theorem fold1_warpAggregate (tileIdx n : ℕ) : fold1 scanOp (A.warpAggregate I tileIdx) 0 n =
    foldFrom scanOp identity (A.lengthsAndNumRuns I tileIdx) 0 ((n + 1) * A.warpItems) := by
  rw [fold1_eq_foldFrom scanOp_identity_left,
    foldFrom_congr (g := fun w => foldFrom scanOp identity (A.lengthsAndNumRuns I tileIdx)
      (w * A.warpItems) A.warpItems) fun k _ => warpAggregate_eq tileIdx _,
    foldFrom_pieces scanOp_assoc scanOp_identity_right, Nat.zero_mul]

theorem warpExclusiveInTile_eq (tileIdx warpId : ℕ) : A.warpExclusiveInTile I tileIdx warpId =
    foldFrom scanOp identity (A.lengthsAndNumRuns I tileIdx) 0 (warpId * A.warpItems) := by
  unfold warpExclusiveInTile
  split
  · rename_i h
    rw [h, Nat.zero_mul]
    rfl
  · rename_i h
    rw [fold1_warpAggregate, Nat.sub_add_cancel (Nat.pos_of_ne_zero h)]

theorem tileAggregate_eq (tileIdx : ℕ) : A.tileAggregate I tileIdx =
    foldFrom scanOp identity (A.lengthsAndNumRuns I tileIdx) 0 A.tileItems := by
  rw [tileAggregate, fold1_warpAggregate, Nat.sub_add_cancel A.warps_pos, tileItems_eq]

theorem scanOp_tileExclusive (tileIdx : ℕ) (a : LengthOffsetPair) : scanOp (A.tileExclusive I tileIdx) a =
    if tileIdx = 0 then a else scanOp (A.tileExclusiveInGlobal I tileIdx) a := by
  unfold tileExclusive
  split
  · exact scanOp_identity_left a
  · rfl

theorem warpExclusive_eq (tileIdx warpId : ℕ) :
    A.warpExclusive I tileIdx warpId = A.found I tileIdx (warpId * A.warpItems) := by
  rw [found, ← op_foldFrom scanOp_assoc scanOp_identity_right, scanOp_tileExclusive, ← warpExclusiveInTile_eq]
  rfl

theorem runningTotal_eq (tileIdx : ℕ) : A.runningTotal I tileIdx = A.found I tileIdx A.tileItems := by
  rw [found, ← op_foldFrom scanOp_assoc scanOp_identity_right, scanOp_tileExclusive, ← tileAggregate_eq]
  rfl

theorem found_succ (tileIdx i : ℕ) : A.found I tileIdx (i + 1) =
    scanOp (A.found I tileIdx i) (A.lengthsAndNumRuns I tileIdx i) := by
  rw [found, foldFrom_succ, Nat.zero_add]
  rfl

theorem found_next (tileIdx : ℕ) : A.found I (tileIdx + 1) 0 = A.found I tileIdx A.tileItems := by
  have hexclusive : ∀ t, A.tileExclusive I (t + 1) = (A.launch I).inclusivePrefix t := fun t => rfl
  have hstart : ∀ t, (A.launch I).inclusivePrefix t = A.found I t A.tileItems := by
    intro t
    rw [found, ← op_foldFrom scanOp_assoc scanOp_identity_right, ← tileAggregate_eq]
    cases t with
    | zero => exact (scanOp_identity_left _).symm
    | succ t =>
      rw [hexclusive, Launch.inclusivePrefix, fold1_succ, Nat.zero_add]
      rfl
  rw [← hstart, ← hexclusive]
  rfl

theorem found_warp (tileIdx warpId i : ℕ) : A.found I tileIdx (warpId * A.warpItems + i) =
    scanOp (A.found I tileIdx (warpId * A.warpItems)) (A.foundInWarp I tileIdx warpId i) := by
  rw [found, foldFrom_add, Nat.zero_add, foundInWarp, op_foldFrom scanOp_assoc scanOp_identity_right]
  rfl

/-- A scan with the counts of a warp, and the lengths of the whole input. -/
theorem foldFrom_mixed (x : LengthOffsetPair) (f : ℕ → LengthOffsetPair) (a : LengthOffsetPair) (lo : ℕ) :
    ∀ n, foldFrom scanOp (a.1, (scanOp x a).2) f lo n =
      ((foldFrom scanOp a f lo n).1, (scanOp x (foldFrom scanOp a f lo n)).2)
  | 0 => rfl
  | n + 1 => by
    rw [foldFrom_succ, foldFrom_succ, foldFrom_mixed x f a lo n, ← scanOp_assoc]
    rfl

/-- **The scans of threads, warps and the tile are one scan.** -/
theorem lengthsAndNumRuns2_eq (tileIdx warpId i : ℕ) : A.lengthsAndNumRuns2 I tileIdx warpId i =
    ((A.foundInWarp I tileIdx warpId i).1, (A.found I tileIdx (A.itemInTile warpId i)).2) := by
  have hthread : A.threadExclusive I tileIdx warpId (i / A.itemsPerThread) =
      ((A.threadExclusiveInWarp I tileIdx warpId (i / A.itemsPerThread)).1,
        (scanOp (A.warpExclusive I tileIdx warpId)
          (A.threadExclusiveInWarp I tileIdx warpId (i / A.itemsPerThread))).2) := by
    unfold threadExclusive
    generalize A.threadExclusiveInWarp I tileIdx warpId (i / A.itemsPerThread) = e
    dsimp only
    split
    · rename_i h
      simp [scanOp, segmentedOp, h, Nat.add_comm]
    · rename_i h
      simp [scanOp, segmentedOp, h]
  have hstart : (warpId * warpThreads + i / A.itemsPerThread) * A.itemsPerThread =
      warpId * A.warpItems + i / A.itemsPerThread * A.itemsPerThread := by
    rw [Nat.add_mul, warpItems, Block.warpItems, Nat.mul_assoc]
  have hitem : i / A.itemsPerThread * A.itemsPerThread + i % A.itemsPerThread = i := by
    rw [Nat.mul_comm]
    exact Nat.div_add_mod i A.itemsPerThread
  have hwarp : foldFrom scanOp (A.threadExclusiveInWarp I tileIdx warpId (i / A.itemsPerThread))
      (A.lengthsAndNumRuns I tileIdx) ((warpId * warpThreads + i / A.itemsPerThread) * A.itemsPerThread)
      (i % A.itemsPerThread) = A.foundInWarp I tileIdx warpId i := by
    rw [threadExclusiveInWarp, foldFrom_threadAggregate, hstart, foundInWarp, ← foldFrom_add, hitem]
    rfl
  rw [lengthsAndNumRuns2, hthread, foldFrom_mixed, hwarp, warpExclusive_eq, itemInTile, found_warp]

/-! ## 3. What the items write -/

/-- Whether a run of more than one item starts at an item of the tile. -/
def isStart (A : Agent T) (I : Invocation T) (tileIdx i : ℕ) : Bool :=
  A.headFlags I tileIdx i && !A.tailFlags I tileIdx i

/-- The offset that an item writes. -/
def itemOffset (A : Agent T) (I : Invocation T) (tileIdx i : ℕ) : List (ℕ × Option ℕ) :=
  if A.isStart I tileIdx i then
    [(numUniques I + (A.found I tileIdx i).1, some (baseOffset I + (A.tileOffset tileIdx + i)))]
  else []

/-- The length that an item writes. -/
def itemLength (A : Agent T) (I : Invocation T) (tileIdx i : ℕ) : List (ℕ × Option ℕ) :=
  if A.isStart I tileIdx i then
    if 0 < numUniques I + (A.found I tileIdx i).1 then
      [(numUniques I + (A.found I tileIdx i).1 - 1, some (A.found I tileIdx i).2)]
    else []
  else []

theorem lengthsAndNumRuns_fst (tileIdx i : ℕ) :
    (A.lengthsAndNumRuns I tileIdx i).1 = (A.isStart I tileIdx i).toNat := by
  unfold lengthsAndNumRuns
  rcases I.context with _ | c
  · rfl
  · dsimp only
    split <;> rfl

theorem foldFrom_scanOp_fst (a : LengthOffsetPair) (tileIdx lo : ℕ) : ∀ n,
    (foldFrom scanOp a (A.lengthsAndNumRuns I tileIdx) lo n).1 =
      a.1 + (List.range n).countP fun i => A.isStart I tileIdx (lo + i)
  | 0 => rfl
  | n + 1 => by
    rw [foldFrom_succ, List.range_succ, List.countP_append]
    change (foldFrom scanOp a (A.lengthsAndNumRuns I tileIdx) lo n).1 +
      (A.lengthsAndNumRuns I tileIdx (lo + n)).1 = _
    rw [foldFrom_scanOp_fst a tileIdx lo n, lengthsAndNumRuns_fst]
    cases h : A.isStart I tileIdx (lo + n) <;> simp [h, Nat.add_assoc]

theorem tileAggregate_fst (tileIdx : ℕ) :
    (A.tileAggregate I tileIdx).1 = (List.range A.tileItems).countP (A.isStart I tileIdx) := by
  rw [tileAggregate_eq, foldFrom_scanOp_fst]
  simp only [Nat.zero_add]
  exact Nat.zero_add _

/-- The starts in a warp. -/
def isStartInWarp (A : Agent T) (I : Invocation T) (tileIdx warpId i : ℕ) : Bool :=
  A.isStart I tileIdx (A.itemInTile warpId i)

theorem foundInWarp_fst (tileIdx warpId i : ℕ) : (A.foundInWarp I tileIdx warpId i).1 =
    (List.range i).countP (A.isStartInWarp I tileIdx warpId) := by
  rw [foundInWarp, foldFrom_scanOp_fst]
  exact Nat.zero_add _

/-- The place of an item in the output, of its tile and in its warp. -/
theorem warpOffset_add (tileIdx warpId i : ℕ) :
    A.warpOffset I tileIdx warpId + (List.range i).countP (A.isStartInWarp I tileIdx warpId) =
      (A.found I tileIdx (A.itemInTile warpId i)).1 := by
  have hexclusive : A.tileNumRunsExclusive I tileIdx = (A.tileExclusive I tileIdx).1 := by
    unfold tileNumRunsExclusive tileExclusive
    split <;> rfl
  have hstart : A.found I tileIdx (warpId * A.warpItems) = scanOp (A.tileExclusive I tileIdx)
      (foldFrom scanOp identity (A.lengthsAndNumRuns I tileIdx) 0 (warpId * A.warpItems)) :=
    (op_foldFrom scanOp_assoc scanOp_identity_right _ _ _ _).symm
  rw [itemInTile, found_warp, ← foundInWarp_fst, warpOffset, hexclusive, warpExclusiveInTile_eq, hstart]
  rfl

theorem rank_of_start (h : A.isStartInWarp I tileIdx warpId i = true) :
    A.numRunsExclusiveInWarp I tileIdx warpId i =
      (List.range i).countP (A.isStartInWarp I tileIdx warpId) := by
  rw [isStartInWarp] at h
  rw [numRunsExclusiveInWarp, lengthsAndNumRuns_fst, h, if_pos (by decide), lengthsAndNumRuns2_eq,
    foundInWarp_fst]

theorem rank_of_not (h : A.isStartInWarp I tileIdx warpId i = false) :
    A.numRunsExclusiveInWarp I tileIdx warpId i = A.warpItems := by
  rw [isStartInWarp] at h
  rw [numRunsExclusiveInWarp, lengthsAndNumRuns_fst, h, if_neg (by decide)]

theorem countP_le_warpItems {n : ℕ} (p : ℕ → Bool) : (List.range n).countP p ≤ n :=
  List.countP_le_length.trans (Nat.le_of_eq List.length_range)

theorem rank_le (hi : i < A.warpItems) : A.numRunsExclusiveInWarp I tileIdx warpId i ≤ A.warpItems := by
  cases h : A.isStartInWarp I tileIdx warpId i with
  | true => exact (rank_of_start h).trans_le ((countP_le_warpItems _).trans hi.le)
  | false => exact (rank_of_not h).le

/-- The place of a start among the starts of its warp, in the output. -/
theorem writeRun_eq (tileIdx warpId : ℕ) (notFirst : Bool) (place : ℕ) (offset : ℕ) (length : ℕ)
    (hnotFirst : notFirst = true → 0 < place) :
    writeRun I notFirst (A.warpOffset I tileIdx warpId + place) (some (offset, length)) = Output.ofWrites
      [(numUniques I + (A.warpOffset I tileIdx warpId + place), some (baseOffset I + offset))]
      (if 0 < numUniques I + (A.warpOffset I tileIdx warpId + place) then
        [(numUniques I + (A.warpOffset I tileIdx warpId + place) - 1, some length)]
      else []) := by
  have hiff : (notFirst = true ∨ 0 < numUniques I + (A.warpOffset I tileIdx warpId + place)) ↔
      0 < numUniques I + (A.warpOffset I tileIdx warpId + place) :=
    ⟨fun h => h.elim (fun h => by have := hnotFirst h; omega) id, Or.inr⟩
  unfold writeRun
  simp only [hiff]
  rfl

/-- **`ScatterDirect` writes what the items write.** -/
theorem scatterDirect_eq (tileIdx warpId : ℕ) : A.scatterDirect I tileIdx warpId = some (Output.ofWrites
    ((List.range A.warpItems).flatMap fun i => A.itemOffset I tileIdx (A.itemInTile warpId i))
    ((List.range A.warpItems).flatMap fun i => A.itemLength I tileIdx (A.itemInTile warpId i))) := by
  refine Output.inOrder_eq fun i hi => ?_
  rw [warpAggregate_eq, foundInWarp_fst]
  cases h : A.isStartInWarp I tileIdx warpId i with
  | true =>
    have hlt := countP_range_lt hi h
    rw [rank_of_start h]
    dsimp only
    rw [if_pos hlt, lengthsAndOffsets, lengthsAndNumRuns2_eq,
      writeRun_eq tileIdx warpId false _ _ _ (by simp), warpOffset_add, itemOffset, itemLength]
    rw [isStartInWarp] at h
    rw [h, if_pos rfl, if_pos rfl]
  | false =>
    have hle := countP_le_warpItems (n := A.warpItems) (A.isStartInWarp I tileIdx warpId)
    rw [rank_of_not h]
    dsimp only
    rw [if_neg (Nat.not_lt.mpr hle), itemOffset, itemLength]
    rw [isStartInWarp] at h
    rw [h]
    rfl

/-- **The second phase writes what the items write**, if the lanes have got for the places what the starts have
there. -/
theorem scatterCompacted_eq (tileIdx warpId : ℕ) (checksItem : Bool) {compacted : ℕ → Option LengthOffsetPair}
    (h : ∀ i < A.warpItems, A.isStartInWarp I tileIdx warpId i = true →
      compacted ((List.range i).countP (A.isStartInWarp I tileIdx warpId)) =
        some (A.lengthsAndOffsets I tileIdx warpId i)) :
    A.scatterCompacted I tileIdx warpId checksItem compacted = some (Output.ofWrites
      ((List.range A.warpItems).flatMap fun i => A.itemOffset I tileIdx (A.itemInTile warpId i))
      ((List.range A.warpItems).flatMap fun i => A.itemLength I tileIdx (A.itemInTile warpId i))) := by
  let written (place : ℕ) : Output :=
    writeRun I (checksItem && decide (place / warpThreads ≠ 0)) (A.warpOffset I tileIdx warpId + place)
      (compacted place)
  have hplaces : A.scatterCompacted I tileIdx warpId checksItem compacted = some (Output.ofWrites
      ((List.range A.warpItems).flatMap fun place =>
        if place < (List.range A.warpItems).countP (A.isStartInWarp I tileIdx warpId) then
          (written place).offsets else [])
      ((List.range A.warpItems).flatMap fun place =>
        if place < (List.range A.warpItems).countP (A.isStartInWarp I tileIdx warpId) then
          (written place).lengths else [])) := by
    refine Output.inOrder_eq fun place hplace => ?_
    rw [warpAggregate_eq, foundInWarp_fst]
    split <;> rfl
  have hitem : ∀ i < A.warpItems, A.isStartInWarp I tileIdx warpId i = true →
      written ((List.range i).countP (A.isStartInWarp I tileIdx warpId)) = Output.ofWrites
        (A.itemOffset I tileIdx (A.itemInTile warpId i)) (A.itemLength I tileIdx (A.itemInTile warpId i)) := by
    intro i hi hstart
    simp only [written]
    rw [h i hi hstart, lengthsAndOffsets, lengthsAndNumRuns2_eq, writeRun_eq, warpOffset_add, itemOffset,
      itemLength]
    · rw [isStartInWarp] at hstart
      rw [hstart, if_pos rfl, if_pos rfl]
    · intro hplace
      refine Nat.pos_of_ne_zero fun hzero => ?_
      rw [hzero] at hplace
      simp at hplace
  have hnot : ∀ i, A.isStartInWarp I tileIdx warpId i = false →
      A.itemOffset I tileIdx (A.itemInTile warpId i) = [] ∧
        A.itemLength I tileIdx (A.itemInTile warpId i) = [] := by
    intro i hstart
    rw [isStartInWarp] at hstart
    rw [itemOffset, itemLength, hstart]
    exact ⟨rfl, rfl⟩
  rw [hplaces, flatMap_places, flatMap_places]
  refine congrArg some (congrArg₂ Output.ofWrites ?_ ?_)
  all_goals
    refine List.flatMap_congr fun i hi => ?_
    cases hstart : A.isStartInWarp I tileIdx warpId i with
    | true => rw [if_pos rfl, hitem i (List.mem_range.mp hi) hstart]; rfl
    | false => rw [if_neg Bool.false_ne_true]; first | exact (hnot i hstart).1.symm | exact (hnot i hstart).2.symm

theorem store_padded {α : Type*} (f : ℕ → α) (hi : i < A.warpItems)
    (hstart : A.isStartInWarp I tileIdx warpId i = true) :
    store ((List.range (Block.warpItems A.itemsPerThread)).map fun j =>
        (padded A.itemsPerThread (A.numRunsExclusiveInWarp I tileIdx warpId j), f j))
      (padded A.itemsPerThread ((List.range i).countP (A.isStartInWarp I tileIdx warpId))) = some (f i) := by
  have hmem := List.mem_map_of_mem (f := fun j =>
    (padded A.itemsPerThread (A.numRunsExclusiveInWarp I tileIdx warpId j), f j)) (List.mem_range.mpr hi)
  rw [← rank_of_start hstart]
  refine store_of_unique hmem fun w hw heq => ?_
  obtain ⟨j, hj, rfl⟩ := List.mem_map.mp hw
  have hrank := padded_inj A.itemsPerThread heq
  rw [rank_of_start hstart] at hrank
  cases hj' : A.isStartInWarp I tileIdx warpId j with
  | true =>
    rw [rank_of_start hj'] at hrank
    rcases Nat.lt_trichotomy j i with hlt | rfl | hgt
    · exact absurd hrank (countP_range_lt hlt hj').ne
    · rfl
    · exact absurd hrank (countP_range_lt hgt hstart).ne'
  | false =>
    have hlt := countP_range_lt hi hstart
    have hle := countP_le_warpItems (n := A.warpItems) (A.isStartInWarp I tileIdx warpId)
    rw [rank_of_not hj'] at hrank
    omega

/-! ## 4. A whole tile -/

/-- Whether the ranks are padded twice: the warps are not time-sliced, and exchange twice. -/
def padsTwice (A : Agent T) : Bool := insertPadding A.itemsPerThread && !A.storeWarpTimeSlicing

/-- A tile with so many starts that they are put next to each other first. -/
def crowded (A : Agent T) (I : Invocation T) (tileIdx : ℕ) : Bool :=
  decide (A.blockThreads ≤ (List.range A.tileItems).countP (A.isStart I tileIdx))

/-- **`ScatterTwoPhase` writes what the items write**, if the ranks are not padded twice. -/
theorem scatterTwoPhase_eq (h : A.padsTwice = false) (tileIdx warpId : ℕ) :
    A.scatterTwoPhase I tileIdx warpId = some (Output.ofWrites
      ((List.range A.warpItems).flatMap fun i => A.itemOffset I tileIdx (A.itemInTile warpId i))
      ((List.range A.warpItems).flatMap fun i => A.itemLength I tileIdx (A.itemInTile warpId i))) := by
  have hranks : ∀ i < Block.warpItems A.itemsPerThread,
      A.numRunsExclusiveInWarp I tileIdx warpId i ≤ Block.warpItems A.itemsPerThread := fun i hi => rank_le hi
  unfold scatterTwoPhase
  dsimp only
  split
  · rw [scatterToStriped_eq _ hranks, Option.bind_some]
    exact scatterCompacted_eq tileIdx warpId _ fun i hi hstart => store_padded _ hi hstart
  · rename_i hslicing
    have hpadding : insertPadding A.itemsPerThread = false := by
      simpa [padsTwice, hslicing] using h
    have hid : (fun i => padded A.itemsPerThread (A.numRunsExclusiveInWarp I tileIdx warpId i)) =
        A.numRunsExclusiveInWarp I tileIdx warpId := by
      funext i
      rw [padded, hpadding, if_neg Bool.false_ne_true]
    rw [scatterToStriped_eq _ hranks, Option.bind_some, hid, scatterToStriped_eq _ hranks, Option.bind_some]
    refine scatterCompacted_eq tileIdx warpId _ fun i hi hstart => ?_
    have hoffset := store_padded (fun j => (A.lengthsAndOffsets I tileIdx warpId j).1) hi hstart
    have hlength := store_padded (fun j => (A.lengthsAndOffsets I tileIdx warpId j).2) hi hstart
    have hplain : ∀ j, (padded A.itemsPerThread (A.numRunsExclusiveInWarp I tileIdx warpId j)) =
      A.numRunsExclusiveInWarp I tileIdx warpId j := congrFun hid
    simp only [hplain] at hoffset hlength
    simp only [hplain, hoffset, hlength, Option.bind_some, Option.map_some]

/-- **A tile writes what its items write**, whichever way it scatters. -/
theorem scatter_eq (h : A.padsTwice = false ∨ A.crowded I tileIdx = false) :
    A.scatter I tileIdx = some (Output.ofWrites
      ((List.range A.tileItems).flatMap (A.itemOffset I tileIdx))
      ((List.range A.tileItems).flatMap (A.itemLength I tileIdx))) := by
  rw [tileItems_eq, flatMap_range_mul, flatMap_range_mul]
  refine Output.inOrder_eq fun warpId hwarp => ?_
  split
  · split
    · exact scatterDirect_eq tileIdx warpId
    · -- the warp has no starts
      rename_i hzero
      rw [warpAggregate_eq, foundInWarp_fst, ne_eq, not_not, List.countP_eq_zero] at hzero
      have hnot : ∀ i ∈ List.range A.warpItems, A.isStart I tileIdx (warpId * A.warpItems + i) = false :=
        fun i hi => Bool.not_eq_true _ ▸ hzero i hi
      rw [List.flatMap_congr fun i hi => show A.itemOffset I tileIdx (warpId * A.warpItems + i) = [] by
          rw [itemOffset, hnot i hi]; rfl,
        List.flatMap_congr fun i hi => show A.itemLength I tileIdx (warpId * A.warpItems + i) = [] by
          rw [itemLength, hnot i hi]; rfl]
      simp [Output.empty, Output.ofWrites]
  · rename_i hmany
    rw [tileAggregate_fst] at hmany
    refine scatterTwoPhase_eq (h.resolve_right fun hcrowded => ?_) tileIdx warpId
    rw [crowded, decide_eq_false_iff_not] at hcrowded
    exact hmany (Or.inr (Nat.lt_of_not_ge hcrowded))

/-- Two neighbours do not both start runs of more than one item. -/
theorem isStart_succ (h : A.isStart I tileIdx i = true) (hi : i + 1 < A.tileItems) :
    A.isStart I tileIdx (i + 1) = false := by
  have hsucc : A.tailFlags I tileIdx i = A.headFlags I tileIdx (i + 1) := by
    rw [tailFlags, headFlags, if_neg (by omega), if_neg (by omega), predItem_succ A.itemsPerThread_pos,
      succItem_of_lt A.itemsPerThread_pos _ _ hi]
  rw [isStart, Bool.and_eq_true, Bool.not_eq_true', hsucc] at h
  rw [isStart, h.2, Bool.false_and]

/-- **A tile with many starts has no result**, if the ranks are padded twice. -/
theorem scatter_crowded (h : A.padsTwice = true) (hcrowded : A.crowded I tileIdx = true) :
    A.scatter I tileIdx = none := by
  rw [padsTwice, Bool.and_eq_true, Bool.not_eq_true'] at h
  obtain ⟨hpadding, hslicing⟩ := h
  have hitems : 4 < A.itemsPerThread := by
    rw [insertPadding, Bool.and_eq_true, decide_eq_true_eq] at hpadding
    exact hpadding.1
  have hwarpItems : 32 * 4 < A.warpItems := Nat.mul_lt_mul_of_pos_left hitems (by decide)
  have hle : A.warpItems ≤ A.tileItems := by
    rw [tileItems_eq]
    exact Nat.le_mul_of_pos_left _ A.warps_pos
  -- one of the first two items is discarded
  obtain ⟨i, hi, hstart⟩ : ∃ i < A.warpItems, A.isStartInWarp I tileIdx 0 i = false := by
    cases hzero : A.isStart I tileIdx 0 with
    | false => exact ⟨0, by omega, by rw [isStartInWarp, itemInTile, Nat.zero_mul, hzero]⟩
    | true =>
      exact ⟨1, by omega, by rw [isStartInWarp, itemInTile, Nat.zero_mul, isStart_succ hzero (by omega)]⟩
  have hranks : ∀ i < Block.warpItems A.itemsPerThread,
      A.numRunsExclusiveInWarp I tileIdx 0 i ≤ Block.warpItems A.itemsPerThread := fun i hi => rank_le hi
  have hwarp : A.scatterTwoPhase I tileIdx 0 = none := by
    unfold scatterTwoPhase
    dsimp only
    rw [hslicing, if_neg Bool.false_ne_true, scatterToStriped_eq _ hranks, Option.bind_some, scatterToStriped,
      if_neg, Option.bind_none]
    intro hall
    have hlt : padded A.itemsPerThread (padded A.itemsPerThread
        (A.numRunsExclusiveInWarp I tileIdx 0 i)) < itemsShared A.itemsPerThread := hall i hi
    rw [rank_of_not hstart] at hlt
    exact absurd hlt (Nat.not_lt.mpr (itemsShared_le_padded hpadding))
  refine Output.inOrder_eq_none (i := 0) ?_ A.warps_pos
  rw [tileAggregate_fst, if_neg, hwarp]
  rw [crowded, decide_eq_true_eq] at hcrowded
  omega

end Agent

end Cccl.Rle
