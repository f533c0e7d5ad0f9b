/-
# A merge pass

`agent_merge_sort.cuh`: `AgentPartition` and `AgentMerge`, with `safe_add_bound_to_max`.

The tiles are numbered, and `target_merged_tiles_number` neighbouring ones form a group.  The first half of a
group is one sorted run and the second half another one.  `AgentPartition` finds for each tile how many keys of
the first run are before it; there is one partition more than tiles.  `AgentMerge` takes its slices of the two
runs from two partitions, and its threads merge them in shared memory.

The offsets are of an unsigned type.  Whether one has been cut to the type is kept in mind (`Wrapped`).  What the
last tile of a group computes from the partition of the next group is overwritten in the source; it is left out
here, and not counted.
-/
import Cccl.Lib.Wrapping
import Cccl.MergeSort.BlockSorted

namespace Cccl.MergeSort

open Wrapped

variable {K V : Type}

/-! ## 1. `AgentPartition` -/

/-- A pass: the width of the offset type, the shape of a block, the number of keys and of tiles in a group. -/
structure MergePass where
  offsetBits : ℕ
  threadsPerBlock : ℕ
  itemsPerThread : ℕ
  keysCount : ℕ
  targetMergedTilesNumber : ℕ
  threadsPerBlock_pos : 0 < threadsPerBlock
  itemsPerThread_pos : 0 < itemsPerThread
  itemsPerTile_lt : threadsPerBlock * itemsPerThread < 2 ^ 31
  offsetBits_ge : 32 ≤ offsetBits

namespace MergePass

variable (M : MergePass)

def itemsPerTile : ℕ := M.threadsPerBlock * M.itemsPerThread

/-- `num_tiles`, by `ceil_div`. -/
def numTiles : ℕ := (M.keysCount + M.itemsPerTile - 1) / M.itemsPerTile

def safeAddBoundToMax (lhs rhs : ℕ) : Wrapped ℕ := do
  let room ← cutNat M.offsetBits (2 ^ M.offsetBits - 1 - lhs)
  cutNat M.offsetBits (lhs + min rhs room)

/-- The two runs of a group, as `AgentPartition` computes them, and the place of the tile in the group. -/
structure PartitionOffsets where
  keys1Beg : ℕ
  keys1End : ℕ
  keys2Beg : ℕ
  keys2End : ℕ
  localTileIdx : ℕ

/-- The first part of `AgentPartition::Process`. -/
def partitionOffsets (partitionIdx : ℕ) : Wrapped PartitionOffsets := do
  let mergedTilesNumber := M.targetMergedTilesNumber / 2
  let mask ← cutNat M.offsetBits (M.targetMergedTilesNumber - 1)
  let list := Nat.ldiff partitionIdx mask
  let start ← cutNat M.offsetBits (M.itemsPerTile * list)
  let size ← cutNat M.offsetBits (M.itemsPerTile * mergedTilesNumber)
  let localTileIdx := mask &&& partitionIdx
  let keys1Beg := min M.keysCount start
  let bound1 ← M.safeAddBoundToMax start size
  let keys1End := min M.keysCount bound1
  let keys2Beg := keys1End
  let bound2 ← M.safeAddBoundToMax keys2Beg size
  let keys2End := min M.keysCount bound2
  return ⟨keys1Beg, keys1End, keys2Beg, keys2End, localTileIdx⟩

/-- The search of `AgentPartition::Process`, in the runs at some offsets. -/
def partitionDiag (lt : K → K → Bool) (keys : ℕ → Option K) (o : PartitionOffsets) : Wrapped (Option ℕ) := do
  let total ← cutNat M.offsetBits (o.keys2End - o.keys1Beg)
  let before ← cutNat M.offsetBits (M.itemsPerTile * o.localTileIdx)
  let keys1Count ← cutNat M.offsetBits (o.keys1End - o.keys1Beg)
  let keys2Count ← cutNat M.offsetBits (o.keys2End - o.keys2Beg)
  match mergePath lt (fun i => keys (o.keys1Beg + i)) (fun i => keys (o.keys2Beg + i)) keys1Count keys2Count
      (min total before) with
  | none => pure none
  | some diag => do
    let partition ← cutNat M.offsetBits (o.keys1Beg + diag)
    return some partition

/-- `AgentPartition::Process`: what is stored to `merge_partitions`.  The last partition, one past the last
tile, marks the end of a run. -/
def agentPartition (lt : K → K → Bool) (keys : ℕ → Option K) (partitionIdx : ℕ) : Wrapped (Option ℕ) := do
  let o ← M.partitionOffsets partitionIdx
  if (partitionIdx + 1) % 2 ^ M.offsetBits = (M.numTiles + 1) % 2 ^ M.offsetBits then pure (some o.keys1End)
  else M.partitionDiag lt keys o

/-! ## 2. The slices of a tile -/

/-- The slices that `consume_tile` merges, the first from `start` on, the second from `start + size` on, and how
many keys they have. -/
structure TileSlices where
  start : ℕ
  size : ℕ
  keys1Beg : ℕ
  keys1End : ℕ
  keys2Beg : ℕ
  keys2End : ℕ
  numKeys1 : ℕ
  numKeys2 : ℕ

/-- `static_cast<int>` of the length of a slice. -/
def numKeys (beg fin : ℕ) : Wrapped ℕ := do
  let length ← cutNat M.offsetBits (fin - beg)
  cutNat 31 length

/-- The ends of the slices.  For the last tile of a group they are the ends of the runs. -/
def sliceEnds (tileIdx mask start size diag maxKeys2 partitionEnd : ℕ) : Wrapped (ℕ × ℕ) :=
  if mask = mask &&& tileIdx then do
    let rest ← cutNat M.offsetBits (M.keysCount - start)
    return (min rest size, min maxKeys2 size)
  else do
    let keys1End ← cutNat M.offsetBits (partitionEnd - start)
    let bound ← M.safeAddBoundToMax diag M.itemsPerTile
    let rest ← cutNat M.offsetBits (bound - keys1End)
    return (keys1End, min maxKeys2 rest)

def maxKeys2 (size keysEndDistFromStart : ℕ) : Wrapped ℕ :=
  if size < keysEndDistFromStart then cutNat M.offsetBits (keysEndDistFromStart - size) else pure 0

/-- The first part of `consume_tile`. -/
def tileSlices (tileIdx partitionBeg partitionEnd : ℕ) : Wrapped TileSlices := do
  let mergedTilesNumber := M.targetMergedTilesNumber / 2
  let mask ← cutNat M.offsetBits (M.targetMergedTilesNumber - 1)
  let list := Nat.ldiff tileIdx mask
  let start ← cutNat M.offsetBits (M.itemsPerTile * list)
  let size ← cutNat M.offsetBits (M.itemsPerTile * mergedTilesNumber)
  let tileBase ← cutNat M.offsetBits (M.itemsPerTile * tileIdx)
  let diag ← cutNat M.offsetBits (tileBase - start)
  let keys1Beg ← cutNat M.offsetBits (partitionBeg - start)
  let keysEndDistFromStart ← cutNat M.offsetBits (M.keysCount - start)
  let maxKeys2 ← M.maxKeys2 size keysEndDistFromStart
  let rest ← cutNat M.offsetBits (diag - keys1Beg)
  let keys2Beg := min maxKeys2 rest
  let ends ← M.sliceEnds tileIdx mask start size diag maxKeys2 partitionEnd
  let numKeys1 ← M.numKeys keys1Beg ends.1
  let numKeys2 ← M.numKeys keys2Beg ends.2
  return ⟨start, size, keys1Beg, ends.1, keys2Beg, ends.2, numKeys1, numKeys2⟩

def itemsInTile (tileIdx : ℕ) : Wrapped ℕ := do
  let tileBase ← cutNat M.offsetBits (tileIdx * M.itemsPerTile)
  let rest ← cutNat M.offsetBits (M.keysCount - tileBase)
  return min M.itemsPerTile rest

/-! ## 3. `consume_tile` -/

/-- `gmem_to_reg`: an item of a thread.  In a tile that is not full the other registers are left alone. -/
def gmemToReg {T : Type} (isFullTile : Bool) (old : ℕ → ℕ → T) (input1 input2 : ℕ → Option T)
    (count1 count2 tid item : ℕ) : Option T :=
  let idx := M.threadsPerBlock * item + tid
  if isFullTile ∨ idx < count1 + count2 then if idx < count1 then input1 idx else input2 (idx - count1)
  else some (old tid item)

/-- Shared memory after `reg_to_shared` of all threads, and its cell behind the tile. -/
def regToShared {T : Type} (old : T) (regs : ℕ → ℕ → Option T) (idx : ℕ) : Option T :=
  if idx < M.itemsPerTile then regs (idx % M.threadsPerBlock) (idx / M.threadsPerBlock)
  else if idx = M.itemsPerTile then some old
  else none

/-- The search and the serial merge of a thread of `consume_tile`. -/
def mergeThreadSlices (lt : K → K → Bool) (keysShared : ℕ → Option K) (numKeys1 numKeys2 tid : ℕ) (output : K) :
    Option (List (K × ℕ)) :=
  let diag0Local := min (numKeys1 + numKeys2) (M.itemsPerThread * tid)
  (mergePath lt keysShared (fun i => keysShared (numKeys1 + i)) numKeys1 numKeys2 diag0Local).bind
    fun keys1BegLocal =>
      let keys2BegLocal := diag0Local - keys1BegLocal
      serialMerge lt keysShared M.itemsPerThread keys1BegLocal (keys2BegLocal + numKeys1)
        (numKeys1 - keys1BegLocal) (numKeys2 - keys2BegLocal) output

/-- What is in the registers and in shared memory before. -/
structure OldContents (K V : Type) where
  keysLocal : ℕ → ℕ → K
  itemsLocal : ℕ → ℕ → V
  keysShared : K
  itemsShared : V

/-- What a block has stored, from its `tile_base` on. -/
structure TileOutput (K V : Type) where
  keys : List K
  items : List V

/-- `consume_tile` from its slices on.  The block stores what is valid. -/
def consumeTile (lt : K → K → Bool) (keys : ℕ → Option K) (items : ℕ → Option V) (old : OldContents K V)
    (isFullTile : Bool) (s : TileSlices) (count : ℕ) : Option (TileOutput K V) := do
  let keysLocal := M.gmemToReg isFullTile old.keysLocal (fun i => keys (s.start + s.keys1Beg + i))
    (fun i => keys (s.start + s.size + s.keys2Beg + i)) s.numKeys1 s.numKeys2
  let itemsLocal := M.gmemToReg isFullTile old.itemsLocal (fun i => items (s.start + s.keys1Beg + i))
    (fun i => items (s.start + s.size + s.keys2Beg + i)) s.numKeys1 s.numKeys2
  let merged ← forThreads (fun tid _ => do
    let output ← keysLocal tid 0
    let indices ← M.mergeThreadSlices lt (M.regToShared old.keysShared keysLocal) s.numKeys1 s.numKeys2
      tid output
    BlockMergeSortStrategy.gather (M.regToShared old.itemsShared itemsLocal) indices)
    0 (List.range M.threadsPerBlock)
  return ⟨(merged.flatten.map Prod.fst).take (if isFullTile then M.itemsPerTile else s.numKeys1 + s.numKeys2),
    (merged.flatten.map Prod.snd).take (if isFullTile then M.itemsPerTile else count)⟩

/-- `AgentMerge::Process` of a tile, with the partitions that were stored. -/
def agentMerge (lt : K → K → Bool) (keys : ℕ → Option K) (items : ℕ → Option V) (old : OldContents K V)
    (tileIdx : ℕ) : Option (TileOutput K V) := do
  let partitionBeg ← (M.agentPartition lt keys tileIdx).value
  let partitionEnd ← (M.agentPartition lt keys (tileIdx + 1)).value
  let slices := (M.tileSlices tileIdx partitionBeg partitionEnd).value
  M.consumeTile lt keys items old (decide (tileIdx < M.numTiles - 1)) slices (M.itemsInTile tileIdx).value

/-- The pass: all tiles, from the contents of an array. -/
def mergePass (lt : K → K → Bool) (input : List (K × V)) (old : ℕ → OldContents K V) :
    Option (List (TileOutput K V)) :=
  forThreads (fun tileIdx _ =>
    M.agentMerge lt (fun i => input[i]?.map Prod.fst) (fun i => input[i]?.map Prod.snd) (old tileIdx) tileIdx)
    0 (List.range M.numTiles)

end MergePass

end Cccl.MergeSort
