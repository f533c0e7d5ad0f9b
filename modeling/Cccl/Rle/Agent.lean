/-
# `AgentRle`

Non-trivial run-length encoding writes the offset and the length of each run of more than one item.  An item
that is a head but not a tail starts such a run; an item that is not both belongs to one.  A segmented scan
counts the starts, and the items since the last start.  The start of a run writes the offset of this run, and
the length of the one before; the last length is written when all tiles are done.

The scan is made of the scans of threads, warps and the tile.  The starts of a warp are written directly, or
first put next to each other through an exchange memory, if there are many.

The input can be given to the kernel in partitions.  The length of the last run is kept for the next partition,
where it is added to the first item.
-/
import Cccl.Block.Collectives
import Cccl.Block.Partitions
import Cccl.Block.WarpExchange
import Cccl.Lib.Segments
import Cccl.Scan.TileState

namespace Cccl.Rle

open Segments Exchange Block Scan

/-! ## 1. The agent -/

/-- What the agent is compiled for.  The block has a whole number of warps. -/
structure Agent (T : Type*) where
  warps : ℕ
  itemsPerThread : ℕ
  storeWarpTimeSlicing : Bool
  equalityOp : T → T → Bool
  /-- `T()`, for the items out of bounds. -/
  defaultItem : T
  warps_pos : 0 < warps
  itemsPerThread_pos : 0 < itemsPerThread

structure StreamingContext where
  firstPartition : Bool
  lastPartition : Bool
  currentBaseOffset : ℕ
  precedingLength : ℕ
  numPreviousUniques : ℕ

/-- `num_accumulated_uniques_out`. -/
def StreamingContext.numUniques (c : StreamingContext) : ℕ :=
  if c.firstPartition then 0 else c.numPreviousUniques

/-- What the kernel is launched with. -/
structure Invocation (T : Type*) where
  input : ℕ → T
  /-- What the input iterator reads before the first item. -/
  precedingItem : T
  numItems : ℕ
  context : Option StreamingContext

/-- What is written: offsets and lengths at the positions of the two outputs, `*length_out`,
`*d_num_accumulated_uniques_out` and `*d_num_runs_out`. -/
structure Output where
  offsets : List (ℕ × Option ℕ)
  lengths : List (ℕ × Option ℕ)
  lengthOut : Option ℕ
  accumulatedUniques : Option ℕ
  numRuns : Option ℕ

namespace Output

def empty : Output := ⟨[], [], none, none, none⟩

/-- Something more is written. -/
def andThen (out out' : Output) : Output where
  offsets := out.offsets ++ out'.offsets
  lengths := out.lengths ++ out'.lengths
  lengthOut := out'.lengthOut.or out.lengthOut
  accumulatedUniques := out'.accumulatedUniques.or out.accumulatedUniques
  numRuns := out'.numRuns.or out.numRuns

/-- What `n` of them write, one after the other, if all have a result. -/
def inOrder (f : ℕ → Option Output) : ℕ → Option Output
  | 0 => some empty
  | n + 1 => (inOrder f n).bind fun out => (f n).map out.andThen

end Output

/-- `KeyValuePair<OffsetT, LengthT>`: a number of runs, and a length. -/
abbrev LengthOffsetPair := ℕ × ℕ

/-- `ReduceBySegmentOp<plus>`. -/
def scanOp : LengthOffsetPair → LengthOffsetPair → LengthOffsetPair := segmentedOp (· + ·)

def identity : LengthOffsetPair := (0, 0)

namespace Agent

variable {T : Type*} (A : Agent T) (I : Invocation T)

def blockThreads : ℕ := warpThreads * A.warps

def tileItems : ℕ := A.blockThreads * A.itemsPerThread

def warpItems : ℕ := Block.warpItems A.itemsPerThread

def tileOffset (tileIdx : ℕ) : ℕ := tileIdx * A.tileItems

def numRemaining (tileIdx : ℕ) : ℕ := I.numItems - A.tileOffset tileIdx

def numTiles : ℕ := (I.numItems + (A.tileItems - 1)) / A.tileItems

/-- `LastTile` of `ConsumeTile`. -/
def isLastTile (tileIdx : ℕ) : Bool := !decide (tileIdx < A.numTiles I - 1)

/-! ## 2. `InitializeSelections` -/

def isFirstPartition : Bool := I.context.elim true StreamingContext.firstPartition

def isLastPartition : Bool := I.context.elim true StreamingContext.lastPartition

/-- `FirstTile` of `InitializeSelections`: the first tile of the input. -/
def firstTile (tileIdx : ℕ) : Bool := decide (tileIdx = 0) && isFirstPartition I

/-- `LastTile` of `InitializeSelections`: the last tile of the input. -/
def lastTile (tileIdx : ℕ) : Bool := A.isLastTile I tileIdx && isLastPartition I

def items (tileIdx i : ℕ) : T :=
  if A.isLastTile I tileIdx ∧ ¬ i < A.numRemaining I tileIdx then A.defaultItem
  else I.input (A.tileOffset tileIdx + i)

/-- `d_in[i - 1]`. -/
def before (i : ℕ) : T := if i = 0 then I.precedingItem else I.input (i - 1)

/-- `OobInequalityOp`. -/
def oobInequality (tileIdx : ℕ) (first second : T) (idx : ℕ) : Bool :=
  if !A.lastTile I tileIdx || decide (idx < A.numRemaining I tileIdx) then !A.equalityOp first second
  else true

/-- `head_flags`: the first tile always flags the first item. -/
def headFlags (tileIdx i : ℕ) : Bool :=
  if firstTile I tileIdx ∧ i = 0 then true
  else A.oobInequality I tileIdx
    (predItem A.itemsPerThread (A.items I tileIdx) (before I (A.tileOffset tileIdx)) i)
    (A.items I tileIdx i) i

/-- `tail_flags`: the last tile always flags the last item. -/
def tailFlags (tileIdx i : ℕ) : Bool :=
  if A.lastTile I tileIdx ∧ i = A.tileItems - 1 then true
  else A.oobInequality I tileIdx (A.items I tileIdx i)
    (succItem A.blockThreads A.itemsPerThread (A.items I tileIdx)
      (I.input (A.tileOffset tileIdx + A.tileItems)) i) (i + 1)

/-- `lengths_and_num_runs`, as `InitializeSelections` leaves it. -/
def selections (tileIdx i : ℕ) : LengthOffsetPair :=
  ((A.headFlags I tileIdx i && !A.tailFlags I tileIdx i).toNat,
    (!A.headFlags I tileIdx i || !A.tailFlags I tileIdx i).toNat)

/-- `lengths_and_num_runs`: the first item gets the length of the last run of the partition before. -/
def lengthsAndNumRuns (tileIdx i : ℕ) : LengthOffsetPair :=
  match I.context with
  | some c =>
    if tileIdx = 0 ∧ c.firstPartition = false ∧ i = 0 then
      ((A.selections I tileIdx i).1,
        (A.selections I tileIdx i).2 + c.precedingLength)
    else A.selections I tileIdx i
  | none => A.selections I tileIdx i

/-! ## 3. `WarpScanAllocations` -/

/-- `ThreadReduce` of the items of a thread. -/
def threadAggregate (tileIdx tid : ℕ) : LengthOffsetPair :=
  fold1 scanOp (A.lengthsAndNumRuns I tileIdx) (tid * A.itemsPerThread)
    (A.itemsPerThread - 1)

/-- `thread_exclusive_in_warp`, as `WarpScan` leaves it. -/
def threadExclusiveInWarp (tileIdx warpId laneId : ℕ) : LengthOffsetPair :=
  foldFrom scanOp identity (A.threadAggregate I tileIdx) (warpId * warpThreads) laneId

/-- `warp_aggregates`: what the last lane of the warp has, with its own items. -/
def warpAggregate (tileIdx warpId : ℕ) : LengthOffsetPair :=
  foldFrom scanOp identity (A.threadAggregate I tileIdx) (warpId * warpThreads) warpThreads

def warpExclusiveInTile (tileIdx warpId : ℕ) : LengthOffsetPair :=
  if warpId = 0 then identity
  else fold1 scanOp (A.warpAggregate I tileIdx) 0 (warpId - 1)

def tileAggregate (tileIdx : ℕ) : LengthOffsetPair :=
  fold1 scanOp (A.warpAggregate I tileIdx) 0 (A.warps - 1)

/-- The tiles, as they publish their aggregates. -/
def launch : Launch LengthOffsetPair where
  scanOp := scanOp
  numTiles := A.numTiles I
  blockAggregate := A.tileAggregate I

/-- `tile_exclusive_in_global` of a tile that is not the first, which it finds by looking back. -/
def tileExclusiveInGlobal (tileIdx : ℕ) : LengthOffsetPair :=
  (A.launch I).inclusivePrefix (tileIdx - 1)

/-- What is before the warp. -/
def warpExclusive (tileIdx warpId : ℕ) : LengthOffsetPair :=
  if tileIdx = 0 then A.warpExclusiveInTile I tileIdx warpId
  else scanOp (A.tileExclusiveInGlobal I tileIdx)
    (A.warpExclusiveInTile I tileIdx warpId)

/-- `thread_exclusive_in_warp`, with the length of the run that is open before the warp. -/
def threadExclusive (tileIdx warpId laneId : ℕ) : LengthOffsetPair :=
  let exclusive := A.threadExclusiveInWarp I tileIdx warpId laneId
  if exclusive.1 = 0 then
    (exclusive.1, exclusive.2 + (A.warpExclusive I tileIdx warpId).2)
  else exclusive

/-- `lengths_and_num_runs2` of an item of a warp: `ThreadScanExclusive` of its thread. -/
def lengthsAndNumRuns2 (tileIdx warpId i : ℕ) : LengthOffsetPair :=
  foldFrom scanOp (A.threadExclusive I tileIdx warpId (i / A.itemsPerThread))
    (A.lengthsAndNumRuns I tileIdx)
    ((warpId * warpThreads + i / A.itemsPerThread) * A.itemsPerThread) (i % A.itemsPerThread)

/-! ## 4. Writing the runs -/

/-- The number of an item of a warp in its tile. -/
def itemInTile (warpId i : ℕ) : ℕ := warpId * A.warpItems + i

def lengthsAndOffsets (tileIdx warpId i : ℕ) : LengthOffsetPair :=
  (A.tileOffset tileIdx + A.itemInTile warpId i,
    (A.lengthsAndNumRuns2 I tileIdx warpId i).2)

/-- `thread_num_runs_exclusive_in_warp`: an item that starts no run is discarded. -/
def numRunsExclusiveInWarp (tileIdx warpId i : ℕ) : ℕ :=
  if (A.lengthsAndNumRuns I tileIdx (A.itemInTile warpId i)).1 ≠ 0 then
    (A.lengthsAndNumRuns2 I tileIdx warpId i).1
  else A.warpItems

def numUniques : ℕ := I.context.elim 0 StreamingContext.numUniques

def baseOffset : ℕ := I.context.elim 0 StreamingContext.currentBaseOffset

/-- The offset of a run is written, and the length of the run before if there is one. -/
def writeRun (notFirst : Bool) (itemOffset : ℕ) (run : Option LengthOffsetPair) : Output where
  offsets := [(numUniques I + itemOffset, run.map fun r => baseOffset I + r.1)]
  lengths :=
    if notFirst ∨ 0 < numUniques I + itemOffset then
      [(numUniques I + itemOffset - 1, run.map Prod.snd)]
    else []
  lengthOut := none
  accumulatedUniques := none
  numRuns := none

def tileNumRunsExclusive (tileIdx : ℕ) : ℕ :=
  if tileIdx = 0 then 0 else (A.tileExclusiveInGlobal I tileIdx).1

/-- Where the runs of a warp start in the output. -/
def warpOffset (tileIdx warpId : ℕ) : ℕ :=
  A.tileNumRunsExclusive I tileIdx + (A.warpExclusiveInTile I tileIdx warpId).1

/-- `ScatterDirect`, for one warp. -/
def scatterDirect (tileIdx warpId : ℕ) : Option Output :=
  Output.inOrder (fun i =>
    let rank := A.numRunsExclusiveInWarp I tileIdx warpId i
    some (if rank < (A.warpAggregate I tileIdx warpId).1 then
      writeRun I false (A.warpOffset I tileIdx warpId + rank)
        (some (A.lengthsAndOffsets I tileIdx warpId i))
    else Output.empty)) A.warpItems

/-- The second phase: `compacted` is what the lanes have got for the places. -/
def scatterCompacted (tileIdx warpId : ℕ) (checksItem : Bool) (compacted : ℕ → Option LengthOffsetPair) :
    Option Output :=
  Output.inOrder (fun place =>
    some (if place < (A.warpAggregate I tileIdx warpId).1 then
      writeRun I (checksItem && decide (place / warpThreads ≠ 0))
        (A.warpOffset I tileIdx warpId + place) (compacted place)
    else Output.empty)) A.warpItems

/-- `ScatterTwoPhase`, for one warp: time-sliced warps exchange pairs, the others exchange the offsets and
then the lengths, with the ranks that the first exchange left. -/
def scatterTwoPhase (tileIdx warpId : ℕ) : Option Output :=
  let ranks := A.numRunsExclusiveInWarp I tileIdx warpId
  let pairs := A.lengthsAndOffsets I tileIdx warpId
  if A.storeWarpTimeSlicing then
    (scatterToStriped A.itemsPerThread pairs ranks).bind fun exchanged =>
      A.scatterCompacted I tileIdx warpId I.context.isNone exchanged.2
  else
    (scatterToStriped A.itemsPerThread (fun i => (pairs i).1) ranks).bind fun offsets =>
      (scatterToStriped A.itemsPerThread (fun i => (pairs i).2) offsets.1).bind fun lengths =>
        A.scatterCompacted I tileIdx warpId true fun place =>
          (offsets.2 place).bind fun offset => (lengths.2 place).map fun length => (offset, length)

/-- `Scatter`, for all warps. -/
def scatter (tileIdx : ℕ) : Option Output :=
  Output.inOrder (fun warpId =>
    if A.itemsPerThread = 1 ∨ (A.tileAggregate I tileIdx).1 < A.blockThreads then
      if (A.warpAggregate I tileIdx warpId).1 ≠ 0 then
        A.scatterDirect I tileIdx warpId
      else some Output.empty
    else A.scatterTwoPhase I tileIdx warpId) A.warps

/-- What `ConsumeTile` returns. -/
def runningTotal (tileIdx : ℕ) : LengthOffsetPair :=
  if tileIdx = 0 then A.tileAggregate I tileIdx
  else scanOp (A.tileExclusiveInGlobal I tileIdx) (A.tileAggregate I tileIdx)

/-- What `ConsumeRange` writes after the last tile. -/
def writeTotal (tileIdx : ℕ) : Output :=
  let total := A.runningTotal I tileIdx
  { offsets := []
    lengths :=
      if isLastPartition I ∧ 0 < total.1 + numUniques I then
        [(numUniques I + total.1 - 1, some total.2)]
      else []
    lengthOut := if isLastPartition I then none else some total.2
    accumulatedUniques := if isLastPartition I then none else some (numUniques I + total.1)
    numRuns := if isLastPartition I then some (numUniques I + total.1) else none }

def consumeRange (tileIdx : ℕ) : Option Output :=
  if tileIdx < A.numTiles I - 1 then A.scatter I tileIdx
  else if 0 < A.numRemaining I tileIdx then
    (A.scatter I tileIdx).map fun out => out.andThen (A.writeTotal I tileIdx)
  else some Output.empty

/-- `DeviceRleSweepKernel`, with all its blocks. -/
def kernel : Option Output := Output.inOrder (A.consumeRange I) (A.numTiles I)

/-! ## 5. The partitions -/

/-- The two double buffers of the dispatch. -/
structure Buffers where
  tmpPrefix : ℕ → ℕ
  tmpNumUniques : ℕ → ℕ

/-- What an invocation leaves in the buffers. -/
def Buffers.after (b : Buffers) (bufferSelector : ℕ) (out : Output) : Buffers where
  tmpPrefix := Function.update b.tmpPrefix bufferSelector (out.lengthOut.getD (b.tmpPrefix bufferSelector))
  tmpNumUniques :=
    Function.update b.tmpNumUniques bufferSelector
      (out.accumulatedUniques.getD (b.tmpNumUniques bufferSelector))

/-- What the kernel is launched with for one partition of the input. -/
def partition (input : ℕ → T) (partitionIdx offset size : ℕ) (isLast : Bool) (b : Buffers) :
    Invocation T where
  input i := input (offset + i)
  precedingItem := input (offset - 1)
  numItems := size
  context := some
    { firstPartition := decide (partitionIdx = 0)
      lastPartition := isLast
      currentBaseOffset := offset
      precedingLength := b.tmpPrefix (partitionIdx % 2)
      numPreviousUniques := b.tmpNumUniques (partitionIdx % 2) }

/-- The loop of the dispatch, from one partition on: the sizes of the partitions are given. -/
def partitions (input : ℕ → T) (partitionIdx offset : ℕ) : List ℕ → Buffers → Option Output
  | [], _ => some Output.empty
  | size :: sizes, b =>
    (A.kernel (partition input partitionIdx offset size sizes.isEmpty b)).bind
      fun out => (partitions input (partitionIdx + 1) (offset + size) sizes
        (b.after ((partitionIdx + 1) % 2) out)).map out.andThen

/-- `DeviceCompactInitKernel` clears the number of runs. -/
def initialized : Output := ⟨[], [], none, none, some 0⟩

/-- `dispatch`, with streaming: nothing is launched for at most one item. -/
def dispatchStreaming (input : ℕ → T) (sizes : List ℕ) (b : Buffers) : Option Output :=
  if sizes.sum ≤ 1 then some initialized
  else (A.partitions input 0 0 sizes b).map initialized.andThen

/-- `dispatch`, without streaming. -/
def dispatch (input : ℕ → T) (numItems : ℕ) : Option Output :=
  if numItems ≤ 1 then some initialized
  else (A.kernel ⟨input, input 0, numItems, none⟩).map initialized.andThen

end Agent

end Cccl.Rle
