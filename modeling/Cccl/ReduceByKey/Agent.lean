/-
# `AgentReduceByKey`

The keys are compared with their predecessors, and those that differ are heads: a segment ends before each of
them.  A segmented scan gives each head the number of the segment that ends there and the reduced value of it.
The head writes both, with the key before it.  Nothing follows the last segment: it is written for the first
item out of bounds, if the last tile has one, and by the last thread if not.

The input can be given to the kernel in partitions.  The value of the segment that is open at the end of one is
kept for the next, and so is the number of segments so far.

The tiles of one launch get the fold of the tiles before them by looking back, which `lookback_correct` is
about.
-/
import Cccl.Block.Collectives
import Cccl.Block.Partitions
import Cccl.Lib.Exchange
import Cccl.Lib.Segments
import Cccl.Scan.TileState

namespace Cccl.ReduceByKey

open Segments Exchange Block

/-! ## 1. The agent -/

/-- What the agent is compiled for, and what its registers hold as long as they are not set. -/
structure Agent (K V : Type*) where
  blockThreads : ℕ
  itemsPerThread : ℕ
  equalityOp : K → K → Bool
  reductionOp : V → V → V
  unsetKeys : ℕ → K
  unsetValues : ℕ → V
  unsetItem : ℕ × V
  blockThreads_pos : 0 < blockThreads
  itemsPerThread_pos : 0 < itemsPerThread

structure StreamingContext (K V : Type*) where
  firstPartition : Bool
  lastPartition : Bool
  predecessorKey : K
  precedingPrefix : V
  numPreviousUniques : ℕ

/-- `num_accumulated_uniques_out`. -/
def StreamingContext.numUniques {K V : Type*} (c : StreamingContext K V) : ℕ :=
  if c.firstPartition then 0 else c.numPreviousUniques

/-- What the kernel is launched with: the iterators and the number of items, and the context if this is a
streaming invocation. -/
structure Invocation (K V : Type*) where
  keysIn : ℕ → K
  valuesIn : ℕ → V
  numItems : ℕ
  context : Option (StreamingContext K V)

/-- What is written: keys and aggregates at the positions of the two outputs, `*prefix_out`,
`*d_num_accumulated_uniques_out` and `*d_num_runs_out`. -/
structure Output (K V : Type*) where
  writes : List (ℕ × Option (K × V))
  prefixOut : Option V
  accumulatedUniques : Option ℕ
  numRuns : Option ℕ

namespace Output

variable {K V : Type*}

def empty : Output K V := ⟨[], none, none, none⟩

/-- Something more is written. -/
def andThen (out out' : Output K V) : Output K V where
  writes := out.writes ++ out'.writes
  prefixOut := out'.prefixOut.or out.prefixOut
  accumulatedUniques := out'.accumulatedUniques.or out.accumulatedUniques
  numRuns := out'.numRuns.or out.numRuns

end Output

namespace Agent

variable {K V : Type*} (A : Agent K V) (I : Invocation K V)

def tileItems : ℕ := A.blockThreads * A.itemsPerThread

theorem tileItems_pos : 0 < A.tileItems := Nat.mul_pos A.blockThreads_pos A.itemsPerThread_pos

/-! ## 2. A tile -/

def tileOffset (tileIdx : ℕ) : ℕ := A.tileItems * tileIdx

def numRemaining (tileIdx : ℕ) : ℕ := I.numItems - A.tileOffset tileIdx

def isLastTile (tileIdx : ℕ) : Bool := !decide (A.tileItems < A.numRemaining I tileIdx)

def keys (tileIdx i : ℕ) : K :=
  if A.isLastTile I tileIdx ∧ ¬ i < A.numRemaining I tileIdx then A.unsetKeys i
  else I.keysIn (A.tileOffset tileIdx + i)

def values (tileIdx i : ℕ) : V :=
  if A.isLastTile I tileIdx ∧ ¬ i < A.numRemaining I tileIdx then A.unsetValues i
  else I.valuesIn (A.tileOffset tileIdx + i)

def tilePredecessor (tileIdx : ℕ) : K :=
  match I.context with
  | some c => if tileIdx = 0 then c.predecessorKey else I.keysIn (A.tileOffset tileIdx - 1)
  | none => if tileIdx = 0 then A.keys I tileIdx 0 else I.keysIn (A.tileOffset tileIdx - 1)

def prevKeys (tileIdx : ℕ) : ℕ → K :=
  predItem A.itemsPerThread (A.keys I tileIdx) (A.tilePredecessor I tileIdx)

/-- The first item of the input is never a head. -/
def resetFirst (tileIdx i : ℕ) : Bool :=
  match I.context with
  | some c => c.firstPartition && decide (i = 0) && decide (tileIdx = 0)
  | none => decide (i = 0) && decide (tileIdx = 0)

def headFlags (tileIdx i : ℕ) : Bool :=
  if resetFirst I tileIdx i then false
  else if A.isLastTile I tileIdx then
    guardedInequality A.equalityOp (A.numRemaining I tileIdx) (A.prevKeys I tileIdx i)
      (A.keys I tileIdx i) i
  else inequality A.equalityOp (A.prevKeys I tileIdx i) (A.keys I tileIdx i)

/-- The values, each with its flag as the key. -/
def scanItems (tileIdx i : ℕ) : ℕ × V := ((A.headFlags I tileIdx i).toNat, A.values I tileIdx i)

/-! ## 3. The scan -/

/-- `ReduceBySegmentOp`. -/
def scanOp : ℕ × V → ℕ × V → ℕ × V := segmentedOp A.reductionOp

/-- The initial value of the scan of the first tile. -/
def initValue : Option (ℕ × V) :=
  match I.context with
  | some c => if c.firstPartition then none else some (0, c.precedingPrefix)
  | none => none

/-- The aggregate of the items of the tile. -/
def itemsAggregate (tileIdx : ℕ) : ℕ × V := fold1 A.scanOp (A.scanItems I tileIdx) 0 (A.tileItems - 1)

/-- `block_aggregate`: that of the first tile gets the initial value. -/
def blockAggregate (tileIdx : ℕ) : ℕ × V :=
  if tileIdx = 0 then applyPrefix A.scanOp (initValue I) (A.itemsAggregate I tileIdx)
  else A.itemsAggregate I tileIdx

def numTiles : ℕ := (I.numItems + (A.tileItems - 1)) / A.tileItems

/-- The tiles, as they publish their aggregates. -/
def launch : Scan.Launch (ℕ × V) where
  scanOp := A.scanOp
  numTiles := A.numTiles I
  blockAggregate := A.blockAggregate I

/-- The prefix of a tile that is not the first, which it finds by looking back. -/
def exclusivePrefix (tileIdx : ℕ) : ℕ × V := (A.launch I).inclusivePrefix (tileIdx - 1)

/-- What the scan leaves for the items of a tile. -/
def scanned (tileIdx : ℕ) : ℕ → ℕ × V :=
  if tileIdx = 0 then exclusiveScan A.scanOp (initValue I) A.unsetItem (A.scanItems I tileIdx)
  else exclusiveScan A.scanOp (some (A.exclusivePrefix I tileIdx)) A.unsetItem (A.scanItems I tileIdx)

def numSegmentsPrefix (tileIdx : ℕ) : ℕ := if tileIdx = 0 then 0 else (A.exclusivePrefix I tileIdx).1

/-- The prefix and the items of the tile. -/
def totalAggregate (tileIdx : ℕ) : ℕ × V :=
  if tileIdx = 0 then A.blockAggregate I tileIdx
  else A.scanOp (A.exclusivePrefix I tileIdx) (A.blockAggregate I tileIdx)

/-! ## 4. Writing the segments -/

def scatterItems (tileIdx i : ℕ) : K × V := (A.prevKeys I tileIdx i, (A.scanned I tileIdx i).2)

def segmentIndices (tileIdx i : ℕ) : ℕ := (A.scanned I tileIdx i).1

/-- The items of a tile that are flagged. -/
def flagged (tileIdx : ℕ) : List ℕ := (List.range A.tileItems).filter (A.headFlags I tileIdx)

def scatterDirect (tileIdx : ℕ) : List (ℕ × Option (K × V)) :=
  (A.flagged I tileIdx).map fun i => (A.segmentIndices I tileIdx i, some (A.scatterItems I tileIdx i))

/-- `ScatterTwoPhase`: the pairs are put next to each other in shared memory. -/
def scatterTwoPhase (tileIdx numTileSegments numTileSegmentsPrefix : ℕ) : List (ℕ × Option (K × V)) :=
  let rawExchange := store ((A.flagged I tileIdx).map fun i =>
    (A.segmentIndices I tileIdx i - numTileSegmentsPrefix, A.scatterItems I tileIdx i))
  (strided A.blockThreads numTileSegments).map fun item =>
    (numTileSegmentsPrefix + item, rawExchange item)

def scatter (tileIdx numTileSegments numTileSegmentsPrefix : ℕ) : List (ℕ × Option (K × V)) :=
  if 1 < A.itemsPerThread ∧ A.blockThreads < numTileSegments then
    A.scatterTwoPhase I tileIdx numTileSegments numTileSegmentsPrefix
  else A.scatterDirect I tileIdx

/-- Where the outputs of an invocation start. -/
def numUniques : ℕ := I.context.elim 0 StreamingContext.numUniques

/-- The positions of a tile's writes are relative to the outputs of the invocation. -/
def shift (writes : List (ℕ × Option (K × V))) : List (ℕ × Option (K × V)) :=
  writes.map fun w => (numUniques I + w.1, w.2)

def isLastPartition : Bool := I.context.elim true StreamingContext.lastPartition

/-- What the last thread of the last tile writes: the segment that ends with the last item if the tile is
full, and the number of segments. -/
def writeLast (tileIdx : ℕ) : Output K V :=
  let numSegments := A.numSegmentsPrefix I tileIdx + (A.blockAggregate I tileIdx).1
  let isFull := decide (A.numRemaining I tileIdx = A.tileItems)
  let closes := isFull && isLastPartition I
  let total := numUniques I + (if closes then numSegments + 1 else numSegments)
  { writes :=
      if closes then
        shift I [(numSegments, some (A.keys I tileIdx (A.tileItems - 1), (A.totalAggregate I tileIdx).2))]
      else []
    prefixOut :=
      if isFull && !isLastPartition I then some (A.totalAggregate I tileIdx).2 else none
    accumulatedUniques := if isLastPartition I then none else some total
    numRuns := if isLastPartition I then some total else none }

def consumeTile (tileIdx : ℕ) : Output K V :=
  let scattered := shift I
    (A.scatter I tileIdx (A.blockAggregate I tileIdx).1 (A.numSegmentsPrefix I tileIdx))
  Output.andThen ⟨scattered, none, none, none⟩
    (if A.isLastTile I tileIdx then A.writeLast I tileIdx else Output.empty)

/-- `ConsumeRange`: the block takes one tile, if there is something in it. -/
def consumeRange (tileIdx : ℕ) : Output K V :=
  if 0 < A.numRemaining I tileIdx then A.consumeTile I tileIdx else Output.empty

/-- `DeviceReduceByKeyKernel`, with all its blocks. -/
def kernel : ℕ → Output K V
  | 0 => Output.empty
  | n + 1 => (kernel n).andThen (A.consumeRange I n)

/-! ## 5. The partitions -/

/-- The two double buffers of the dispatch. -/
structure Buffers (V : Type*) where
  tmpPrefix : ℕ → V
  tmpNumUniques : ℕ → ℕ

/-- What an invocation leaves in the buffers. -/
def Buffers.after (b : Buffers V) (bufferSelector : ℕ) (out : Output K V) : Buffers V where
  tmpPrefix := Function.update b.tmpPrefix bufferSelector (out.prefixOut.getD (b.tmpPrefix bufferSelector))
  tmpNumUniques :=
    Function.update b.tmpNumUniques bufferSelector
      (out.accumulatedUniques.getD (b.tmpNumUniques bufferSelector))

/-- What the kernel is launched with for one partition of the input. -/
def partition (keysIn : ℕ → K) (valuesIn : ℕ → V) (partitionIdx offset size : ℕ) (isLast : Bool)
    (b : Buffers V) : Invocation K V where
  keysIn i := keysIn (offset + i)
  valuesIn i := valuesIn (offset + i)
  numItems := size
  context := some
    { firstPartition := decide (partitionIdx = 0)
      lastPartition := isLast
      predecessorKey := if partitionIdx = 0 then keysIn 0 else keysIn (offset - 1)
      precedingPrefix := b.tmpPrefix (partitionIdx % 2)
      numPreviousUniques := b.tmpNumUniques (partitionIdx % 2) }

/-- `dispatch_streaming`, from one partition on: the sizes of the partitions are given. -/
def dispatchStreaming (keysIn : ℕ → K) (valuesIn : ℕ → V) (partitionIdx offset : ℕ) :
    List ℕ → Buffers V → Output K V
  | [], _ => Output.empty
  | size :: sizes, b =>
    let I := partition keysIn valuesIn partitionIdx offset size sizes.isEmpty b
    let out := A.kernel I (A.numTiles I)
    out.andThen (dispatchStreaming keysIn valuesIn (partitionIdx + 1) (offset + size) sizes
      (b.after ((partitionIdx + 1) % 2) out))

/-- The dispatch without streaming: one launch for all items. -/
def dispatch (keysIn : ℕ → K) (valuesIn : ℕ → V) (numItems : ℕ) : Output K V :=
  let I : Invocation K V := ⟨keysIn, valuesIn, numItems, none⟩
  A.kernel I (A.numTiles I)

end Agent

end Cccl.ReduceByKey
