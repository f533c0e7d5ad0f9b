/-
# Which place owns which bytes

`for_each_owner_byte_run`, `min_owner_run_elems`, `try_block_owners` and `try_block_runs` of
`cute_partition.cuh`.

A tensor is stored without padding, the first dimension varying fastest.  The walk goes through its rows
and asks for the owner once in each segment of a row that lies within a multiple of the smallest stride
of a leaf of places; segments that follow each other and have one owner are merged into runs, which are
handed to a callback as soon as they are complete.  The callback can stop the walk.

From the runs, `try_block_owners` counts for each block of memory how many of its bytes each place owns,
and gives the block to a place that owns most of them; `try_block_runs` looks whether all runs begin at
blocks.
-/
import Cccl.Lib.Runs
import Cccl.Places.CutePartition

namespace Cccl.Places

/-! ## 1. The walk -/

/-- The state of the walk: the pending run, whether to go on, and the state of the callback. -/
structure Walk (σ : Type*) where
  run : Run Pos4
  keepGoing : Bool
  state : σ

variable {σ : Type*}

/-- `push`: a segment continues the pending run, or the run is complete. -/
def Walk.push (emit : Run Pos4 → σ → Bool × σ) (w : Walk σ) (segment : Run Pos4) : Walk σ :=
  if 0 < w.run.len ∧ w.run.label = segment.label ∧
      sizeT (w.run.start + w.run.len) = segment.start then
    { w with run := ⟨w.run.start, sizeT (w.run.len + segment.len), w.run.label⟩ }
  else if 0 < w.run.len then
    let (keepGoing, state) := emit w.run w.state
    ⟨segment, keepGoing, state⟩
  else { w with run := segment }

/-- The loops over the segments of all rows, which end when the walk is not to go on. -/
def Walk.segments (emit : Run Pos4 → σ → Bool × σ) : List (Run Pos4) → Walk σ → Walk σ
  | [], w => w
  | segment :: rest, w => if w.keepGoing then segments emit rest (w.push emit segment) else w

/-- The last run is handed over after the loops. -/
def Walk.finish (emit : Run Pos4 → σ → Bool × σ) (w : Walk σ) : Bool × σ :=
  if w.keepGoing ∧ 0 < w.run.len then emit w.run w.state else (w.keepGoing, w.state)

namespace CutePartitionDescriptor

variable (D : CutePartitionDescriptor)

/-- `min_owner_run_elems`: the smallest stride of a leaf of places with more than one digit. -/
def minOwnerRunElems : ℕ :=
  D.placeLeaves.foldl
    (fun s l => if 1 < l.extent then if s = 0 then l.size else min s l.size else s) 0

/-- The segments of a row from `x0` on, at most `n` of them.  `ind` elements are in the rows before. -/
def rowSegments (elemsize s ind x1 x2 x3 : ℕ) : ℕ → ℕ → List (Run Pos4)
  | 0, _ => []
  | n + 1, x0 =>
    if x0 < D.trueDims.x then
      let ps1 := D.paddedDims.x
      let ps2 := sizeT (ps1 * D.paddedDims.y)
      let ps3 := sizeT (ps2 * D.paddedDims.z)
      let rowPadBase := sizeT (x1 * ps1 + x2 * ps2 + x3 * ps3)
      let padPos := sizeT (rowPadBase + x0)
      let seg := min (D.trueDims.x - x0) (s - padPos % s)
      ⟨sizeT ((ind + x0) * elemsize), sizeT (seg * elemsize), D.owner ⟨x0, x1, x2, x3⟩⟩ ::
        rowSegments elemsize s ind x1 x2 x3 n (x0 + seg)
    else []

/-- The rows in the order of the loops, as `(x1, x2, x3)`. -/
def rows : List (ℕ × ℕ × ℕ) :=
  (List.range D.trueDims.t).flatMap fun x3 => (List.range D.trueDims.z).flatMap fun x2 =>
    (List.range D.trueDims.y).map fun x1 => (x1, x2, x3)

/-- The segments of some rows. -/
def segments (elemsize s : ℕ) : ℕ → List (ℕ × ℕ × ℕ) → List (Run Pos4)
  | _, [] => []
  | ind, (x1, x2, x3) :: rest =>
    D.rowSegments elemsize s ind x1 x2 x3 D.trueDims.x 0 ++
      segments elemsize s (sizeT (ind + D.trueDims.x)) rest

def forEachOwnerByteRun (elemsize maxRuns : ℕ) (emit : Run Pos4 → σ → Bool × σ) (state : σ) :
    Bool × σ :=
  let s := D.minOwnerRunElems
  if s = 0 then
    emit ⟨0, sizeT (D.trueDims.x * D.trueDims.y * D.trueDims.z * D.trueDims.t * elemsize),
      D.owner ⟨0, 0, 0, 0⟩⟩ state
  else if maxRuns < sizeT (D.trueDims.y * D.trueDims.z * D.trueDims.t * (D.trueDims.x / s + 2)) then
    (false, state)
  else
    (Walk.segments emit (D.segments elemsize s 0 D.rows) ⟨⟨0, 0, ⟨0, 0, 0, 0⟩⟩, true, state⟩).finish
      emit

/-! ## 2. Owners of blocks -/

/-- The number of bytes of the tensor. -/
def totalBytes (elemsize : ℕ) : ℕ := sizeT (D.trueDims.size * elemsize)

def numBlocks (blockSize elemsize : ℕ) : ℕ :=
  sizeT (D.totalBytes elemsize + blockSize - 1) / blockSize

/-- The bound on the number of runs, or the default one. -/
def budget (blockSize elemsize maxRuns : ℕ) : ℕ :=
  if maxRuns = 0 then max (sizeT (16 * D.numBlocks blockSize elemsize)) (2 ^ 16) else maxRuns

end CutePartitionDescriptor

/-- The state of the census: the owners of the blocks before, the bytes of the current block by owner,
the number of the block, and the bytes that are not where their owner is. -/
structure Census where
  owners : List Pos4
  hist : List (Pos4 × ℕ)
  curBlock : ℕ
  misplacedBytes : ℕ

/-- The first owner of most bytes, with their number: the loop of `close_block`. -/
def bestOwner (hist : List (Pos4 × ℕ)) : Pos4 × ℕ :=
  hist.foldl (fun best e => if best.2 < e.2 then e else best) (⟨0, 0, 0, 0⟩, 0)

def Census.closeBlock (c : Census) : Census where
  owners := c.owners ++ [(bestOwner c.hist).1]
  hist := []
  curBlock := c.curBlock
  misplacedBytes :=
    sizeT (c.misplacedBytes + ((c.hist.map Prod.snd).sum - (bestOwner c.hist).2))

/-- `feed`: a run is cut into the parts that belong to different blocks.  With too little fuel there is
no result. -/
def Census.feed (blockSize : ℕ) (o : Pos4) : ℕ → ℕ → ℕ → Census → Option Census
  | 0, _, _, _ => none
  | fuel + 1, byteStart, byteLen, c =>
    if 0 < byteLen then
      let blockEnd := sizeT ((c.curBlock + 1) * blockSize)
      if blockEnd ≤ byteStart then
        feed blockSize o fuel byteStart byteLen
          { c.closeBlock with curBlock := c.curBlock + 1 }
      else
        let chunk := min byteLen (blockEnd - byteStart)
        feed blockSize o fuel (byteStart + chunk) (byteLen - chunk)
          { c with hist := addTo o chunk c.hist }
    else some c

namespace CutePartitionDescriptor

variable (D : CutePartitionDescriptor)

/-- `try_block_owners`: the owners of the blocks, if the walk is within its budget, and the misplaced
bytes. -/
def tryBlockOwners (blockSize elemsize maxRuns fuel : ℕ) : Option (Option (List Pos4) × ℕ) :=
  let emit (r : Run Pos4) (c : Option Census) : Bool × Option Census :=
    (true, c.bind (Census.feed blockSize r.label fuel r.start r.len))
  match D.forEachOwnerByteRun elemsize (D.budget blockSize elemsize maxRuns) emit
    (some ⟨[], [], 0, 0⟩) with
  | (_, none) => none
  | (false, some c) => some (none, c.misplacedBytes)
  | (true, some c) =>
    let c := if c.hist = [] then c else c.closeBlock
    some (some c.owners, c.misplacedBytes)

structure BlockRun where
  owner : Pos4
  firstBlock : ℕ
  numBlocks : ℕ
  deriving DecidableEq

/-- The callback of `try_block_runs`, with `aligned` and the runs of blocks as its state. -/
def alignedRun (blockSize total : ℕ) (r : Run Pos4) (s : Bool × List BlockRun) :
    Bool × (Bool × List BlockRun) :=
  if r.start % blockSize ≠ 0 then (false, (false, s.2))
  else
    let count := sizeT (min (sizeT (r.start + r.len)) total - r.start + blockSize - 1) / blockSize
    (true, (s.1, s.2 ++ [⟨r.label, r.start / blockSize, count⟩]))

def tryBlockRuns (blockSize elemsize maxRuns : ℕ) : Option (List BlockRun) :=
  match D.forEachOwnerByteRun elemsize (D.budget blockSize elemsize maxRuns)
    (alignedRun blockSize (D.totalBytes elemsize)) (true, []) with
  | (true, true, runs) => some runs
  | _ => none

end CutePartitionDescriptor

end Cccl.Places
