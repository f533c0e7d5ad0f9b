/-
# The disjoint pool resource

`disjoint_unsynchronized_pool_resource` of `disjoint_pool.h`.

Blocks of a power of two are cut from chunks, of which the free ones are in a list for each size.  What is
too large for that, or aligned too much, is allocated from the upstream resource, and may be cached when it
is given back.  All book-keeping is in vectors apart from the blocks.  If the upstream resource has no
memory, then what is not used is given back to it, and the allocation is tried again.

A failed assertion, an access outside of a vector and a wrong deallocation have no result.  The vectors are
allocated elsewhere, where there is memory.  Sizes wrap at 64 bits; addresses are those of memory that is
there, which do not.
-/
import Cccl.Lib.Transition
import Cccl.Pool.Request
import Cccl.Pool.Upstream

namespace Cccl.Pool

open Cmath Regions

/-! ## 1. The resource -/

structure ChunkDescriptor where
  size : ℕ
  pointer : ℕ
  poolIdx : ℕ
deriving DecidableEq

structure OversizedBlockDescriptor where
  size : ℕ
  alignment : ℕ
  pointer : ℕ
deriving DecidableEq

def ChunkDescriptor.allocation (alignment : ℕ) (c : ChunkDescriptor) : Allocation :=
  ⟨c.pointer, c.size, alignment⟩

def OversizedBlockDescriptor.allocation (d : OversizedBlockDescriptor) : Allocation :=
  ⟨d.pointer, d.size, d.alignment⟩

/-- `operator<` -/
def OversizedBlockDescriptor.below (a b : OversizedBlockDescriptor) : Bool :=
  decide (a.size < b.size ∨ a.size = b.size ∧ a.alignment < b.alignment)

/-- `pool` -/
structure Bucket where
  freeBlocks : List ℕ
  previousAllocatedCount : ℕ

structure DisjointPool where
  pools : List Bucket
  allocated : List ChunkDescriptor
  cachedOversized : List OversizedBlockDescriptor
  oversized : List OversizedBlockDescriptor

namespace DisjointPool

variable (O : PoolOptions) (u : Upstream)

/-- The size of the blocks of a pool. -/
def bucketSize (poolIdx : ℕ) : ℕ := 1 <<< (poolIdx + smallestBlockLog2 O)

/-- The constructor. -/
def create : DisjointPool where
  pools := List.replicate (ceilIlog2 O.largestBlockSize - smallestBlockLog2 O + 1) ⟨[], 0⟩
  allocated := []
  cachedOversized := []
  oversized := []

/-- `lower_bound`, on a list in which what is below `x` comes first. -/
def lowerBound (l : List OversizedBlockDescriptor) (x : OversizedBlockDescriptor) : Option ℕ :=
  let i := l.findIdx fun d => !d.below x
  if (l.drop i).all fun d => !d.below x then some i else none

/-- `find_if`, from some position on. -/
def findFrom (l : List OversizedBlockDescriptor) (first : ℕ) (p : OversizedBlockDescriptor → Bool) :
    Option (ℕ × OversizedBlockDescriptor) :=
  ((l.drop first).findIdx? p).bind fun i => ((l.drop first)[i]?).map fun d => (first + i, d)

/-- The cached block that is taken for a request, with its position.  There may be none. -/
def findCached (bytes alignment : ℕ) (cached : List OversizedBlockDescriptor) :
    Option (Option (ℕ × OversizedBlockDescriptor)) :=
  if O.cacheOversized = true ∧ cached ≠ [] then do
    let i ← lowerBound cached ⟨bytes, alignment, 0⟩
    let it := (cached[i]?).map fun d => (i, d)
    let it := it.filter fun d => !decide (O.cachedSizeCutoffFactor ≤ d.2.size / bytes)
    let it := it.bind fun d =>
      if d.2.alignment < alignment then
        findFrom cached (d.1 + 1) fun d => decide (alignment ≤ d.alignment)
      else some d
    some (it.filter fun d => !decide (O.cachedAlignmentCutoffFactor ≤ d.2.alignment / alignment))
  else some none

/-- The oversized part of `do_allocate_impl`. -/
def allocateOversized (bytes alignment : ℕ) (R : DisjointPool) (w : World) :
    Option (Option ℕ × DisjointPool × World) := do
  match ← findCached O bytes alignment R.cachedOversized with
  | some (i, d) =>
    some (some d.pointer, { R with cachedOversized := R.cachedOversized.eraseIdx i }, w)
  | none =>
    match u.doAllocate bytes alignment w with
    | (none, w) => some (none, R, w)
    | (some p, w) => some (some p, { R with oversized := R.oversized ++ [⟨bytes, alignment, p⟩] }, w)

/-- A new chunk is split into blocks, which are pushed to the free list.  There is none if the upstream
resource has no memory. -/
def allocateChunk (bytesLog2 poolIdx : ℕ) (R : DisjointPool) (w : World) :
    Option (Bool × DisjointPool × World) := do
  let bucket ← R.pools[poolIdx]?
  let n := O.blocksPerChunk bucket.previousAllocatedCount bytesLog2
  let bytes := (n <<< bytesLog2) % 2 ^ 64
  if n ≥ O.minBlocksPerChunk ∧ n ≤ O.maxBlocksPerChunk ∧ bytes ≥ O.minBytesPerChunk ∧
      bytes ≤ O.maxBytesPerChunk then
    match u.doAllocate bytes O.alignment w with
    | (none, w) => some (false, R, w)
    | (some p, w) =>
      some (true, { R with
        allocated := R.allocated ++ [⟨bytes, p, poolIdx⟩]
        pools := R.pools.set poolIdx ⟨bucket.freeBlocks ++ cut p (1 <<< bytesLog2) n, n⟩ }, w)
  else none

/-- A block from the free list, which must not be empty. -/
def takeBlock (poolIdx : ℕ) (R : DisjointPool) : Option (ℕ × DisjointPool) := do
  let bucket ← R.pools[poolIdx]?
  let p ← bucket.freeBlocks.getLast?
  some (p, { R with
    pools := R.pools.set poolIdx { bucket with freeBlocks := bucket.freeBlocks.dropLast } })

/-- The pooled part of `do_allocate_impl`. -/
def allocatePooled (bytes : ℕ) (R : DisjointPool) (w : World) :
    Option (Option ℕ × DisjointPool × World) := do
  let bytesLog2 := ceilIlog2 bytes
  let poolIdx := bytesLog2 - smallestBlockLog2 O
  let bucket ← R.pools[poolIdx]?
  let (enough, R, w) ← if bucket.freeBlocks = [] then allocateChunk O u bytesLog2 poolIdx R w
    else some (true, R, w)
  if enough then do
    let (p, R) ← takeBlock poolIdx R
    some (some p, R, w)
  else some (none, R, w)

/-- `do_allocate_impl`.  No pointer means that `bad_alloc` is thrown. -/
def doAllocateImpl (bytes alignment : ℕ) (R : DisjointPool) (w : World) :
    Option (Option ℕ × DisjointPool × World) :=
  if isValidAlignment alignment = false then none
  else if isOversized O bytes alignment then
    allocateOversized O u (max bytes O.smallestBlockSize) alignment R w
  else allocatePooled O u (max bytes O.smallestBlockSize) R w

/-- Each of some blocks is erased from the free list, in which it must be. -/
def eraseBlocks : List ℕ → List ℕ → Option (List ℕ)
  | [], free => some free
  | p :: blocks, free => if p ∈ free then eraseBlocks blocks (free.erase p) else none

/-- The first loop of `squeeze`, over the chunks.  It returns those that are in use. -/
def squeezeChunks : List ChunkDescriptor → List Bucket → World →
    Option (List ChunkDescriptor × List Bucket × World)
  | [], pools, w => some ([], pools, w)
  | chunk :: rest, pools, w => do
    let bucket ← pools[chunk.poolIdx]?
    let blocks := cut chunk.pointer (bucketSize O chunk.poolIdx)
      (chunk.size / bucketSize O chunk.poolIdx)
    if chunk.size % bucketSize O chunk.poolIdx ≠ 0 then none
    else if ∀ p ∈ blocks, p ∈ bucket.freeBlocks then do
      let free ← eraseBlocks blocks bucket.freeBlocks
      let w ← w.doDeallocate chunk.pointer chunk.size O.alignment
      squeezeChunks rest (pools.set chunk.poolIdx { bucket with freeBlocks := free }) w
    else do
      let (kept, pools, w) ← squeezeChunks rest pools w
      some (chunk :: kept, pools, w)

/-- The second loop of `squeeze`, over the cached blocks. -/
def squeezeCached : List OversizedBlockDescriptor → List OversizedBlockDescriptor → World →
    Option (List OversizedBlockDescriptor × World)
  | [], oversized, w => some (oversized, w)
  | d :: rest, oversized, w => do
    let w ← w.doDeallocate d.pointer d.size d.alignment
    if d ∈ oversized then squeezeCached rest (oversized.erase d) w else none

def squeeze (R : DisjointPool) (w : World) : Option (DisjointPool × World) := do
  let (allocated, pools, w) ← squeezeChunks O R.allocated R.pools w
  let (oversized, w) ← squeezeCached R.cachedOversized R.oversized w
  some (⟨pools, allocated, [], oversized⟩, w)

/-- `do_allocate` -/
def doAllocate (bytes alignment : ℕ) (R : DisjointPool) (w : World) :
    Option (Option ℕ × DisjointPool × World) := do
  match ← doAllocateImpl O u bytes alignment R w with
  | (some p, R, w) => some (some p, R, w)
  | (none, R, w) =>
    let (R, w) ← squeeze O R w
    doAllocateImpl O u bytes alignment R w

/-- `do_deallocate` -/
def doDeallocate (p n alignment : ℕ) (R : DisjointPool) (w : World) : Option (DisjointPool × World) :=
  if isValidAlignment alignment = false ∨ p % alignment ≠ 0 then none
  else if isOversized O n alignment then do
    let i ← R.oversized.findIdx? fun d => d.pointer == p
    let oversized ← R.oversized[i]?
    if O.cacheOversized then do
      let position ← lowerBound R.cachedOversized oversized
      some ({ R with cachedOversized := R.cachedOversized.insertIdx position oversized }, w)
    else do
      let w ← w.doDeallocate p oversized.size oversized.alignment
      some ({ R with oversized := R.oversized.eraseIdx i }, w)
  else do
    let poolIdx := ceilIlog2 (max n O.smallestBlockSize) - smallestBlockLog2 O
    let bucket ← R.pools[poolIdx]?
    some ({ R with
      pools := R.pools.set poolIdx { bucket with freeBlocks := bucket.freeBlocks ++ [p] } }, w)

def release (R : DisjointPool) (w : World) : Option (DisjointPool × World) := do
  let w ← giveBack (R.allocated.map (ChunkDescriptor.allocation O.alignment)) w
  let w ← giveBack (R.oversized.map OversizedBlockDescriptor.allocation) w
  some (⟨R.pools.map fun _ => ⟨[], 0⟩, [], [], []⟩, w)

/-! ## 2. Runs -/

/-- The resource with its upstream, and the blocks of the user. -/
structure Sys where
  resource : DisjointPool
  world : World
  live : List Live

inductive Action
  | allocate (request : Request)
  | deallocate (i : ℕ)
  | squeeze
  | release

variable (O : PoolOptions) (u : Upstream)

/-- An action of the user, who gives back blocks with the size and the alignment of their allocation. -/
def act (s : Sys) : Action → Option Sys
  | .allocate request => do
    match ← doAllocate O u request.bytes request.alignment s.resource s.world with
    | (some p, R, w) => some ⟨R, w, ⟨p, request⟩ :: s.live⟩
    | (none, R, w) => some ⟨R, w, s.live⟩
  | .deallocate i =>
    match s.live[i]? with
    | some b => do
      let (R, w) ← doDeallocate O b.pointer b.request.bytes b.request.alignment s.resource s.world
      some ⟨R, w, s.live.eraseIdx i⟩
    | none => some s
  | .squeeze => do
    let (R, w) ← squeeze O s.resource s.world
    some ⟨R, w, s.live⟩
  | .release => do
    let (R, w) ← release O s.resource s.world
    some ⟨R, w, []⟩

/-- All runs of a resource. -/
def runs : Lts Sys Action where
  init s := s = ⟨create O, ⟨0, []⟩, []⟩
  step s a s' := act O u s a = some s'

end DisjointPool

end Cccl.Pool
