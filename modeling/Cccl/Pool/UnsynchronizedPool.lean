/-
# The pool resource with descriptors in its memory

`unsynchronized_pool_resource` of `pool.h`.

Behind the bytes of each block there is a descriptor: in a free block of a pool the link of the free list; in
an oversized block its sizes, its alignment and the links of two lists; and each chunk ends with its size and
the link to the next one.  An oversized block that is taken from the cache for a smaller request has its
descriptor moved down, behind the bytes of that request.

Memory is what has been allocated from the upstream resource, with the descriptors that have been written to
it.  A write loses what it overlaps.  A write outside of what is allocated, a read of a descriptor that is not
there, the use of a null pointer, a failed assertion and a wrong deallocation have no result.  The vector of
the pools is elsewhere.  Sizes wrap at 64 bits; addresses are those of memory that is there, which do not.
-/
import Cccl.Lib.Transition
import Cccl.Pool.Request
import Cccl.Pool.Upstream

namespace Cccl.Pool

open Cmath Regions

/-! ## 1. Descriptors in memory -/

/-- `oversized_block_descriptor`.  The null pointer is 0. -/
structure OversizedBlock where
  size : ℕ
  alignment : ℕ
  prev : ℕ
  next : ℕ
  nextCached : ℕ
  currentSize : ℕ

/-- `block_descriptor`, `chunk_descriptor` and `oversized_block_descriptor` -/
inductive Descriptor
  | block (next : ℕ)
  | chunk (size next : ℕ)
  | oversized (desc : OversizedBlock)

/-- `sizeof` -/
def Descriptor.bytes : Descriptor → ℕ
  | .block _ => 8
  | .chunk _ _ => 16
  | .oversized _ => 48

theorem Descriptor.bytes_pos (d : Descriptor) : 0 < d.bytes := by
  cases d <;> simp [Descriptor.bytes]

/-- The descriptors that are in memory, by their addresses. -/
abbrev Heap := ℕ → Option Descriptor

/-- What overlaps the `n` bytes from `p` on is lost. -/
def Heap.clear (h : Heap) (p n : ℕ) : Heap :=
  fun x => (h x).filter fun d => decide (Apart x d.bytes p n)

structure Memory where
  world : World
  heap : Heap

namespace Memory

def load (m : Memory) (a : ℕ) : Option Descriptor := if a = 0 then none else m.heap a

def loadBlock (m : Memory) (a : ℕ) : Option ℕ := do
  match ← m.load a with
  | .block next => some next
  | _ => none

def loadChunk (m : Memory) (a : ℕ) : Option (ℕ × ℕ) := do
  match ← m.load a with
  | .chunk size next => some (size, next)
  | _ => none

def loadOversized (m : Memory) (a : ℕ) : Option OversizedBlock := do
  match ← m.load a with
  | .oversized desc => some desc
  | _ => none

def store (m : Memory) (a : ℕ) (d : Descriptor) : Option Memory :=
  if ∃ b ∈ m.world.outstanding, b.pointer ≤ a ∧ a + d.bytes ≤ b.pointer + b.size then
    some { m with heap := fun x => if x = a then some d else m.heap.clear a d.bytes x }
  else none

/-- A part of a descriptor is written. -/
def update (m : Memory) (a : ℕ) (f : OversizedBlock → OversizedBlock) : Option Memory := do
  let desc ← m.loadOversized a
  m.store a (.oversized (f desc))

def doAllocate (u : Upstream) (size alignment : ℕ) (m : Memory) : Option ℕ × Memory :=
  let (p, w) := u.doAllocate size alignment m.world
  (p, { m with world := w })

def doDeallocate (m : Memory) (p size alignment : ℕ) : Option Memory := do
  let w ← m.world.doDeallocate p size alignment
  some ⟨w, m.heap.clear p size⟩

end Memory

/-! ## 2. The resource -/

/-- `pool` -/
structure LinkedBucket where
  freeList : ℕ
  previousAllocatedCount : ℕ

structure UnsynchronizedPool where
  pools : List LinkedBucket
  allocated : ℕ
  oversized : ℕ
  cachedOversized : ℕ

namespace UnsynchronizedPool

variable (O : PoolOptions) (u : Upstream)

/-- The constructor. -/
def create : UnsynchronizedPool where
  pools := List.replicate (ceilIlog2 O.largestBlockSize - smallestBlockLog2 O + 1) ⟨0, 0⟩
  allocated := 0
  oversized := 0
  cachedOversized := 0

/-- A cached block that may be taken for a request. -/
def isGood (bytes alignment : ℕ) (desc : OversizedBlock) : Bool :=
  decide (desc.size ≥ bytes ∧ desc.alignment ≥ alignment) &&
    !decide (desc.size / bytes ≥ O.cachedSizeCutoffFactor) &&
    !decide (desc.alignment / alignment ≥ O.cachedAlignmentCutoffFactor)

/-- The loop over the cached blocks, of which there are at most as many as there are allocations.  What is
found comes with the block before it. -/
def findCached (bytes alignment : ℕ) (m : Memory) :
    ℕ → Option ℕ → ℕ → Option (Option (Option ℕ × ℕ × OversizedBlock))
  | 0, _, _ => none
  | fuel + 1, previous, ptr =>
    if ptr = 0 then some none
    else do
      let desc ← m.loadOversized ptr
      if isGood O bytes alignment desc then some (some (previous, ptr, desc))
      else findCached bytes alignment m fuel (some ptr) desc.nextCached

/-- What comes before an oversized block gets another link. -/
def relinkPrev (desc : OversizedBlock) (next : ℕ) (R : UnsynchronizedPool) (m : Memory) :
    Option (UnsynchronizedPool × Memory) :=
  if desc.prev ≠ 0 then (m.update desc.prev fun d => { d with next := next }).map fun m => (R, m)
  else some ({ R with oversized := next }, m)

/-- What comes after an oversized block gets another link. -/
def relinkNext (desc : OversizedBlock) (prev : ℕ) (m : Memory) : Option Memory :=
  if desc.next ≠ 0 then m.update desc.next fun d => { d with prev := prev } else some m

/-- The neighbours of an oversized block get other links. -/
def relink (desc : OversizedBlock) (next prev : ℕ) (R : UnsynchronizedPool) (m : Memory) :
    Option (UnsynchronizedPool × Memory) := do
  let (R, m) ← relinkPrev desc next R m
  let m ← relinkNext desc prev m
  some (R, m)

/-- What comes before a cached block is linked to what comes after it. -/
def unlinkCached (previous : Option ℕ) (desc : OversizedBlock) (R : UnsynchronizedPool) (m : Memory) :
    Option (UnsynchronizedPool × Memory) :=
  match previous with
  | some q => (m.update q fun d => { d with nextCached := desc.nextCached }).map fun m => (R, m)
  | none => some ({ R with cachedOversized := desc.nextCached }, m)

/-- The descriptor is moved behind the first `n` bytes of the block, if it should be. -/
def moveDescriptor (move : Bool) (p n ptr : ℕ) (desc : OversizedBlock) (R : UnsynchronizedPool)
    (m : Memory) : Option (ℕ × OversizedBlock × UnsynchronizedPool × Memory) :=
  if move then do
    let desc := { desc with currentSize := n }
    let (R, m) ← relink desc (p + n) (p + n) R m
    some (p + n, desc, R, m)
  else some (ptr, desc, R, m)

/-- A cached block is taken. -/
def takeCached (bytes : ℕ) (previous : Option ℕ) (ptr : ℕ) (desc : OversizedBlock)
    (R : UnsynchronizedPool) (m : Memory) : Option (ℕ × UnsynchronizedPool × Memory) := do
  let (R, m) ← unlinkCached previous desc R m
  let desc := { desc with nextCached := 0 }
  let ret := ptr - desc.size
  let (ptr, desc, R, m) ← moveDescriptor (bytes != desc.size) ret bytes ptr desc R m
  let m ← m.store ptr (.oversized desc)
  some (ret, R, m)

/-- A new oversized block. -/
def newOversized (bytes alignment : ℕ) (R : UnsynchronizedPool) (m : Memory) :
    Option (Option ℕ × UnsynchronizedPool × Memory) :=
  match m.doAllocate u ((bytes + 48) % 2 ^ 64) alignment with
  | (none, m) => some (none, R, m)
  | (some p, m) => do
    let block := p + bytes
    let desc : OversizedBlock := ⟨bytes, alignment, 0, R.oversized, 0, bytes⟩
    let m ← m.store block (.oversized desc)
    let m ← relinkNext desc block m
    some (some p, { R with oversized := block }, m)

/-- The cached block that is taken for a request.  There may be none. -/
def searchCached (bytes alignment : ℕ) (R : UnsynchronizedPool) (m : Memory) :
    Option (Option (Option ℕ × ℕ × OversizedBlock)) :=
  if O.cacheOversized then
    findCached O bytes alignment m (m.world.outstanding.length + 1) none R.cachedOversized
  else some none

/-- The oversized part of `do_allocate`. -/
def allocateOversized (bytes alignment : ℕ) (R : UnsynchronizedPool) (m : Memory) :
    Option (Option ℕ × UnsynchronizedPool × Memory) := do
  match ← searchCached O bytes alignment R m with
  | some (previous, ptr, desc) => do
    let (p, R, m) ← takeCached bytes previous ptr desc R m
    some (some p, R, m)
  | none => newOversized u bytes alignment R m

/-- How many blocks the next chunk has, if the previous one had `previous`. -/
def blocksInChunk (previous bytesLog2 : ℕ) : ℕ :=
  if previous = 0 then
    if O.minBlocksPerChunk < O.minBytesPerChunk >>> bytesLog2 then O.minBytesPerChunk >>> bytesLog2
    else O.minBlocksPerChunk
  else
    let n := previous * 3 % 2 ^ 64 / 2
    let n := if n > O.maxBytesPerChunk >>> bytesLog2 then O.maxBytesPerChunk >>> bytesLog2 else n
    if n > O.maxBlocksPerChunk then O.maxBlocksPerChunk else n

/-- `block_size`: the bytes of a block with its descriptor, up to the next one. -/
def blockSize (bytes : ℕ) : ℕ :=
  let size := (bytes + max 8 O.alignment) % 2 ^ 64
  (size + (O.alignment - size % O.alignment)) % 2 ^ 64

/-- Blocks are pushed to a free list, each given by where its descriptor is. -/
def pushBlocks : List ℕ → ℕ → Memory → Option (ℕ × Memory)
  | [], freeList, m => some (freeList, m)
  | block :: rest, freeList, m => do
    let m ← m.store block (.block freeList)
    pushBlocks rest block m

/-- A new chunk is split into blocks.  There is none if the upstream resource has no memory. -/
def allocateChunk (bytesLog2 bucketIdx : ℕ) (R : UnsynchronizedPool) (m : Memory) :
    Option (Bool × UnsynchronizedPool × Memory) := do
  let bucket ← R.pools[bucketIdx]?
  let bytes := 1 <<< bytesLog2
  let n := blocksInChunk O bucket.previousAllocatedCount bytesLog2
  let chunkSize := blockSize O bytes * n % 2 ^ 64
  match m.doAllocate u ((chunkSize + 16) % 2 ^ 64) O.alignment with
  | (none, m) => some (false, R, m)
  | (some p, m) => do
    let chunk := p + chunkSize
    let m ← m.store chunk (.chunk chunkSize R.allocated)
    let (freeList, m) ← pushBlocks (cut (p + bytes) (blockSize O bytes) n) bucket.freeList m
    some (true, { R with
      allocated := chunk
      pools := R.pools.set bucketIdx { bucket with freeList := freeList } }, m)

/-- The front of a free list, which must not be null. -/
def takeBlock (bytesLog2 bucketIdx : ℕ) (R : UnsynchronizedPool) (m : Memory) :
    Option (ℕ × UnsynchronizedPool) := do
  let bucket ← R.pools[bucketIdx]?
  let next ← m.loadBlock bucket.freeList
  some (bucket.freeList - 1 <<< bytesLog2, { R with
    pools := R.pools.set bucketIdx { bucket with freeList := next } })

/-- The pooled part of `do_allocate`. -/
def allocatePooled (bytes : ℕ) (R : UnsynchronizedPool) (m : Memory) :
    Option (Option ℕ × UnsynchronizedPool × Memory) := do
  let bytesLog2 := ceilIlog2 bytes
  let bucketIdx := bytesLog2 - smallestBlockLog2 O
  let bucket ← R.pools[bucketIdx]?
  let (enough, R, m) ← if bucket.freeList = 0 then allocateChunk O u bytesLog2 bucketIdx R m
    else some (true, R, m)
  if enough then do
    let (p, R) ← takeBlock bytesLog2 bucketIdx R m
    some (some p, R, m)
  else some (none, R, m)

/-- `do_allocate`.  No pointer means that `bad_alloc` is thrown. -/
def doAllocate (bytes alignment : ℕ) (R : UnsynchronizedPool) (m : Memory) :
    Option (Option ℕ × UnsynchronizedPool × Memory) :=
  if isValidAlignment alignment = false then none
  else if isOversized O bytes alignment then
    allocateOversized O u (max bytes O.smallestBlockSize) alignment R m
  else allocatePooled O u (max bytes O.smallestBlockSize) R m

/-- The oversized part of `do_deallocate`. -/
def deallocateOversized (p n alignment : ℕ) (R : UnsynchronizedPool) (m : Memory) :
    Option (UnsynchronizedPool × Memory) := do
  let desc ← m.loadOversized (p + n)
  if desc.currentSize ≠ n ∨ desc.alignment ≠ alignment then none
  else if O.cacheOversized then do
    let desc := { desc with nextCached := R.cachedOversized }
    let (block, desc, R, m) ← moveDescriptor (desc.size != n) p desc.size (p + n) desc R m
    let m ← m.store block (.oversized desc)
    some ({ R with cachedOversized := block }, m)
  else do
    let (R, m) ← relink desc desc.next desc.prev R m
    let m ← m.doDeallocate p ((desc.size + 48) % 2 ^ 64) desc.alignment
    some (R, m)

/-- `do_deallocate` -/
def doDeallocate (p bytes alignment : ℕ) (R : UnsynchronizedPool) (m : Memory) :
    Option (UnsynchronizedPool × Memory) :=
  if isValidAlignment alignment = false ∨ p % alignment ≠ 0 then none
  else if isOversized O bytes alignment then
    deallocateOversized O p (max bytes O.smallestBlockSize) alignment R m
  else do
    let nLog2 := ceilIlog2 (max bytes O.smallestBlockSize)
    let bucketIdx := nLog2 - smallestBlockLog2 O
    let bucket ← R.pools[bucketIdx]?
    let block := p + 1 <<< nLog2
    let m ← m.store block (.block bucket.freeList)
    some ({ R with pools := R.pools.set bucketIdx { bucket with freeList := block } }, m)

/-- The loop of `release` over the chunks. -/
def releaseChunks : ℕ → ℕ → Memory → Option Memory
  | 0, _, _ => none
  | fuel + 1, alloc, m =>
    if alloc = 0 then some m
    else do
      let (size, next) ← m.loadChunk alloc
      let m ← m.doDeallocate (alloc - size) ((size + 16) % 2 ^ 64) O.alignment
      releaseChunks fuel next m

/-- The loop of `release` over the oversized blocks. -/
def releaseOversized : ℕ → ℕ → Memory → Option Memory
  | 0, _, _ => none
  | fuel + 1, alloc, m =>
    if alloc = 0 then some m
    else do
      let desc ← m.loadOversized alloc
      let m ← m.doDeallocate (alloc - desc.currentSize) ((desc.size + 48) % 2 ^ 64) desc.alignment
      releaseOversized fuel desc.next m

def release (R : UnsynchronizedPool) (m : Memory) : Option (UnsynchronizedPool × Memory) := do
  let m ← releaseChunks O (m.world.outstanding.length + 1) R.allocated m
  let m ← releaseOversized (m.world.outstanding.length + 1) R.oversized m
  some (⟨R.pools.map fun _ => ⟨0, 0⟩, 0, 0, 0⟩, m)

/-! ## 3. Runs -/

/-- The resource with its memory, and the blocks of the user. -/
structure Sys where
  resource : UnsynchronizedPool
  memory : Memory
  live : List Live

inductive Action
  | allocate (request : Request)
  | deallocate (i : ℕ)
  | write (i : ℕ)
  | release

/-- An action of the user, who may write to all bytes of his blocks, and gives them back with the size and
the alignment of their allocation. -/
def act (s : Sys) : Action → Option Sys
  | .allocate request => do
    match ← doAllocate O u request.bytes request.alignment s.resource s.memory with
    | (some p, R, m) => some ⟨R, m, ⟨p, request⟩ :: s.live⟩
    | (none, R, m) => some ⟨R, m, s.live⟩
  | .deallocate i =>
    match s.live[i]? with
    | some b => do
      let (R, m) ← doDeallocate O b.pointer b.request.bytes b.request.alignment s.resource s.memory
      some ⟨R, m, s.live.eraseIdx i⟩
    | none => some s
  | .write i =>
    match s.live[i]? with
    | some b =>
      some { s with memory.heap := s.memory.heap.clear b.pointer b.request.bytes }
    | none => some s
  | .release => do
    let (R, m) ← release O s.resource s.memory
    some ⟨R, m, []⟩

/-- All runs of a resource, restricted to some actions. -/
def runs (use : Sys → Action → Prop) : Lts Sys Action where
  init s := s = ⟨create O, ⟨⟨0, []⟩, fun _ => none⟩, []⟩
  step s a s' := use s a ∧ act O u s a = some s'

end UnsynchronizedPool

end Cccl.Pool
