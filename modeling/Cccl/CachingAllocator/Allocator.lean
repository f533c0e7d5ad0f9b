/-
# `CachingDeviceAllocator`

Device memory that is given back is kept in `cached_blocks`, and given out again from there.  A block comes from
`cudaMalloc` with an event of its own; the event is recorded when the block is given back, and it tells whether the
work of its stream is done when another stream asks for the block.  If `cudaMalloc` is out of memory, the cached blocks
of the device are freed, and it is called again.

The functions are programs on the allocator and on the history of the runtime.  They leave early as the source does, at
every call of the runtime that it checks, and with the allocator as it is at that point.
-/
import Cccl.CachingAllocator.Runtime
import Cccl.Lib.Exits
import Mathlib

namespace Cccl.CachingAllocator

/-! ## 1. Fields -/

def invalidBin : BitVec 32 := -1

def invalidDeviceOrdinal : ℤ := -1

structure BlockDescriptor where
  dPtr : ℕ
  bytes : BitVec 64
  bin : BitVec 32
  device : ℤ
  associatedStream : ℕ
  readyEvent : ℕ
  deriving DecidableEq

def ptrCompare (a b : BlockDescriptor) : Bool := if a.device = b.device then a.dPtr < b.dPtr else a.device < b.device

def sizeCompare (a b : BlockDescriptor) : Bool :=
  if a.device = b.device then a.bytes < b.bytes else a.device < b.device

structure TotalBytes where
  free : BitVec 64
  live : BitVec 64
  deriving DecidableEq

/-- `insert` of a `multiset`: behind all elements that are not greater. -/
def insertBlock (less : BlockDescriptor → BlockDescriptor → Bool) (b : BlockDescriptor) :
    List BlockDescriptor → List BlockDescriptor
  | [] => [b]
  | x :: l => if less b x then b :: x :: l else x :: insertBlock less b l

structure CachingDeviceAllocator where
  binGrowth : BitVec 32
  minBin : BitVec 32
  maxBin : BitVec 32
  minBinBytes : BitVec 64
  maxCachedBytes : BitVec 64
  cachedBytes : ℤ → TotalBytes
  cachedBlocks : List BlockDescriptor
  liveBlocks : List BlockDescriptor

/-- The loop of `IntPow`. -/
def intPowLoop : ℕ → BitVec 32 → BitVec 32 → BitVec 32 → BitVec 32
  | 0, _, _, retval => retval
  | fuel + 1, base, exp, retval =>
    if 0 < exp then intPowLoop fuel (base * base) (exp >>> 1) (if exp &&& 1 = 1 then retval * base else retval)
    else retval

/-- `IntPow`.  After 32 rounds, nothing is left of the exponent. -/
def intPow (base exp : BitVec 32) : BitVec 32 := intPowLoop 32 base exp 1

/-- The loop of `NearestPowerOf`. -/
def nearestPowerLoop (base : BitVec 32) (value : BitVec 64) : ℕ → BitVec 32 → BitVec 64 → Option (BitVec 32 × BitVec 64)
  | 0, _, _ => none
  | fuel + 1, power, roundedBytes =>
    if roundedBytes < value then nearestPowerLoop base value fuel (power + 1) (roundedBytes * base.setWidth 64)
    else some (power, roundedBytes)

/-- `NearestPowerOf`: the power and the rounded bytes.  If the loop does not end after as many rounds as there are
values of `rounded_bytes`, then it never does. -/
def nearestPowerOf (base : BitVec 32) (value : BitVec 64) : Option (BitVec 32 × BitVec 64) :=
  if value * base.setWidth 64 < value then some (64, -1) else nearestPowerLoop base value (2 ^ 64) 0 1

namespace CachingDeviceAllocator

/-- The constructor. -/
def create (binGrowth minBin maxBin : BitVec 32) (maxCachedBytes : BitVec 64) : CachingDeviceAllocator where
  binGrowth := binGrowth
  minBin := minBin
  maxBin := maxBin
  minBinBytes := (intPow binGrowth minBin).setWidth 64
  maxCachedBytes := maxCachedBytes
  cachedBytes := fun _ => ⟨0, 0⟩
  cachedBlocks := []
  liveBlocks := []

variable (a : CachingDeviceAllocator) (device : ℤ) (b : BlockDescriptor) (others : List BlockDescriptor)

/-- The block becomes live. -/
def addLive : CachingDeviceAllocator :=
  { a with
    liveBlocks := insertBlock ptrCompare b a.liveBlocks
    cachedBytes := Function.update a.cachedBytes device
      ⟨(a.cachedBytes device).free, (a.cachedBytes device).live + b.bytes⟩ }

/-- The block becomes cached. -/
def addCached : CachingDeviceAllocator :=
  { a with
    cachedBlocks := insertBlock sizeCompare b a.cachedBlocks
    cachedBytes := Function.update a.cachedBytes device
      ⟨(a.cachedBytes device).free + b.bytes, (a.cachedBytes device).live⟩ }

/-- Only the others stay live. -/
def removeLive : CachingDeviceAllocator :=
  { a with
    liveBlocks := others
    cachedBytes := Function.update a.cachedBytes device
      ⟨(a.cachedBytes device).free, (a.cachedBytes device).live - b.bytes⟩ }

/-- Only the others stay cached. -/
def removeCached : CachingDeviceAllocator :=
  { a with
    cachedBlocks := others
    cachedBytes := Function.update a.cachedBytes device
      ⟨(a.cachedBytes device).free - b.bytes, (a.cachedBytes device).live⟩ }

end CachingDeviceAllocator

/-- The allocator in a call, with the calls of the runtime before this call and during it. -/
structure Session where
  allocator : CachingDeviceAllocator
  past : History
  calls : History

namespace Session

variable (s : Session)

def history : History := s.calls ++ s.past

def log (c : RuntimeCall) : Session := { s with calls := c :: s.calls }

def update (f : CachingDeviceAllocator → CachingDeviceAllocator) : Session := { s with allocator := f s.allocator }

end Session

/-- How a call ends that does not reach its end: with an error, or not at all. -/
inductive Exit
  | returns (error : CudaError) (failed : error ≠ .success)
  | runsForever

abbrev Call := Program Exit Session

/-! ## 2. The runtime -/

variable (runtime : Runtime)

/-- A call of the runtime. -/
def invoke (c : CudaError → RuntimeCall) : Call CudaError := fun s =>
  (.ok (runtime.error s.history), s.log (c (runtime.error s.history)))

/-- A return under an error. -/
def check (error : CudaError) : Call Unit :=
  if h : error = .success then pure () else .exit (.returns error h)

def cudaGetDevice : Call (CudaError × ℤ) := do
  let s ← Program.state
  let error ← invoke runtime (.getDevice (runtime.device s.history))
  pure (error, runtime.device s.history)

def cudaSetDevice (device : ℤ) : Call CudaError := invoke runtime (.setDevice device)

/-- `cudaMalloc`.  If it fails, the pointer stays as it was. -/
def cudaMalloc (dPtr : ℕ) (bytes : BitVec 64) : Call (CudaError × ℕ) := do
  let s ← Program.state
  let error ← invoke runtime (.malloc (runtime.address s.history) bytes)
  pure (error, if error = .success then runtime.address s.history else dPtr)

def cudaFree (dPtr : ℕ) : Call CudaError := invoke runtime (.free dPtr)

/-- `cudaEventCreateWithFlags`. -/
def cudaEventCreate : Call (CudaError × ℕ) := do
  let s ← Program.state
  let error ← invoke runtime (.eventCreate (runtime.event s.history))
  pure (error, runtime.event s.history)

def cudaEventRecord (event stream : ℕ) : Call CudaError := invoke runtime (.eventRecord event stream)

def cudaEventQuery (event : ℕ) : Call CudaError := invoke runtime (.eventQuery event)

def cudaEventDestroy (event : ℕ) : Call CudaError := invoke runtime (.eventDestroy event)

/-! ## 3. Devices -/

/-- The device of a call, and the entry-point device if it is known. -/
def resolveDevice (device : ℤ) : Call (ℤ × ℤ) :=
  if device = invalidDeviceOrdinal then do
    let (error, entrypointDevice) ← cudaGetDevice runtime
    check error
    pure (entrypointDevice, entrypointDevice)
  else pure (device, invalidDeviceOrdinal)

/-- Makes the device the current one.  The result is the entry-point device. -/
def enterDevice (device entrypointDevice : ℤ) : Call ℤ :=
  if device ≠ entrypointDevice then do
    let (error, entrypointDevice) ← cudaGetDevice runtime
    check error
    let error ← cudaSetDevice runtime device
    check error
    pure entrypointDevice
  else pure entrypointDevice

/-- Reverts back to the entry-point device. -/
def leaveDevice (device entrypointDevice : ℤ) : Call Unit :=
  if entrypointDevice ≠ invalidDeviceOrdinal ∧ entrypointDevice ≠ device then do
    let error ← cudaSetDevice runtime entrypointDevice
    check error
  else pure ()

/-! ## 4. `DeviceAllocate` -/

/-- A block of the same bin that is from the active stream or from an idle one, and the blocks without it. -/
def searchCached (key : BlockDescriptor) :
    List BlockDescriptor → Call (Option (BlockDescriptor × List BlockDescriptor))
  | [] => pure none
  | b :: blocks =>
    if b.device = key.device ∧ b.bin = key.bin then
      if key.associatedStream = b.associatedStream then pure (some (b, blocks))
      else do
        let eventStatus ← cudaEventQuery runtime b.readyEvent
        if eventStatus ≠ .notReady then pure (some (b, blocks))
        else do
          let found ← searchCached key blocks
          pure (found.map fun (block, others) => (block, b :: others))
    else pure none

/-- Reuses a cached block, if there is one. -/
def reuseBlock (key : BlockDescriptor) : Call (Option BlockDescriptor) := do
  let s ← Program.state
  let before := s.allocator.cachedBlocks.takeWhile (sizeCompare · key)
  let found ← searchCached runtime key (s.allocator.cachedBlocks.dropWhile (sizeCompare · key))
  match found with
  | none => pure none
  | some (block, others) => do
    let block' := { block with associatedStream := key.associatedStream }
    Program.change (·.update fun a =>
      (a.removeCached key.device block (before ++ others)).addLive key.device block')
    pure (some block')

/-- Frees the cached blocks of the device, from the first one on. -/
def freeDeviceBlocks (device : ℤ) (before : List BlockDescriptor) : List BlockDescriptor → Call CudaError
  | [] => pure .success
  | b :: blocks =>
    if b.device = device then do
      let error ← cudaFree runtime b.dPtr
      if error ≠ .success then pure error
      else do
        let error ← cudaEventDestroy runtime b.readyEvent
        if error ≠ .success then pure error
        else do
          Program.change (·.update (·.removeCached device b (before ++ blocks)))
          freeDeviceBlocks device before blocks
    else pure .success

/-- The memory of a new block.  If the runtime is out of memory, all cached blocks of the device are freed.  Another
error is not looked at. -/
def allocateMemory (key : BlockDescriptor) : Call ℕ := do
  let (error, dPtr) ← cudaMalloc runtime key.dPtr key.bytes
  if error = .memoryAllocation then do
    let s ← Program.state
    let freeKey : BlockDescriptor := ⟨0, 0, invalidBin, key.device, 0, 0⟩
    let error ← freeDeviceBlocks runtime key.device (s.allocator.cachedBlocks.takeWhile (sizeCompare · freeKey))
      (s.allocator.cachedBlocks.dropWhile (sizeCompare · freeKey))
    check error
    let (error, dPtr) ← cudaMalloc runtime dPtr key.bytes
    check error
    pure dPtr
  else pure dPtr

/-- A new block. -/
def allocateBlock (key : BlockDescriptor) : Call ℕ := do
  let dPtr ← allocateMemory runtime key
  let (error, readyEvent) ← cudaEventCreate runtime
  check error
  Program.change (·.update (·.addLive key.device { key with dPtr := dPtr, readyEvent := readyEvent }))
  pure dPtr

/-- The bin of a request, its size, and whether it is looked for in the cache. -/
def requestSize (a : CachingDeviceAllocator) (bytes : BitVec 64) : Option (BitVec 32 × BitVec 64 × Bool) :=
  (nearestPowerOf a.binGrowth bytes).map fun (bin, roundedBytes) =>
    if a.maxBin < bin then (invalidBin, bytes, false)
    else if bin < a.minBin then (a.minBin, a.minBinBytes, true)
    else (bin, roundedBytes, true)

/-- Only requests up to the maximum bin are looked for in the cache. -/
def lookUp (cacheable : Bool) (key : BlockDescriptor) : Call (Option BlockDescriptor) :=
  if cacheable then reuseBlock runtime key else pure none

/-- `DeviceAllocate`: the pointer, if it returns `cudaSuccess`. -/
def deviceAllocate (device : ℤ) (bytes : BitVec 64) (activeStream : ℕ) : Call ℕ := do
  let (device, entrypointDevice) ← resolveDevice runtime device
  let s ← Program.state
  match requestSize s.allocator bytes with
  | none => Program.exit .runsForever
  | some (bin, bytes, cacheable) => do
    let key : BlockDescriptor := ⟨0, bytes, bin, device, activeStream, 0⟩
    let found ← lookUp runtime cacheable key
    match found with
    | some block => pure block.dPtr
    | none => do
      let entrypointDevice ← enterDevice runtime device entrypointDevice
      let dPtr ← allocateBlock runtime key
      leaveDevice runtime device entrypointDevice
      pure dPtr

/-! ## 5. `DeviceFree` -/

/-- `find` of `live_blocks`: the block, and the blocks without it. -/
def findLive (device : ℤ) (dPtr : ℕ) : List BlockDescriptor → Option (BlockDescriptor × List BlockDescriptor)
  | [] => none
  | b :: blocks =>
    if b.device = device ∧ b.dPtr = dPtr then some (b, blocks)
    else (findLive device dPtr blocks).map fun (block, others) => (block, b :: others)

/-- Frees the memory and destroys the event. -/
def freeBlock (dPtr readyEvent : ℕ) : Call Unit := do
  let error ← cudaFree runtime dPtr
  check error
  let error ← cudaEventDestroy runtime readyEvent
  check error

/-- Records the event of a block that is to be cached.  If this fails, then the block stays live. -/
def recordReady (device entrypointDevice : ℤ) (block : BlockDescriptor) : Call Unit := do
  let error ← cudaEventRecord runtime block.readyEvent block.associatedStream
  if h : error = .success then pure ()
  else if entrypointDevice ≠ device then do
    let _ ← cudaSetDevice runtime entrypointDevice
    Program.exit (.returns error h)
  else Program.exit (.returns error h)

/-- Caches the block of a pointer, or frees it.  A pointer that is not live is freed, too. -/
def returnBlock (device entrypointDevice : ℤ) (dPtr : ℕ) : Call Unit := do
  let s ← Program.state
  match findLive device dPtr s.allocator.liveBlocks with
  | none => freeBlock runtime dPtr 0
  | some (block, others) =>
    if block.bin ≠ invalidBin ∧ (s.allocator.cachedBytes device).free + block.bytes ≤ s.allocator.maxCachedBytes then do
      recordReady runtime device entrypointDevice block
      Program.change (·.update fun a => (a.removeLive device block others).addCached device block)
    else do
      Program.change (·.update (·.removeLive device block others))
      freeBlock runtime dPtr block.readyEvent

def deviceFree (device : ℤ) (dPtr : ℕ) : Call Unit := do
  let (device, entrypointDevice) ← resolveDevice runtime device
  let entrypointDevice ← enterDevice runtime device entrypointDevice
  returnBlock runtime device entrypointDevice dPtr
  leaveDevice runtime device entrypointDevice

/-! ## 6. `FreeAllCached` and `SetMaxCachedBytes` -/

/-- The entry-point device, if it is not yet known. -/
def findEntrypoint (entrypointDevice : ℤ) : Call (CudaError × ℤ) :=
  if entrypointDevice = invalidDeviceOrdinal then do
    let (error, device) ← cudaGetDevice runtime
    pure (error, if error = .success then device else entrypointDevice)
  else pure (.success, entrypointDevice)

/-- Makes the device the current one, if it is not. -/
def changeDevice (device currentDevice : ℤ) : Call CudaError :=
  if device ≠ currentDevice then cudaSetDevice runtime device else pure .success

/-- The loop over all cached blocks.  The result is the error and the entry-point device. -/
def freeAllLoop : List BlockDescriptor → (entrypointDevice currentDevice : ℤ) → Call (CudaError × ℤ)
  | [], entrypointDevice, _ => pure (.success, entrypointDevice)
  | b :: blocks, entrypointDevice, currentDevice => do
    let (error, entrypointDevice) ← findEntrypoint runtime entrypointDevice
    if error ≠ .success then pure (error, entrypointDevice)
    else do
      let error ← changeDevice runtime b.device currentDevice
      if error ≠ .success then pure (error, entrypointDevice)
      else do
        let error ← cudaFree runtime b.dPtr
        if error ≠ .success then pure (error, entrypointDevice)
        else do
          let error ← cudaEventDestroy runtime b.readyEvent
          if error ≠ .success then pure (error, entrypointDevice)
          else do
            Program.change (·.update (·.removeCached b.device b blocks))
            freeAllLoop blocks entrypointDevice b.device

def freeAllCached : Call Unit := do
  let s ← Program.state
  let (error, entrypointDevice) ← freeAllLoop runtime s.allocator.cachedBlocks invalidDeviceOrdinal invalidDeviceOrdinal
  if entrypointDevice ≠ invalidDeviceOrdinal then do
    let error ← cudaSetDevice runtime entrypointDevice
    check error
  else check error

def setMaxCachedBytes (maxCachedBytes : BitVec 64) : Call Unit :=
  Program.change (·.update fun a => { a with maxCachedBytes := maxCachedBytes })

end Cccl.CachingAllocator
