/-
# The passes of a radix sort

`invoke_passes` and `invoke_onesweep` of `dispatch_radix_sort.cuh`.

The keys are sorted by a range of their bits, some bits in each pass.  `invoke_passes` has two digit sizes,
and takes the smaller one until the rest is a multiple of the larger one.  `invoke_onesweep` has one, and
splits the input of a pass into portions, which hand on how far the bins have been filled.  The passes go
to and fro between two buffers, which are chosen such that the last one writes to the right one.

The kernels of a pass are taken by what they do: they write the stable partition by a digit.  A portion is
written behind what the portions before it have written, bin by bin.  Keys have the bits that the digits
are taken from.  A buffer is a list of cells; there is no result if a cell is read that has not been
written, if one is written that is not there, or if a pass reads the buffer that it writes.
-/
import Cccl.Lib.DigitSort

namespace Cccl.RadixSort

open DigitSort

variable {α K V : Type}

/-! ## 1. Buffers -/

/-- A buffer of the user, or one in the temporary storage. -/
inductive Buffer
  | user (i : Fin 2)
  | allocation (i : ℕ)
deriving DecidableEq, Repr

structure DoubleBuffer where
  dBuffers : Fin 2 → Buffer
  selector : Fin 2

def DoubleBuffer.ofBuffers (dCurrent dAlternate : Buffer) : DoubleBuffer where
  dBuffers i := if i = 0 then dCurrent else dAlternate
  selector := 0

def DoubleBuffer.current (b : DoubleBuffer) : Buffer := b.dBuffers b.selector

def DoubleBuffer.alternate (b : DoubleBuffer) : Buffer := b.dBuffers (b.selector ^^^ 1)

/-- The cells of the buffers.  What is not allocated has none. -/
structure Memory (K V : Type) where
  keys : Buffer → List (Option K)
  values : Buffer → List (Option V)

/-- All cells have been written. -/
def loaded : List (Option α) → Option (List α)
  | [] => some []
  | none :: _ => none
  | some a :: cells => (loaded cells).map (a :: ·)

def readItems (cells : List (Option α)) (offset count : ℕ) : Option (List α) :=
  if offset + count ≤ cells.length then loaded ((cells.drop offset).take count) else none

def writeItems (cells : List (Option α)) (items : List α) : Option (List (Option α)) :=
  if items.length ≤ cells.length then some (items.map some ++ cells.drop items.length) else none

/-! ## 2. The problem -/

/-- The members of `dispatch_impl` that the passes depend on. -/
structure DispatchImpl (K : Type) where
  bits : K → ℕ
  numItems : ℕ
  beginBit : ℕ
  endBit : ℕ
  canOverwriteSourceBuffer : Bool
  keysOnly : Bool

/-- What a pass is given. -/
structure Pass where
  currentBit : ℕ
  passBits : ℕ
  keysIn : Buffer
  keysOut : Buffer
  valuesIn : Buffer
  valuesOut : Buffer
deriving DecidableEq, Repr

def ceilDiv (a b : ℕ) : ℕ := (a + b - 1) / b

/-- What is left when the passes have been run. -/
structure Outcome (K V : Type) where
  mem : Memory K V
  dKeys : DoubleBuffer
  dValues : DoubleBuffer
  passes : List Pass

namespace DispatchImpl

variable (D : DispatchImpl K)

def digit (p : Pass) (key : K) : ℕ := bitField p.currentBit p.passBits (D.bits key)

/-! ## 3. Passes with an upsweep, a scan and a downsweep -/

/-- The kernels of a pass. -/
def sortKernels (p : Pass) (mem : Memory K V) : Option (Memory K V) := do
  let keys ← readItems (mem.keys p.keysIn) 0 D.numItems
  let keysOut ← writeItems (mem.keys p.keysOut) (stablePartition (D.digit p) (2 ^ p.passBits) keys)
  if p.keysIn = p.keysOut then none
  else if D.keysOnly then some { mem with keys := Function.update mem.keys p.keysOut keysOut }
  else do
    let values ← readItems (mem.values p.valuesIn) 0 D.numItems
    let valuesOut ← writeItems (mem.values p.valuesOut)
      ((stablePartition (fun item => D.digit p item.1) (2 ^ p.passBits) (keys.zip values)).map
        Prod.snd)
    if p.valuesIn = p.valuesOut then none
    else
      some { keys := Function.update mem.keys p.keysOut keysOut
             values := Function.update mem.values p.valuesOut valuesOut }

/-- The passes so far. -/
structure State (K V : Type) where
  mem : Memory K V
  currentBit : ℕ
  passes : List Pass

def invokePass (radixBits : ℕ) (keysIn keysOut valuesIn valuesOut : Buffer) (s : State K V) :
    Option (State K V) :=
  let passBits := min radixBits (D.endBit - s.currentBit)
  let p : Pass := ⟨s.currentBit, passBits, keysIn, keysOut, valuesIn, valuesOut⟩
  (D.sortKernels p s.mem).map fun mem => ⟨mem, s.currentBit + passBits, s.passes ++ [p]⟩

/-- The loop of `invoke_passes`.  With too little fuel there is no result. -/
def remainingPasses (radixBits altRadixBits altEndBit : ℕ) :
    ℕ → DoubleBuffer → DoubleBuffer → State K V → Option (State K V)
  | 0, _, _, _ => none
  | fuel + 1, keys, values, s =>
    if s.currentBit < D.endBit then
      (D.invokePass (if s.currentBit < altEndBit then altRadixBits else radixBits)
        (keys.dBuffers keys.selector) (keys.dBuffers (keys.selector ^^^ 1))
        (values.dBuffers keys.selector) (values.dBuffers (keys.selector ^^^ 1)) s).bind
          (remainingPasses radixBits altRadixBits altEndBit fuel
            { keys with selector := keys.selector ^^^ 1 }
            { values with selector := values.selector ^^^ 1 })
    else some s

/-- A third buffer for the keys and one for the values. -/
def allocate (keysIndex valuesIndex keysCount valuesCount : ℕ) (mem : Memory K V) : Memory K V where
  keys := Function.update mem.keys (.allocation keysIndex) (List.replicate keysCount none)
  values := Function.update mem.values (.allocation valuesIndex) (List.replicate valuesCount none)

/-- `d_keys_remaining_passes`, or that of the values. -/
def remainingBuffers (isNumPassesOdd : Bool) (allocation : Buffer) (b : DoubleBuffer) :
    DoubleBuffer :=
  .ofBuffers
    (if D.canOverwriteSourceBuffer || isNumPassesOdd then b.alternate else allocation)
    (if D.canOverwriteSourceBuffer then b.current
      else if isNumPassesOdd then allocation
      else b.alternate)

def invokePasses (radixBits altRadixBits : ℕ) (dKeys dValues : DoubleBuffer) (mem : Memory K V) :
    Option (Outcome K V) := do
  let mem := allocate 1 2 (if D.canOverwriteSourceBuffer then 0 else D.numItems)
    (if D.canOverwriteSourceBuffer || D.keysOnly then 0 else D.numItems) mem
  let numBits := D.endBit - D.beginBit
  let numPasses := ceilDiv numBits radixBits
  let isNumPassesOdd := numPasses % 2 == 1
  let maxAltPasses := numPasses * radixBits - numBits
  let altEndBit := min D.endBit (D.beginBit + maxAltPasses * altRadixBits)
  let keys := D.remainingBuffers isNumPassesOdd (.allocation 1) dKeys
  let values := D.remainingBuffers isNumPassesOdd (.allocation 2) dValues
  let s ← D.invokePass (if D.beginBit < altEndBit then altRadixBits else radixBits) dKeys.current
    keys.current dValues.current values.current ⟨mem, D.beginBit, []⟩
  let s ← D.remainingPasses radixBits altRadixBits altEndBit numBits keys values s
  let selected := if D.canOverwriteSourceBuffer then numPasses else 1
  some { mem := s.mem
         dKeys := { dKeys with selector := dKeys.selector + Fin.ofNat 2 selected }
         dValues := { dValues with selector := dValues.selector + Fin.ofNat 2 selected }
         passes := s.passes }

/-! ## 4. Onesweep -/

/-- The digit size, and how many items a tile has.  A portion has at least one tile. -/
structure OnesweepPolicy where
  radixBits : ℕ
  tileItems : ℕ
  tileItems_pos : 0 < tileItems
  tileItems_le : tileItems ≤ 2 ^ 28 - 1

def OnesweepPolicy.portionSize (policy : OnesweepPolicy) : ℕ :=
  (2 ^ 28 - 1) / policy.tileItems * policy.tileItems

/-- The kernel of a portion, of which the bins are given. -/
def onesweepKernel (p : Pass) (offset count : ℕ) (binsIn : ℕ → ℕ) (mem : Memory K V) :
    Option (Memory K V × List K) := do
  let keys ← readItems (mem.keys p.keysIn) offset count
  let keysOut ← scatter (keys.map fun key => (D.digit p key, key)) binsIn (mem.keys p.keysOut)
  if p.keysIn = p.keysOut then none
  else if D.keysOnly then
    some ({ mem with keys := Function.update mem.keys p.keysOut keysOut }, keys)
  else do
    let values ← readItems (mem.values p.valuesIn) offset count
    let valuesOut ← scatter ((keys.zip values).map fun item => (D.digit p item.1, item.2)) binsIn
      (mem.values p.valuesOut)
    if p.valuesIn = p.valuesOut then none
    else
      some ({ keys := Function.update mem.keys p.keysOut keysOut
              values := Function.update mem.values p.valuesOut valuesOut }, keys)

/-- Some bins in `d_bins`, if all of them are there. -/
def readBins (radixDigits offset : ℕ) (dBins : List (Option ℕ)) : Option (ℕ → ℕ) :=
  (readItems dBins offset radixDigits).map fun bins d => bins.getD d 0

def writeBins (radixDigits offset : ℕ) (bins : ℕ → ℕ) (dBins : List (Option ℕ)) :
    Option (List (Option ℕ)) :=
  if offset + radixDigits ≤ dBins.length then
    some (dBins.take offset ++ (List.range radixDigits).map (fun d => some (bins d)) ++
      dBins.drop (offset + radixDigits))
  else none

/-- A portion of a pass. -/
def invokePortion (policy : OnesweepPolicy) (numPasses numPortions pass : ℕ) (p : Pass)
    (s : Memory K V × List (Option ℕ)) (portion : ℕ) : Option (Memory K V × List (Option ℕ)) := do
  let radixDigits := 2 ^ policy.radixBits
  let portionNumItems := min (D.numItems - portion * policy.portionSize) policy.portionSize
  let binsIn ← readBins radixDigits ((portion * numPasses + pass) * radixDigits) s.2
  let (mem, keys) ← D.onesweepKernel p (portion * policy.portionSize) portionNumItems binsIn s.1
  if portion < numPortions - 1 then
    (writeBins radixDigits (((portion + 1) * numPasses + pass) * radixDigits)
      (fun d => binsIn d + binCount (D.digit p) keys d) s.2).map fun dBins => (mem, dBins)
  else some (mem, s.2)

/-- The histograms of the digits of all passes, with their exclusive sums, for the first portion. -/
def initialBins (policy : OnesweepPolicy) (numPasses numPortions : ℕ) (keys : List K) :
    List (Option ℕ) :=
  (List.range numPasses).flatMap (fun pass => (List.range (2 ^ policy.radixBits)).map fun d =>
    some ((List.range d).map (binCount (fun key => bitField (D.beginBit + pass * policy.radixBits)
      (min (D.endBit - (D.beginBit + pass * policy.radixBits)) policy.radixBits) (D.bits key))
        keys)).sum) ++
  List.replicate ((numPortions - 1) * numPasses * 2 ^ policy.radixBits) none

/-- After the first pass the temporary buffers are used, if no overwrite is allowed. -/
def reseat (numPasses pass : ℕ) (tmp tmp2 : Buffer) (b : DoubleBuffer) : DoubleBuffer :=
  if D.canOverwriteSourceBuffer = false ∧ pass = 0 then
    if numPasses % 2 = 0 then .ofBuffers tmp tmp2 else .ofBuffers tmp2 tmp
  else b

/-- The loop of `invoke_onesweep`.  With too little fuel there is no result. -/
def onesweepPasses (policy : OnesweepPolicy) (numPasses numPortions : ℕ)
    (keysTmp keysTmp2 valuesTmp valuesTmp2 : Buffer) :
    ℕ → ℕ → ℕ → DoubleBuffer → DoubleBuffer → Memory K V × List (Option ℕ) → List Pass →
      Option (Outcome K V)
  | 0, _, _, _, _, _, _ => none
  | fuel + 1, currentBit, pass, dKeys, dValues, s, passes =>
    if currentBit < D.endBit then do
      let numBits := min (D.endBit - currentBit) policy.radixBits
      let p : Pass := ⟨currentBit, numBits, dKeys.current, dKeys.alternate, dValues.current,
        dValues.alternate⟩
      let s ← (List.range numPortions).foldlM (D.invokePortion policy numPasses numPortions pass p) s
      let dKeys := D.reseat numPasses pass keysTmp keysTmp2 dKeys
      let dValues := D.reseat numPasses pass valuesTmp valuesTmp2 dValues
      onesweepPasses policy numPasses numPortions keysTmp keysTmp2 valuesTmp valuesTmp2 fuel
        (currentBit + policy.radixBits) (pass + 1) { dKeys with selector := dKeys.selector ^^^ 1 }
        { dValues with selector := dValues.selector ^^^ 1 } s (passes ++ [p])
    else some ⟨s.1, dKeys, dValues, passes⟩

def invokeOnesweep (policy : OnesweepPolicy) (dKeys dValues : DoubleBuffer) (mem : Memory K V) :
    Option (Outcome K V) := do
  let numPasses := ceilDiv (D.endBit - D.beginBit) policy.radixBits
  let numPortions := ceilDiv D.numItems policy.portionSize
  let tmpCount := if D.canOverwriteSourceBuffer ∨ numPasses ≤ 1 then 0 else D.numItems
  let mem := allocate 2 3 tmpCount (if D.keysOnly then 0 else tmpCount) mem
  let keys ← readItems (mem.keys dKeys.current) 0 D.numItems
  let dBins := D.initialBins policy numPasses numPortions keys
  let useOther := D.canOverwriteSourceBuffer = false ∧ numPasses % 2 = 0
  D.onesweepPasses policy numPasses numPortions dKeys.alternate (.allocation 2) dValues.alternate
    (.allocation 3) (D.endBit - D.beginBit + 1) D.beginBit 0
    (if useOther then { dKeys with dBuffers := Function.update dKeys.dBuffers 1 (.allocation 2) }
      else dKeys)
    (if useOther then { dValues with dBuffers := Function.update dValues.dBuffers 1 (.allocation 3) }
      else dValues) (mem, dBins) []

/-- The buffer that the pass `m` reads. -/
def location (numPasses : ℕ) (allocation : Buffer) (b : DoubleBuffer) : ℕ → Buffer
  | 0 => b.current
  | m + 1 => (D.remainingBuffers (numPasses % 2 == 1) allocation b).dBuffers (Fin.ofNat 2 m)

end DispatchImpl

end Cccl.RadixSort
