/-
# Sorting the tile of a thread block

`BlockMergeSortStrategy` of `block_merge_sort.cuh`.

Each thread sorts its own items.  In rounds, runs of twice the length are then merged: all threads store
their keys to shared memory, each one finds by `MergePath` where its part of the merge of two neighbouring
runs begins, and merges as many items as it has.  In a tile that is not full the runs are clamped to the
valid items, and a thread that holds some invalid ones pads them with a bound of its valid keys.

The storage has one key more than the tile.  Loads and stores have no result outside of it, nor has a load
of what has not been stored.  The threads between two barriers are taken one after the other.
-/
import Mathlib.Data.Nat.Bitwise
import Cccl.MergeSort.MergePath
import Cccl.MergeSort.ThreadSort

namespace Cccl.MergeSort

variable {α K V : Type}

/-! ## 1. Shared memory -/

def load (size : ℕ) (cells : ℕ → Option α) (i : ℕ) : Option α := if i < size then cells i else none

def store (size : ℕ) (cells : ℕ → Option α) (i : ℕ) (a : α) : Option (ℕ → Option α) :=
  if i < size then some (Function.update cells i (some a)) else none

/-- A thread stores its items, from some position on. -/
def storeItems (size : ℕ) : ℕ → List α → (ℕ → Option α) → Option (ℕ → Option α)
  | _, [], cells => some cells
  | i, a :: rest, cells => (store size cells i a).bind (storeItems size (i + 1) rest)

/-- The threads store their items, from the thread `linearTid` on. -/
def storeTile (size itemsPerThread : ℕ) : ℕ → List (List α) → (ℕ → Option α) →
    Option (ℕ → Option α)
  | _, [], cells => some cells
  | linearTid, items :: rest, cells =>
    (storeItems size (itemsPerThread * linearTid) items cells).bind
      (storeTile size itemsPerThread (linearTid + 1) rest)

/-- Something is done by all threads from `linearTid` on. -/
def forThreads {β : Type} (f : ℕ → α → Option β) : ℕ → List α → Option (List β)
  | _, [] => some []
  | linearTid, a :: rest => do
    let b ← f linearTid a
    let bs ← forThreads f (linearTid + 1) rest
    some (b :: bs)

/-! ## 2. The strategy -/

/-- The template parameters, with what is asserted of them.  An array has at least one item. -/
structure BlockMergeSortStrategy where
  numThreads : ℕ
  itemsPerThread : ℕ
  numThreads_pow : ∃ k, numThreads = 2 ^ k
  itemsPerThread_pos : 0 < itemsPerThread

/-- The registers of the threads: each key with its item. -/
abbrev Tile (K V : Type) := List (List (K × V))

namespace BlockMergeSortStrategy

variable (B : BlockMergeSortStrategy) (compareOp : K → K → Bool)

def itemsPerTile : ℕ := B.itemsPerThread * B.numThreads

/-- The size of `keys_shared` and of `items_shared`. -/
def storageSize : ℕ := B.itemsPerTile + 1

/-- `StoreKeys`, with the padding slot. -/
def storeKeys (tile : Tile K V) : Option (ℕ → Option K) := do
  let cells ← storeTile B.storageSize B.itemsPerThread 0 (tile.map (List.map Prod.fst)) fun _ => none
  let first ← tile.head?.bind List.head?
  store B.storageSize cells B.itemsPerTile first.1

/-- The items at some positions. -/
def gather (itemsShared : ℕ → Option V) : List (K × ℕ) → Option (List (K × V))
  | [] => some []
  | (key, i) :: rest => do
    let item ← itemsShared i
    let items ← gather itemsShared rest
    some ((key, item) :: items)

/-- What a thread does in a round of `MergeRounds`: its keys after the round, with the positions where
they have been. -/
def mergeThread (clamped : Bool) (validItems targetMergedThreads : ℕ) (keysShared : ℕ → Option K)
    (linearTid : ℕ) (output : K) : Option (List (K × ℕ)) :=
  let mergedThreadsNumber := targetMergedThreads / 2
  let mask := targetMergedThreads - 1
  let size := B.itemsPerThread * mergedThreadsNumber
  let start := B.itemsPerThread * Nat.ldiff linearTid mask
  let threadIdxInGroup := mask &&& linearTid
  let keys1Beg := if clamped then min validItems start else start
  let keys1End := if clamped then min validItems (keys1Beg + size) else start + size
  let keys2End := if clamped then min validItems (keys1End + size) else keys1End + size
  let diag :=
    if clamped then
      min (keys2End - keys1Beg) (min validItems (B.itemsPerThread * threadIdxInGroup))
    else B.itemsPerThread * threadIdxInGroup
  let keys2Beg := keys1End
  let keys1Count := keys1End - keys1Beg
  let keys2Count := keys2End - keys2Beg
  (mergePath compareOp (fun i => keysShared (keys1Beg + i)) (fun i => keysShared (keys2Beg + i))
    keys1Count keys2Count diag).bind fun partitionDiag =>
      let keys1BegLoc := keys1Beg + partitionDiag
      let keys2BegLoc := keys2Beg + diag - partitionDiag
      serialMerge compareOp keysShared B.itemsPerThread keys1BegLoc keys2BegLoc
        (keys1End - keys1BegLoc) (keys2End - keys2BegLoc) output

/-- A round of `MergeRounds`, with `ExchangeItems`. -/
def mergeRound (clamped : Bool) (validItems targetMergedThreads : ℕ) (tile : Tile K V) :
    Option (Tile K V) := do
  let keysShared ← B.storeKeys tile
  let merged ← forThreads
    (fun linearTid items => do
      let first ← items.head?
      B.mergeThread compareOp clamped validItems targetMergedThreads (load B.storageSize keysShared)
        linearTid first.1) 0 tile
  let itemsShared ← storeTile B.storageSize B.itemsPerThread 0 (tile.map (List.map Prod.snd))
    fun _ => none
  forThreads (fun _ indices => gather (load B.storageSize itemsShared) indices) 0 merged

/-- `MergeRounds`.  With too little fuel there is no result. -/
def mergeRounds (clamped : Bool) (validItems : ℕ) : ℕ → ℕ → Tile K V → Option (Tile K V)
  | 0, _, _ => none
  | fuel + 1, targetMergedThreads, tile =>
    if targetMergedThreads ≤ B.numThreads then
      if clamped ∧ validItems ≤ B.itemsPerThread * (targetMergedThreads / 2) then some tile
      else (B.mergeRound compareOp clamped validItems targetMergedThreads tile).bind
        (mergeRounds clamped validItems fuel (targetMergedThreads * 2))
    else some tile

/-- The loop of `SortPartialTile` over the items of a thread, from the second one on. -/
def padItems (validItems : ℕ) : ℕ → K → List (K × V) → List (K × V)
  | _, _, [] => []
  | i, maxKey, (key, item) :: rest =>
    if i < validItems then
      (key, item) ::
        padItems validItems (i + 1) (if compareOp maxKey key then key else maxKey) rest
    else (maxKey, item) :: padItems validItems (i + 1) maxKey rest

/-- `SortPartialTile`, as far as one thread is concerned.  There may be a default. -/
def sortPartialThread (oobDefault : Option K) (validItems linearTid : ℕ) :
    List (K × V) → List (K × V)
  | [] => []
  | (key, item) :: rest =>
    if B.itemsPerThread * linearTid < validItems then
      let maxKey :=
        match oobDefault with
        | some oob => if compareOp key oob then oob else key
        | none => key
      stableOddEvenSort (keyBelow compareOp) ((key, item) ::
        padItems compareOp validItems (B.itemsPerThread * linearTid + 1) maxKey rest)
    else (key, item) :: rest

def sortPartialTile (oobDefault : Option K) (validItems : ℕ) (tile : Tile K V) :
    Option (Tile K V) := do
  let tile ← forThreads
    (fun linearTid items =>
      some (B.sortPartialThread compareOp oobDefault validItems linearTid items)) 0 tile
  B.mergeRounds compareOp true validItems B.numThreads 2 tile

/-- `Sort` of a full tile. -/
def sortFullTile (tile : Tile K V) : Option (Tile K V) := do
  let tile ← forThreads (fun _ items => some (stableOddEvenSort (keyBelow compareOp) items)) 0 tile
  B.mergeRounds compareOp false B.itemsPerTile B.numThreads 2 tile

end BlockMergeSortStrategy

end Cccl.MergeSort
