/-
# Tile descriptors, and what the tiles of a single-pass scan share

`ScanTileState` keeps one descriptor per tile, a status word and a value, behind 32 padding
descriptors whose status is OOB.  A tile publishes by storing a whole descriptor, and a
look-back reads whole descriptors: for `ScanTileState<T, true>` the two halves travel in one
transaction word; for `ScanTileState<T, false>` the value is stored before the status is
released, into the array that belongs to that status, so a status that has been seen names a
value that has been stored.  Neither ordering promises that a read sees the LATEST store.  The
model therefore keeps, for every slot, the list of all descriptors published there so far, and
a read returns any one of them.

Slots are indexed by tile number, the padding by `-32 .. -1`.  A read outside the storage
returns anything at all, so nothing below can silently depend on one.
-/
import Cccl.Lib.Transition
import Cccl.Scan.WarpReduce

namespace Cccl.Scan

variable {T : Type*}

/-! ## 1. Descriptors and the launch -/

inductive ScanTileStatus
  /-- Out-of-bounds (e.g., padding). -/
  | scanTileOob
  /-- Not yet processed. -/
  | scanTileInvalid
  /-- Tile aggregate is available. -/
  | scanTilePartial
  /-- Inclusive tile prefix is available. -/
  | scanTileInclusive
deriving DecidableEq, Repr

open ScanTileStatus

structure TileDescriptor (T : Type*) where
  status : ScanTileStatus
  value : T
deriving DecidableEq, Repr

def tileStatusPadding : ℤ := 32

/-- One scan launch: the operator, the number of tiles and what each tile's own scan of its
items aggregates to. -/
structure Launch (T : Type*) where
  scanOp : T → T → T
  numTiles : ℕ
  blockAggregate : ℕ → T

/-- The in-order fold of the aggregates of tiles `0 .. n`. -/
def Launch.inclusivePrefix (L : Launch T) (n : ℕ) : T := fold1 L.scanOp L.blockAggregate 0 n

/-! ## 2. The state of the tiles -/

/-- Where one tile stands.  `window` is the warp inside `WaitForValid`: `predecessorIdx` is the
tile lane 0 looks at, `soFar` the exclusive prefix gathered from the windows before this one, and
`lanes` holds what each lane has loaded in the current round. -/
inductive Phase (T : Type*)
  | start
  | window (predecessorIdx : ℤ) (soFar : Option T) (lanes : ℕ → Option (TileDescriptor T))
  | found (exclusivePrefix : T)
  | done (exclusivePrefix : Option T)

/-- The exclusive prefix a tile has obtained, if it is that far. -/
def Phase.exclusivePrefix? : Phase T → Option T
  | .start => none
  | .window _ _ _ => none
  | .found e => some e
  | .done e => e

/-- The published descriptors and the phase of every tile. -/
structure State (T : Type*) where
  published : ℤ → List (TileDescriptor T)
  tile : ℕ → Phase T

namespace State

/-- Store a descriptor into the slot of a tile. -/
def publish (s : State T) (t : ℕ) (d : TileDescriptor T) : State T :=
  { s with published := Function.update s.published t (d :: s.published t) }

/-- Move one tile to a new phase. -/
def setTile (s : State T) (t : ℕ) (p : Phase T) : State T :=
  { s with tile := Function.update s.tile t p }

/-- What a load of slot `idx` may return: any descriptor published there so far, and anything at
all outside the `numTiles + 32` descriptors of the storage. -/
def Readable (L : Launch T) (s : State T) (idx : ℤ) (d : TileDescriptor T) : Prop :=
  idx < -tileStatusPadding ∨ (L.numTiles : ℤ) ≤ idx ∨ d ∈ s.published idx

/-- `InitializeStatus`, before any tile has started; the values are whatever memory holds. -/
def Initial (L : Launch T) (s : State T) : Prop :=
  (∀ i : ℤ, 0 ≤ i → ∀ d ∈ s.published i, d.status = scanTileInvalid) ∧
    (∀ i : ℤ, i < 0 → ∀ d ∈ s.published i, d.status = scanTileOob) ∧
    (∀ i : ℤ, -tileStatusPadding ≤ i → i < L.numTiles → s.published i ≠ []) ∧
    ∀ t, s.tile t = .start

@[simp] theorem publish_tile (s : State T) (t : ℕ) (d : TileDescriptor T) :
    (s.publish t d).tile = s.tile := rfl

@[simp] theorem setTile_published (s : State T) (t : ℕ) (p : Phase T) :
    (s.setTile t p).published = s.published := rfl

theorem mem_publish {s : State T} {t : ℕ} {d x : TileDescriptor T} {i : ℤ} :
    x ∈ (s.publish t d).published i ↔ (i = t ∧ x = d) ∨ x ∈ s.published i := by
  by_cases h : i = t
  · subst h
    simp [publish]
  · simp [publish, h]

theorem setTile_tile_self (s : State T) (t : ℕ) (p : Phase T) : (s.setTile t p).tile t = p := by
  simp [setTile]

theorem setTile_tile_ne (s : State T) {t t' : ℕ} (p : Phase T) (h : t' ≠ t) :
    (s.setTile t p).tile t' = s.tile t' := by
  simp [setTile, h]

end State

/-- The lanes before any of them has loaded in the current round. -/
def noLanes : ℕ → Option (TileDescriptor T) := fun _ => none

/-- `lanes` is a complete round of loads, and `ds` is what the 32 lanes have read. -/
def Loaded (lanes : ℕ → Option (TileDescriptor T)) (ds : ℕ → TileDescriptor T) : Prop :=
  ∀ l, l < warpThreads → lanes l = some (ds l)

/-- The first `k` lanes have loaded. -/
def firstLanes (ds : ℕ → TileDescriptor T) (k : ℕ) : ℕ → Option (TileDescriptor T) :=
  fun l => if l < k then some (ds l) else none

theorem firstLanes_zero (ds : ℕ → TileDescriptor T) : firstLanes ds 0 = noLanes := by
  funext l
  simp [firstLanes, noLanes]

theorem firstLanes_succ (ds : ℕ → TileDescriptor T) (k : ℕ) :
    Function.update (firstLanes ds k) k (some (ds k)) = firstLanes ds (k + 1) := by
  funext l
  by_cases hl : l = k
  · subst hl
    simp [firstLanes]
  · have hiff : l < k ↔ l < k + 1 := by omega
    simp only [firstLanes, Function.update_of_ne hl, hiff]

theorem loaded_firstLanes (ds : ℕ → TileDescriptor T) : Loaded (firstLanes ds warpThreads) ds :=
  fun _ hl => if_pos hl

theorem State.setTile_setTile (s : State T) (t : ℕ) (p q : Phase T) :
    (s.setTile t p).setTile t q = s.setTile t q := by
  simp [State.setTile]

end Cccl.Scan
