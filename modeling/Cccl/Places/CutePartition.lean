/-
# Structured partitions of a tensor

`cute_partition_descriptor` and `cute_sub_shape` of `cute_partition.cuh`, with `dim4` of
`dimensions.cuh`.

A partition says how the elements of a tensor, rounded up to padded extents, are distributed over a grid
of places: some leaves of a strided layout stand for the axes of the grid, the other ones enumerate the
elements of a place.  The constructor accepts the leaves if their strides, sorted, are the products of
the extents before them.  `owner` takes the linear index of an element apart along the leaves; `apply`
gives the elements of a place, one after the other.

The arithmetic is that of `size_t`: sums and products are taken modulo `2 ^ 64` (`sizeT`).
-/
import Mathlib.Data.List.Sort
import Cccl.Lib.MixedRadix

namespace Cccl.Places

open MixedRadix (digits)

/-! ## 1. Extents and positions -/

/-- What is left of a number in a `size_t`. -/
def sizeT (n : ℕ) : ℕ := n % 2 ^ 64

structure Dim4 where
  x : ℕ
  y : ℕ
  z : ℕ
  t : ℕ
  deriving DecidableEq

/-- `pos4`.  Its members are signed, and are converted from and to `size_t`. -/
@[ext]
structure Pos4 where
  x : ℕ
  y : ℕ
  z : ℕ
  t : ℕ
  deriving DecidableEq

def Dim4.get (d : Dim4) : ℕ → ℕ
  | 0 => d.x
  | 1 => d.y
  | 2 => d.z
  | _ => d.t

def Pos4.get (p : Pos4) : ℕ → ℕ
  | 0 => p.x
  | 1 => p.y
  | 2 => p.z
  | _ => p.t

def Dim4.size (d : Dim4) : ℕ := sizeT (d.x * d.y * d.z * d.t)

def Dim4.indexToPos (d : Dim4) (index : ℕ) : Pos4 :=
  ⟨index % d.x, index / d.x % d.y, index / d.x / d.y % d.z, index / d.x / d.y / d.z⟩

def Dim4.getIndex (d : Dim4) (p : Pos4) : ℕ :=
  sizeT (p.x + d.x * (p.y + d.y * (p.z + p.t * d.z)))

/-! ## 2. The constructor -/

structure LayoutLeaf where
  extent : ℕ
  stride : ℤ
  deriving DecidableEq

/-- The stride as a `size_t`. -/
def LayoutLeaf.size (l : LayoutLeaf) : ℕ := l.stride.toNat

/-- `cute_partition_max_leaves`. -/
def maxLeaves : ℕ := 16

/-- What a descriptor is made of. -/
structure PartitionArgs where
  placeLeaves : List LayoutLeaf
  placeAxes : List ℤ
  localLeaves : List LayoutLeaf
  paddedDims : Dim4
  trueDims : Dim4
  gridDims : Dim4

/-- An exception, unless the condition holds. -/
def require (cond : Bool) (message : String) : Except String Unit :=
  if cond then .ok () else .error message

/-- The product of the extents of some leaves. -/
def extentProduct (leaves : List LayoutLeaf) : ℕ :=
  leaves.foldl (fun n l => sizeT (n * l.extent)) 1

namespace PartitionArgs

variable (A : PartitionArgs)

def numPlaces : ℕ := extentProduct A.placeLeaves

/-- The loop of `validate` over the leaves of places and their axes; the axes before are given. -/
def validateAxes : List ℤ → List (LayoutLeaf × ℤ) → Except String Unit
  | _, [] => .ok ()
  | bound, (l, a) :: rest => do
    require (0 ≤ a ∧ a ≤ 3) "cute_partition: place axis out of range"
    require (l.extent = A.gridDims.get a.toNat)
      "cute_partition: place leaf extent does not match its grid axis extent"
    require (a ∉ bound) "cute_partition: grid axis bound to more than one place leaf"
    validateAxes (a :: bound) rest

/-- The loop of `validate` over all leaves. -/
def validateLeaves : List LayoutLeaf → Except String Unit
  | [] => .ok ()
  | l :: rest => do
    require (0 ≤ l.stride) "cute_partition: negative strides are not supported"
    require (l.extent ≠ 0) "cute_partition: leaf extents must be at least 1"
    validateLeaves rest

/-- The loop of `validate` over the sorted leaves.  It returns the product of all extents. -/
def validateStrides : ℕ → List LayoutLeaf → Except String ℕ
  | expected, [] => .ok expected
  | expected, l :: rest => do
    require (l.size = expected)
      ("cute_partition: leaves do not tile the padded space exactly (layout must be " ++
        "exact and bijective)")
    validateStrides (sizeT (expected * l.extent)) rest

/-- The leaves with more than one digit, by increasing stride. -/
def sortedLeaves : List LayoutLeaf :=
  ((A.placeLeaves ++ A.localLeaves).filter fun l => 1 < l.extent).insertionSort
    fun a b => a.stride ≤ b.stride

def validate : Except String Unit := do
  A.validateAxes [] (A.placeLeaves.zip A.placeAxes)
  require (A.numPlaces = A.gridDims.size)
    ("cute_partition: the partition leaves grid places unused (a grid axis with extent > 1 is " ++
      "bound to no tensor dimension; replication is not supported). Collapse the unused grid axes " ++
      "or bind them to a tensor dimension.")
  require ((List.range 4).all fun d =>
      1 ≤ A.trueDims.get d && A.trueDims.get d ≤ A.paddedDims.get d)
    "cute_partition: true extents must be within [1, padded extents]"
  validateLeaves (A.placeLeaves ++ A.localLeaves)
  let expected ← validateStrides 1 A.sortedLeaves
  require (expected = A.paddedDims.size)
    "cute_partition: layout size does not match the padded extents"

/-- What the constructor checks. -/
def construct : Except String Unit := do
  require (A.placeLeaves.length ≤ maxLeaves ∧ A.localLeaves.length ≤ maxLeaves)
    "cute_partition: at most max_leaves leaves are supported per mode"
  require (A.placeLeaves.length = A.placeAxes.length)
    "cute_partition: one grid axis is required per place leaf"
  A.validate

end PartitionArgs

/-- `cute_partition_descriptor`: arguments that the constructor has accepted. -/
structure CutePartitionDescriptor extends PartitionArgs where
  accepted : toPartitionArgs.construct = .ok ()

/-! ## 3. Owners -/

namespace CutePartitionDescriptor

variable (D : CutePartitionDescriptor)

/-- `decode_`: all leaves, those of places with their index, by decreasing stride. -/
def decode : List (LayoutLeaf × Option ℕ) :=
  (D.placeLeaves.zipIdx.map (fun (p : LayoutLeaf × ℕ) => (p.1, some p.2)) ++
    D.localLeaves.map fun l => (l, none)).insertionSort fun a b => a.1.stride ≥ b.1.stride

/-- The axis of a leaf of places. -/
def axis (k : ℕ) : ℕ := (D.placeAxes.getD k 0).toNat

/-- One iteration of the loop of `owner`. -/
def decodeLeaf (linear : ℕ) (placeCoord : ℕ → ℕ) (d : LayoutLeaf × Option ℕ) : ℕ → ℕ :=
  if d.1.extent ≤ 1 then placeCoord
  else
    let c := linear / d.1.size % d.1.extent
    match d.2 with
    | some k => Function.update placeCoord (D.axis k) c
    | none => placeCoord

/-- The place in the grid that owns an element. -/
def owner (coords : Pos4) : Pos4 :=
  let linear := D.paddedDims.getIndex coords
  let placeCoord := D.decode.foldl (D.decodeLeaf linear) fun _ => 0
  ⟨placeCoord 0, placeCoord 1, placeCoord 2, placeCoord 3⟩

end CutePartitionDescriptor

/-! ## 4. The elements of a place -/

structure CuteSubShape where
  leaves : List LayoutLeaf
  offset : ℕ
  paddedDims : Dim4
  rank : ℕ
  lo : ℕ → ℕ
  hi : ℕ → ℕ

/-- The linear index of a local index: the loop over the leaves. -/
def localToLinear : List LayoutLeaf → ℕ → ℕ → ℕ
  | [], _, linear => linear
  | l :: rest, index, linear =>
    localToLinear rest (index / l.extent) (sizeT (linear + index % l.extent * l.size))

namespace CuteSubShape

variable (S : CuteSubShape)

/-- Whether the coordinates are in the region. -/
def contains (coords : List ℕ) : Bool :=
  (List.range S.rank).all fun d => !(coords.getD d 0 < S.lo d || S.hi d ≤ coords.getD d 0)

def size : ℕ := extentProduct S.leaves

/-- The coordinates of the element with a local index. -/
def indexToCoords (index : ℕ) : List ℕ :=
  digits ((List.range S.rank).map S.paddedDims.get) (localToLinear S.leaves index S.offset)

end CuteSubShape

namespace CutePartitionDescriptor

variable (D : CutePartitionDescriptor)

def validateIterationRank (rank : ℕ) : Except String Unit :=
  require ((List.range 4).all fun d => d < rank || D.paddedDims.get d = 1)
    "cute_partition::apply: the iteration rank does not match the partition's extents"

def applyRegion (rank : ℕ) (lo hi : ℕ → ℕ) (place : ℕ) (gridDims : Dim4) :
    Except String CuteSubShape := do
  require (gridDims = D.gridDims)
    "cute_partition::apply: the grid does not match the partition's grid extents"
  let gridCoords := D.gridDims.indexToPos place
  let offset := (D.placeLeaves.zip D.placeAxes).foldl
    (fun offset p => sizeT (offset + gridCoords.get p.2.toNat * p.1.size)) 0
  .ok ⟨D.localLeaves, offset, D.paddedDims, rank, lo, hi⟩

/-- `apply` of a shape with these extents, for the place with this index. -/
def apply (shape : List ℕ) (place : ℕ) (gridDims : Dim4) : Except String CuteSubShape := do
  D.validateIterationRank shape.length
  require ((List.range shape.length).all fun d => shape.getD d 0 = D.trueDims.get d)
    "cute_partition::apply: the task shape does not match the partition's extents"
  D.applyRegion shape.length (fun _ => 0) D.trueDims.get place gridDims

/-- `apply` of a box with these bounds. -/
def applyBox (box : List (ℤ × ℤ)) (place : ℕ) (gridDims : Dim4) : Except String CuteSubShape := do
  D.validateIterationRank box.length
  require ((List.range box.length).all fun d =>
      !((box.getD d (0, 0)).1 < 0 || (box.getD d (0, 0)).2 < (box.getD d (0, 0)).1 ||
        D.trueDims.get d < (box.getD d (0, 0)).2.toNat))
    "cute_partition::apply: the box is not contained in the partition's extents"
  D.applyRegion box.length (fun d => (box.getD d (0, 0)).1.toNat)
    (fun d => (box.getD d (0, 0)).2.toNat) place gridDims

end CutePartitionDescriptor

end Cccl.Places
