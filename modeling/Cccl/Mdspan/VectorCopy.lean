/-
# Vectorised copies

If the innermost mode is contiguous in both tensors, several elements can be copied at once.  How many
bytes is a greatest common divisor of the alignment of the pointers, the strides and the innermost extent
(`maxAlignment`), and not more than the device can (`vectorSizeBytes`).  For each width there is a branch
(`dispatchByVectorSize`) that views both tensors as tensors of vectors (`reshapeVectorized`): the innermost
extent and all strides but the innermost one are divided by the number of elements in a vector.

A stride of one is left out of the greatest common divisor whatever its mode, and the division of a stride
truncates.
-/
import Cccl.Mdspan.RawTensor

namespace Cccl.Mdspan

open IntegerTypes Strided MixedRadix Modes

/-! ## 1. The width -/

/-- What the compiler and the device decide. -/
structure VectorPlatform where
  ctkAtLeast13 : Bool
  computeCapabilityMajor : ℕ

def maxGpuArchVectorSize (platform : VectorPlatform) : ℕ :=
  if platform.ctkAtLeast13 then if 10 ≤ platform.computeCapabilityMajor then 32 else 16 else 16

/-- `__ptr_alignment`: `__addr & (~__addr + 1)`, in `uintptr_t`. -/
def ptrAlignment (addr : ℕ) : ℕ := addr &&& ((2 ^ 64 - 1 - addr + 1) % 2 ^ 64)

/-- The loop of `__max_alignment` over the strides. -/
def strideAlignment (size : ℕ) (alignment : ℕ) (strides : List ℤ) : ℕ :=
  strides.foldl (fun alignment stride =>
    if stride.natAbs ≠ 1 then Nat.gcd alignment (stride.natAbs * size % 2 ^ 64) else alignment) alignment

def maxAlignment (size : ℕ) (t : RawTensor) : ℕ :=
  if t.strides.headD 0 ≠ 1 then size
  else
    let alignment := strideAlignment size (ptrAlignment t.data.toNat) (t.strides.take t.rank)
    Nat.gcd (alignment / size) (t.extents.headD 0).toNat * size % 2 ^ 64

def vectorSizeBytes (platform : VectorPlatform) (size : ℕ) (p : RawPair) : ℕ :=
  min (maxAlignment size p.1) (min (maxAlignment size p.2) (maxGpuArchVectorSize platform))

/-! ## 2. Tensors of vectors -/

def reshapeVectorized (vectorBytes size : ℕ) (t : RawTensor) : RawTensor :=
  let elemsPerVector : ℤ := (vectorBytes / size : ℕ)
  { t with
    extents := t.extents.modifyHead (Int.tdiv · elemsPerVector)
    strides := t.strides.take 1 ++ ((t.strides.take t.rank).drop 1).map (Int.tdiv · elemsPerVector) ++
      t.strides.drop (max 1 t.rank) }

/-- What `__reshape_vectorized` asserts.  A vector type is aligned to its size. -/
structure ReshapeAsserts (vectorBytes size : ℕ) (t : RawTensor) : Prop where
  contiguous : t.strides.headD 0 = 1
  extent : (vectorBytes / size : ℕ) ∣ (t.extents.headD 0).toNat
  aligned : (vectorBytes : ℤ) ∣ t.data
  strides : ∀ stride ∈ (t.strides.take t.rank).drop 1, ((vectorBytes / size : ℕ) : ℤ) ∣ stride

/-- The branch that `__dispatch_by_vector_size` takes, if there is one. -/
def dispatchedWidth (platform : VectorPlatform) (size vectorSize : ℕ) : Option ℕ :=
  if platform.ctkAtLeast13 = true ∧ size ≤ 32 ∧ vectorSize = 32 then some 32
  else if size ≤ 16 ∧ vectorSize = 16 then some 16
  else if size ≤ 8 ∧ vectorSize = 8 then some 8
  else if size ≤ 4 ∧ vectorSize = 4 then some 4
  else if size ≤ 2 ∧ vectorSize = 2 then some 2
  else if size ≤ 1 then some 1
  else none

/-- `__dispatch_by_vector_size`: the pair that is copied, and the size of its elements. -/
def dispatchByVectorSize (platform : VectorPlatform) (size : ℕ) (p : RawPair) : Option (RawPair × ℕ) :=
  (dispatchedWidth platform size (vectorSizeBytes platform size p)).map fun width =>
    ((reshapeVectorized width size p.1, reshapeVectorized width size p.2), width)

/-! ## 3. Bytes -/

/-- The types of a copy of elements of one size. -/
def CopyTypes.withSize (types : CopyTypes) (size : ℕ) : CopyTypes :=
  { types with srcSize := size, dstSize := size }

/-- The bytes that an element-wise copy reads, and where it writes them. -/
def transferredBytes (m : DataModel) (types : CopyTypes) (size : ℕ) (p : RawPair) : Multiset (ℤ × ℤ) :=
  (transfers m (types.withSize size) p).bind fun a =>
    (Multiset.range size).map fun b : ℕ => (a.1 + (b : ℤ), a.2 + (b : ℤ))

/-- A pair whose innermost mode is contiguous on both sides: equal extents, none of them empty, strides
that are values of their types, and pointers to something. -/
structure ContiguousPair (m : DataModel) (types : CopyTypes) (p : RawPair) : Prop where
  rank_pos : 0 < p.1.rank
  rank_eq : p.2.rank = p.1.rank
  extents_eq : p.2.extents = p.1.extents
  rank_le : p.1.rank ≤ p.1.extents.length
  src_length : p.1.strides.length = p.1.extents.length
  dst_length : p.2.strides.length = p.1.extents.length
  extent_pos : ∀ e ∈ p.1.activeExtents, 0 < e
  src_contiguous : p.1.strides.headD 0 = 1
  dst_contiguous : p.2.strides.headD 0 = 1
  src_has : ∀ s ∈ p.1.activeStrides, types.srcStride.Has m s
  dst_has : ∀ s ∈ p.2.activeStrides, types.dstStride.Has m s
  src_pointer : 0 < p.1.data ∧ p.1.data < 2 ^ 64
  dst_pointer : 0 < p.2.data ∧ p.2.data < 2 ^ 64

/-- **A vectorised copy is the element-wise one**: the chosen width divides both pointers, the innermost
extent and the other strides in bytes; a branch is taken, whose assertions hold; and it transfers the
same bytes. -/
structure CopiesVectors (m : DataModel) (types : CopyTypes) (platform : VectorPlatform) (size : ℕ)
    (p : RawPair) : Prop where
  pointers : (vectorSizeBytes platform size p : ℤ) ∣ p.1.data ∧
    (vectorSizeBytes platform size p : ℤ) ∣ p.2.data
  extent : vectorSizeBytes platform size p ∣ (p.1.extents.headD 0).toNat * size
  strides : ∀ stride ∈ p.1.activeStrides.drop 1 ++ p.2.activeStrides.drop 1,
    (vectorSizeBytes platform size p : ℤ) ∣ stride * size
  copies : ∃ q width, dispatchByVectorSize platform size p = some (q, width) ∧
    ReshapeAsserts width size p.1 ∧ ReshapeAsserts width size p.2 ∧
    transferredBytes m types width q = transferredBytes m types size p

end Cccl.Mdspan
