/-
# Raw tensors

A `__raw_tensor` is a pointer with arrays of extents and strides, of which the first `__rank` are in use.
A copy between two device views turns them into a pair of raw tensors with the same extents, and then
changes the pair: modes are sorted, turned around, merged and reversed, always in both tensors at once.
What must not change is the pairs of addresses that the coordinates lead to (`transfers`).

Extents, strides and offsets are computed in integer types of their own.  A merge may be found although
the product of extent and stride does not fit into the stride type, and the product of two extents may
not fit into the extent type.
-/
import Cccl.Lib.Modes
import Cccl.Mdspan.View
import Mathlib.Data.List.Sort

namespace Cccl.Mdspan

open IntegerTypes Strided MixedRadix Modes

/-! ## 1. The descriptor -/

/-- `__raw_tensor`, with the pointer as an address and both arrays in full length. -/
structure RawTensor where
  data : ℤ
  rank : ℕ
  extents : List ℤ
  strides : List ℤ
  deriving DecidableEq

/-- The types of a copy: of the extents, of the strides on both sides, and the sizes of the elements. -/
structure CopyTypes where
  extent : IntegerType
  srcStride : IntegerType
  dstStride : IntegerType
  srcSize : ℕ
  dstSize : ℕ

namespace RawTensor

/-- The extents in use. -/
def activeExtents (t : RawTensor) : List ℕ := (t.extents.take t.rank).map Int.toNat

/-- The strides in use. -/
def activeStrides (t : RawTensor) : List ℤ := t.strides.take t.rank

/-- `__offset`: the sum is one of the stride type. -/
def offset (m : DataModel) (S : IntegerType) (t : RawTensor) (c : List ℕ) : ℤ :=
  S.staticCast m (dot c t.strides)

/-- The address of the element at some coordinates. -/
def address (m : DataModel) (S : IntegerType) (size : ℕ) (t : RawTensor) (c : List ℕ) : ℤ :=
  t.data + size * t.offset m S c

end RawTensor

/-- A source and a destination. -/
abbrev RawPair := RawTensor × RawTensor

/-- What the coordinates of a pair lead to: the address to read from, and the address to write to. -/
def transfers (m : DataModel) (types : CopyTypes) (p : RawPair) : Multiset (ℤ × ℤ) :=
  (coords p.1.activeExtents).map fun c =>
    (p.1.address m types.srcStride types.srcSize c, p.2.address m types.dstStride types.dstSize c)

/-! ## 2. From a view -/

section Model

variable (m : DataModel)

/-- `__to_raw_tensor`: modes of extent one are dropped, and the rest of the arrays is filled up. -/
def toRawTensor (T extentType strideType : IntegerType) (maxRank : ℕ) (E : ElementType) (V : View) :
    RawTensor :=
  let extents := V.mapping.extents
  let modes := (extents.zip ((List.range extents.length).map (V.mapping.stride m T ·))).map
    fun mode => (extentType.staticCast m mode.1, strideType.staticCast m mode.2)
  let kept := modes.filter fun mode => mode.1 ≠ 1
  { data := V.data + E.size * V.mapping.offset
    rank := kept.length
    extents := kept.map Prod.fst ++ List.replicate (maxRank - kept.length) 1
    strides := kept.map Prod.snd ++ List.replicate (maxRank - kept.length) 0 }

/-! ## 3. Simplification -/

/-- An extent, and the strides of source and destination. -/
structure PairedMode where
  extent : ℤ
  src : ℤ
  dst : ℤ
  deriving DecidableEq

/-- The modes of a pair, with the extents of the source. -/
def pairedModes (p : RawPair) : List PairedMode :=
  List.zipWith (fun e (s : ℤ × ℤ) => ⟨e, s.1, s.2⟩) (p.1.extents.take p.1.rank)
    ((p.1.strides.take p.1.rank).zip (p.2.strides.take p.1.rank))

def modeComparePaired (lhs rhs : PairedMode) : Bool :=
  |lhs.src| < |rhs.src| || (|lhs.src| == |rhs.src| && |lhs.dst| < |rhs.dst|)

/-- Modes written back to the beginning of the arrays. -/
def writeModes (p : RawPair) (modes : List PairedMode) : RawPair :=
  let extents := modes.map PairedMode.extent ++ p.1.extents.drop modes.length
  ({ p.1 with extents := extents, strides := modes.map PairedMode.src ++ p.1.strides.drop modes.length },
    { p.2 with extents := extents, strides := modes.map PairedMode.dst ++ p.2.strides.drop modes.length })

/-- `__sort_by_stride_paired`.  A mode is inserted before the modes that are not below it, so equal ones
keep their order. -/
def sortByStridePaired (p : RawPair) : RawPair :=
  writeModes p ((pairedModes p).insertionSort fun a b => modeComparePaired b a = false)

/-- One mode of `__flip_negative_strides_paired`. -/
def flipMode (types : CopyTypes) (mode : PairedMode) : PairedMode :=
  if mode.src < 0 ∧ mode.dst < 0 then
    ⟨mode.extent, types.srcStride.staticCast m (-mode.src), types.dstStride.staticCast m (-mode.dst)⟩
  else mode

/-- `__src_adjustment` and `__dst_adjustment`, in elements. -/
def flipAdjustment (types : CopyTypes) (mode : PairedMode) : ℤ × ℤ :=
  if mode.src < 0 ∧ mode.dst < 0 then
    (types.srcStride.staticCast m (types.srcStride.staticCast m (mode.extent - 1) * mode.src),
      types.dstStride.staticCast m (types.dstStride.staticCast m (mode.extent - 1) * mode.dst))
  else 0

/-- `__flip_negative_strides_paired`, which does nothing unless both stride types are signed. -/
def flipNegativeStridesPaired (types : CopyTypes) (p : RawPair) : RawPair :=
  if types.srcStride.signed && types.dstStride.signed then
    let modes := pairedModes p
    let adjustment := (modes.map (flipAdjustment m types)).sum
    let flipped := modes.map (flipMode m types)
    ({ p.1 with
        data := p.1.data + types.srcSize * adjustment.1
        strides := flipped.map PairedMode.src ++ p.1.strides.drop flipped.length },
      { p.2 with
        data := p.2.data + types.dstSize * adjustment.2
        strides := flipped.map PairedMode.dst ++ p.2.strides.drop flipped.length })
  else p

/-- `__src_contiguous && __dst_contiguous`. -/
def goesOn (types : CopyTypes) (last next : PairedMode) : Bool :=
  types.srcStride.staticCast m (types.srcStride.staticCast m last.extent * last.src) == next.src &&
    types.dstStride.staticCast m (types.dstStride.staticCast m last.extent * last.dst) == next.dst

/-- The loop of `__coalesce_paired`, with the mode that was written last. -/
def coalesceModes (types : CopyTypes) (last : PairedMode) : List PairedMode → List PairedMode
  | [] => [last]
  | next :: rest =>
    if goesOn m types last next then
      coalesceModes types
        { last with extent := types.extent.staticCast m (last.extent * next.extent) } rest
    else last :: coalesceModes types next rest

/-- `__coalesce_paired`.  The extents behind the new rank are one. -/
def coalescePaired (types : CopyTypes) (p : RawPair) : RawPair :=
  match pairedModes p with
  | first :: second :: rest =>
    let modes := coalesceModes m types first (second :: rest)
    let outR := modes.length
    let extents := modes.map PairedMode.extent ++ List.replicate (p.1.extents.length - outR) 1
    ({ p.1 with
        rank := outR
        extents := extents
        strides := modes.map PairedMode.src ++ p.1.strides.drop outR },
      { p.2 with
        rank := outR
        extents := extents
        strides := modes.map PairedMode.dst ++ p.2.strides.drop outR })
  | _ => p

/-! ## 4. Queries -/

end Model

end Cccl.Mdspan
