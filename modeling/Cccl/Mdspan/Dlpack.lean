/-
# Conversion to DLPack tensors, and back

A `DLTensor` describes strided memory by a data pointer, a byte offset, and arrays of 64-bit extents and
strides.  `__to_dlpack` fills one in from an `mdspan`; `__to_mdspan` checks one against an element type,
a rank and a layout, and makes an `mdspan` of it.  All checks are here with their messages.

On the way from a tensor the byte offset becomes the offset of a `layout_stride_relaxed` mapping; the
other layouts add it to the data pointer.

The tensor is the one of DLPack 1.2 and later, where the strides are never null.
-/
import Cccl.Mdspan.View

namespace Cccl.Mdspan

open IntegerTypes Strided MixedRadix

/-! ## 1. Tensors -/

inductive DLDeviceType
  | cpu
  | cuda
  | cudaManaged
  | other (code : ℕ)
  deriving DecidableEq

/-- `DLTensor`.  The data pointer is an address, and null if it is zero. -/
structure DLTensor where
  data : ℕ
  deviceType : DLDeviceType
  deviceId : ℤ
  ndim : ℤ
  dtype : DLDataType
  shape : Option (List ℤ)
  strides : Option (List ℤ)
  byteOffset : ℕ

/-- `host_mdspan`, `device_mdspan` and `managed_mdspan`. -/
inductive MemorySpace
  | host
  | device
  | managed
  deriving DecidableEq

def MemorySpace.deviceType : MemorySpace → DLDeviceType
  | .host => .cpu
  | .device => .cuda
  | .managed => .cudaManaged

/-- `int64_t`. -/
def int64 : IntegerType := ⟨.longLong, true⟩

section Model

variable (m : DataModel)

/-! ## 2. From a view to a tensor -/

/-- The loop of `__to_dlpack` over the extents and strides. -/
def dimensions : List (ℕ × ℤ) → Except String (List (ℤ × ℤ))
  | [] => .ok []
  | (extent, stride) :: rest => do
    throwIf (int64.max m < extent) "Extent is too large"
    throwIf ((int64.max m : ℤ) < stride) "Stride is too large"
    let dims ← dimensions rest
    return (int64.staticCast m extent, int64.staticCast m stride) :: dims

/-- `__to_dlpack`, with `get`. -/
def toDlpack (T : IntegerType) (E : ElementType) (V : View) (deviceType : DLDeviceType)
    (deviceId : ℤ) : Except String DLTensor := do
  let rank := V.mapping.extents.length
  let dims ← dimensions m (V.mapping.extents.zip ((List.range rank).map (V.mapping.stride m T ·)))
  return {
    data := if 0 < V.size m T then V.data else 0
    deviceType
    deviceId
    ndim := rank
    dtype := E.dtype
    shape := if 0 < rank then some (dims.map Prod.fst) else none
    strides := if 0 < rank then some (dims.map Prod.snd) else none
    byteOffset := 0 }

/-- `to_dlpack_tensor`.  The driver knows the device of a pointer. -/
def toDlpackTensor (T : IntegerType) (E : ElementType) (space : MemorySpace) (deviceOrdinal : ℤ)
    (V : View) : Except String DLTensor :=
  toDlpack m T E V space.deviceType (if space = .device then deviceOrdinal else 0)

/-! ## 3. From a tensor to a view -/

/-- `__stride = __stride * __shapes[__i]`, checked. -/
def checkedProduct : ℤ → List ℤ → Except String ℤ
  | stride, [] => .ok stride
  | stride, shape :: rest =>
    if int64.Has m (stride * shape) then checkedProduct (stride * shape) rest
    else .error "shape overflow"

def getLayoutRightStride (shapes : List ℤ) (pos : ℕ) : Except String ℤ :=
  checkedProduct m 1 (shapes.drop (pos + 1))

def getLayoutLeftStride (shapes : List ℤ) (pos : ℕ) : Except String ℤ :=
  checkedProduct m 1 (shapes.take pos)

/-- One round of the loop of `__validate_dlpack_strides`. -/
def checkStride (policy : LayoutPolicy) (shapes : List ℤ) (pos : ℕ) (stride : ℤ) :
    Except String Unit :=
  match policy with
  | .right => do
    let expected ← getLayoutRightStride m shapes pos
    throwIf (stride ≠ expected) "DLTensor strides are not compatible with layout_right"
  | .left => do
    let expected ← getLayoutLeftStride m shapes pos
    throwIf (stride ≠ expected) "DLTensor strides are not compatible with layout_left"
  | .stride => throwIf (stride ≤ 0) "layout_stride requires strictly positive strides"
  | .strideRelaxed => .ok ()

/-- `__validate_dlpack_strides`, from a position on. -/
def checkStrides (policy : LayoutPolicy) (shapes : List ℤ) : ℕ → List ℤ → Except String Unit
  | _, [] => .ok ()
  | pos, stride :: rest => do
    checkStride m policy shapes pos stride
    checkStrides policy shapes (pos + 1) rest

/-- The first entries of an array. -/
def entries (rank : ℕ) (array : List ℤ) : List ℤ := (List.range rank).map (array.getD · 0)

/-- `__validate_dlpack_strides`, with the strides it has validated. -/
def validateDlpackStrides (policy : LayoutPolicy) (rank : ℕ) (shapes : List ℤ)
    (strides : Option (List ℤ)) : Except String (List ℤ) :=
  match strides with
  | none => .error "strides=nullptr is not supported for DLPack v1.2 and later"
  | some strides => do
    checkStrides m policy shapes 0 (entries rank strides)
    return entries rank strides

/-- The strides of the view; there are none for rank zero. -/
def viewStrides (policy : LayoutPolicy) (rank : ℕ) (shapes : List ℤ)
    (strides : Option (List ℤ)) : Except String (List ℤ) :=
  if rank = 0 then .ok [] else validateDlpackStrides m policy rank shapes strides

/-- The size of an element in bytes, by the data type; nothing for elements below one byte. -/
def datatypeSize (dtype : DLDataType) : ℕ := dtype.bits * dtype.lanes / 8

/-- The data pointer of the view. -/
def dataPointer (policy : LayoutPolicy) (t : DLTensor) : ℕ :=
  if policy = .strideRelaxed then t.data
  else if t.data ≠ 0 then (t.data + t.byteOffset) % 2 ^ 64
  else 0

/-- The mapping of the view. -/
def makeMapping (policy : LayoutPolicy) (E : ElementType) (t : DLTensor) (shapes strides : List ℤ) :
    AnyMapping :=
  let extents := shapes.map Int.toNat
  match policy with
  | .left => .standard ⟨.left, extents⟩
  | .right => .standard ⟨.right, extents⟩
  | .stride => .standard ⟨.stride strides, extents⟩
  | .strideRelaxed =>
    .relaxed ⟨extents, strides, int64.staticCast m ((t.byteOffset / E.size : ℕ) : ℤ)⟩

def toMdspan (policy : LayoutPolicy) (rank : ℕ) (E : ElementType) (t : DLTensor) :
    Except String View := do
  throwIf (t.ndim ≠ rank) "DLTensor rank does not match expected rank"
  throwIf (t.dtype ≠ E.dtype) "DLTensor data type does not match expected type"
  throwIf (0 < rank ∧ t.shape = none) "DLTensor shape must be non-null"
  let shapes := entries rank (t.shape.getD [])
  throwIf (∃ shape ∈ shapes, shape < 0) "DLTensor shapes must be positive"
  throwIf (t.data = 0 ∧ ¬ 0 ∈ shapes) "DLTensor data must be non-null"
  throwIf (policy = .strideRelaxed ∧ 0 < datatypeSize t.dtype ∧
    t.byteOffset % datatypeSize t.dtype ≠ 0) "DLTensor byte_offset must be a multiple of element size"
  throwIf (0 < datatypeSize t.dtype ∧ dataPointer policy t % datatypeSize t.dtype ≠ 0)
    "DLTensor data must be aligned to the data type"
  let strides ← viewStrides m policy rank shapes t.strides
  return ⟨dataPointer policy t, makeMapping m policy E t shapes strides⟩

/-- `to_host_mdspan`, `to_device_mdspan` and `to_managed_mdspan`. -/
def toSpaceMdspan (space : MemorySpace) (policy : LayoutPolicy) (rank : ℕ) (E : ElementType)
    (t : DLTensor) : Except String View := do
  throwIf (t.deviceType ≠ space.deviceType) (match space with
    | .host => "DLTensor device type must be kDLCPU for host_mdspan"
    | .device => "DLTensor device type must be kDLCUDA for device_mdspan"
    | .managed => "DLTensor device type must be kDLCUDAManaged for managed_mdspan")
  toMdspan m policy rank E t

end Model

/-! ## 4. Runs that do not throw -/

section Runs

variable {m : DataModel} {α : Type}

theorem dimensions_eq_ok : ∀ {dims : List (ℕ × ℤ)} {result : List (ℤ × ℤ)},
    dimensions m dims = .ok result ↔
      (∀ d ∈ dims, d.1 ≤ int64.max m ∧ d.2 ≤ int64.max m) ∧
        result = dims.map fun d => (int64.staticCast m d.1, int64.staticCast m d.2)
  | [], result => by
    rw [dimensions]
    exact ⟨fun h => ⟨fun d hd => absurd hd List.not_mem_nil, (Except.ok.inj h).symm⟩,
      fun h => congrArg Except.ok h.2.symm⟩
  | (extent, stride) :: rest, result => by
    rw [dimensions, throwIf_bind_eq_ok, throwIf_bind_eq_ok, bind_eq_ok, List.forall_mem_cons,
      not_lt, not_lt]
    constructor
    · rintro ⟨hextent, hstride, dims, hdims, hresult⟩
      obtain ⟨hrest, hdims⟩ := dimensions_eq_ok.mp hdims
      refine ⟨⟨⟨hextent, hstride⟩, hrest⟩, ?_⟩
      rw [List.map_cons, ← hdims]
      exact (Except.ok.inj hresult).symm
    · rintro ⟨⟨⟨hextent, hstride⟩, hrest⟩, hresult⟩
      exact ⟨hextent, hstride, _, dimensions_eq_ok.mpr ⟨hrest, rfl⟩, congrArg Except.ok hresult.symm⟩

/-- **When `__to_mdspan` accepts a tensor**, and what it makes of it. -/
theorem toMdspan_eq_ok {policy : LayoutPolicy} {rank : ℕ} {E : ElementType} {t : DLTensor}
    {V : View} : toMdspan m policy rank E t = .ok V ↔
      t.ndim = rank ∧ t.dtype = E.dtype ∧ ¬ (0 < rank ∧ t.shape = none) ∧
      (∀ shape ∈ entries rank (t.shape.getD []), 0 ≤ shape) ∧
      ¬ (t.data = 0 ∧ ¬ 0 ∈ entries rank (t.shape.getD [])) ∧
      ¬ (policy = .strideRelaxed ∧ 0 < datatypeSize t.dtype ∧
        t.byteOffset % datatypeSize t.dtype ≠ 0) ∧
      ¬ (0 < datatypeSize t.dtype ∧ dataPointer policy t % datatypeSize t.dtype ≠ 0) ∧
      ∃ strides, viewStrides m policy rank (entries rank (t.shape.getD [])) t.strides =
          .ok strides ∧
        V = ⟨dataPointer policy t,
          makeMapping m policy E t (entries rank (t.shape.getD [])) strides⟩ := by
  have hnonneg : (¬ ∃ shape ∈ entries rank (t.shape.getD []), shape < 0) ↔
      ∀ shape ∈ entries rank (t.shape.getD []), 0 ≤ shape := by
    push Not
    exact Iff.rfl
  rw [toMdspan, throwIf_bind_eq_ok, throwIf_bind_eq_ok, throwIf_bind_eq_ok, throwIf_bind_eq_ok,
    throwIf_bind_eq_ok, throwIf_bind_eq_ok, throwIf_bind_eq_ok, bind_eq_ok, not_not, not_not, hnonneg]
  refine and_congr_right fun _ => and_congr_right fun _ => and_congr_right fun _ =>
    and_congr_right fun _ => and_congr_right fun _ => and_congr_right fun _ =>
    and_congr_right fun _ => exists_congr fun strides => and_congr_right fun _ => ?_
  exact ⟨fun h => (Except.ok.inj h).symm, fun h => congrArg Except.ok h.symm⟩

theorem checkStrides_eq_ok {policy : LayoutPolicy} {shapes : List ℤ} :
    ∀ {strides : List ℤ} {pos : ℕ}, checkStrides m policy shapes pos strides = .ok () ↔
      ∀ i (h : i < strides.length), checkStride m policy shapes (pos + i) strides[i] = .ok ()
  | [], pos => ⟨fun _ i h => absurd h (Nat.not_lt_zero i), fun _ => rfl⟩
  | stride :: rest, pos => by
    rw [checkStrides, bind_eq_ok]
    constructor
    · rintro ⟨_, hhead, hrest⟩ i hi
      cases i with
      | zero => exact hhead
      | succ i =>
        have h := checkStrides_eq_ok.mp hrest i (Nat.lt_of_succ_lt_succ hi)
        rw [Nat.add_right_comm] at h
        exact h
    · intro h
      refine ⟨(), h 0 (Nat.succ_pos _), checkStrides_eq_ok.mpr fun i hi => ?_⟩
      have h' := h (i + 1) (Nat.succ_lt_succ hi)
      rw [← Nat.add_assoc, Nat.add_right_comm] at h'
      exact h'

theorem checkedProduct_ok : ∀ {shapes : List ℤ} {stride v : ℤ},
    checkedProduct m stride shapes = .ok v → v = stride * shapes.prod
  | [], stride, v, h => by
    rw [List.prod_nil, mul_one]
    exact (Except.ok.inj h).symm
  | shape :: rest, stride, v, h => by
    rw [checkedProduct] at h
    split at h
    · rw [checkedProduct_ok h, List.prod_cons, mul_assoc]
    · exact absurd h error_ne_ok

theorem checkedProduct_of_le : ∀ {shapes : List ℕ} {stride : ℕ}, (∀ s ∈ shapes, 0 < s) →
    stride * shapes.prod ≤ int64.max m →
      checkedProduct m stride (shapes.map Nat.cast) = .ok ((stride * shapes.prod : ℕ) : ℤ)
  | [], stride, _, _ => by
    rw [List.prod_nil, Nat.mul_one]
    rfl
  | shape :: rest, stride, hpos, hle => by
    obtain ⟨-, hrest⟩ := List.forall_mem_cons.mp hpos
    have hprod : 0 < rest.prod := List.prod_pos hrest
    rw [List.prod_cons, ← Nat.mul_assoc] at hle ⊢
    have hpart : stride * shape ≤ int64.max m := (Nat.le_mul_of_pos_right _ hprod).trans hle
    have hhas : int64.Has m ((stride : ℤ) * (shape : ℤ)) := by
      rw [← Nat.cast_mul]
      exact IntegerType.has_of_le hpart
    rw [List.map_cons, checkedProduct, if_pos hhas, ← Nat.cast_mul]
    exact checkedProduct_of_le hrest hle

end Runs

end Cccl.Mdspan
