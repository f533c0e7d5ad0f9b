/-
# Copying a buffer with vector stores

`vectorized_copy` of `agent_batch_memcpy.cuh`: a group of threads copies the bytes before the first aligned address one
by one, then vectors, and then what is left.  A vector is loaded in words from the last aligned address on, and shifted
into place (`loadVector_eq`).

What a thread does is seen up to some number of iterations of each loop, as the counter of the bytes may go around the
end of its type and then never stops.  Whatever is done stays within the destination, and each of its bytes is written
(`vectorizedCopy_writes`).
-/
import Mathlib.Algebra.Order.Ring.Nat
import Mathlib.Data.List.Range

namespace Cccl.BatchMemcpy

abbrev Byte := BitVec 8

/-! ## 1. The code -/

/-- The types of vectorized stores. -/
inductive VectorT where
  | uint
  | uint2
  | uint4
  deriving DecidableEq

/-- The number of words. -/
def VectorT.words : VectorT → ℕ
  | uint => 1
  | uint2 => 2
  | uint4 => 4

/-- `sizeof`. -/
def VectorT.size (T : VectorT) : ℕ := 4 * T.words

/-- A `uint32_t` in memory, the least significant byte first. -/
def wordAt (memory : ℕ → Byte) (address : ℕ) : ℕ :=
  (memory address).toNat + 2 ^ 8 * (memory (address + 1)).toNat + 2 ^ 16 * (memory (address + 2)).toNat +
    2 ^ 24 * (memory (address + 3)).toNat

def bytesOfWord (word : ℕ) : List Byte :=
  [BitVec.ofNat 8 word, BitVec.ofNat 8 (word / 2 ^ 8), BitVec.ofNat 8 (word / 2 ^ 16), BitVec.ofNat 8 (word / 2 ^ 24)]

def funnelShiftR (lo hi shift : ℕ) : ℕ := (lo + 2 ^ 32 * hi) / 2 ^ (shift % 32) % 2 ^ 32

/-- What a thread does with memory in an iteration: the bytes that it loads, and those that it stores. -/
structure Access where
  loads : List ℕ
  address : ℕ
  bytes : List Byte

/-- `LoadVectorAndFunnelShiftR`: the words of the vector. -/
def loadVectorAndFunnelShiftR (T : VectorT) (memory : ℕ → Byte) (ptrIsFourByteAligned : Bool)
    (alignedPtr bitShift : ℕ) : List ℕ :=
  (List.range T.words).map fun i =>
    let data := wordAt memory (alignedPtr + 4 * i)
    if ptrIsFourByteAligned then data
    else funnelShiftR data (wordAt memory (alignedPtr + 4 * (i + 1))) bitShift

def loadVector (T : VectorT) (memory : ℕ → Byte) (ptr : ℕ) : List ℕ :=
  let offset := ptr % 4
  let alignedPtr := ptr - offset
  let bitShift := offset * 8
  loadVectorAndFunnelShiftR T memory (offset = 0) alignedPtr bitShift

/-- The bytes that `LoadVector` touches. -/
def loadVectorLoads (T : VectorT) (ptr : ℕ) : List ℕ :=
  let offset := ptr % 4
  let alignedPtr := ptr - offset
  let words := if offset = 0 then T.words else T.words + 1
  (List.range (4 * words)).map (alignedPtr + ·)

structure PointerRange where
  outBegin : ℕ
  outEnd : ℕ
  inBegin : ℕ
  inEnd : ℕ

def roundUp (a b : ℕ) : ℕ := (a + b - 1) / b * b

/-- `GetAlignedPtrs`, for a number of bytes of an unsigned type of some bits. -/
def getAlignedPtrs (T : VectorT) (offsetBits inPtr outPtr numBytes : ℕ) : PointerRange :=
  let outDatatypeSize := T.size
  let inDatatypeSize := 4
  let alignmentOffset := outPtr % outDatatypeSize
  let outCharsAligned := outPtr - alignmentOffset
  let inExtraBytes := inPtr % inDatatypeSize
  let inOffsetReq := inExtraBytes
  let outStartAligned := roundUp (inOffsetReq + alignmentOffset) outDatatypeSize
  let outAlignedBegin := outCharsAligned + outStartAligned
  let inAlignedBegin := inPtr + (outAlignedBegin - outPtr)
  let inExtraBytesFromAligned := inAlignedBegin % inDatatypeSize
  let inEndPaddingReq := (inDatatypeSize - inExtraBytesFromAligned) % inDatatypeSize
  let outEndAligned :=
    if numBytes < inEndPaddingReq + alignmentOffset then outStartAligned
    else
      -- in the larger one of the type and of `uint32_t`, and then in `uint32_t`
      (numBytes - inEndPaddingReq + alignmentOffset) % 2 ^ max 32 offsetBits / outDatatypeSize * outDatatypeSize % 2 ^ 32
  let outAlignedEnd := outCharsAligned + outEndAligned
  ⟨outAlignedBegin, outAlignedEnd, inAlignedBegin, inPtr + outAlignedEnd - outPtr⟩

/-- What is done in some iterations, and whether the end is reached. -/
structure Trace where
  accesses : List Access
  ended : Bool

/-- Iterations of a loop. -/
def loop {σ : Type} (test : σ → Bool) (body : σ → Access) (advance : σ → σ) : ℕ → σ → Trace
  | 0, s => ⟨[], !test s⟩
  | fuel + 1, s =>
    if test s then
      let rest := loop test body advance fuel (advance s)
      ⟨body s :: rest.accesses, rest.ended⟩
    else ⟨[], true⟩

/-- What is done behind a loop. -/
def Trace.andThen (first second : Trace) : Trace :=
  if first.ended then ⟨first.accesses ++ second.accesses, second.ended⟩ else first

/-- A loop that moves two pointers. -/
def pointerLoop (body : ℕ → ℕ → Access) (limit step fuel outPtr inPtr : ℕ) : Trace :=
  loop (fun p => decide (p.1 < limit)) (fun p => body p.1 p.2) (fun p => (p.1 + step, p.2 + step)) fuel (outPtr, inPtr)

/-- A byte is copied. -/
def byteAccess (memory : ℕ → Byte) (outPtr inPtr : ℕ) : Access := ⟨[inPtr], outPtr, [memory inPtr]⟩

/-- A vector is copied. -/
def vectorAccess (T : VectorT) (memory : ℕ → Byte) (outPtr inPtr : ℕ) : Access :=
  ⟨loadVectorLoads T inPtr, outPtr, (loadVector T memory inPtr).flatMap bytesOfWord⟩

/-- `vectorized_copy` of a thread, with the number of bits of `ByteOffsetT`. -/
def vectorizedCopy (logicalWarpSize : ℕ) (T : VectorT) (offsetBits : ℕ) (memory : ℕ → Byte)
    (threadRank dest numBytes src fuel : ℕ) : Trace :=
  let alignedRange := getAlignedPtrs T offsetBits src dest numBytes
  if alignedRange.outEnd ≤ alignedRange.outBegin then
    loop (fun ichar => decide (ichar < numBytes)) (fun ichar => byteAccess memory (dest + ichar) (src + ichar))
      (fun ichar => (ichar + logicalWarpSize) % 2 ^ offsetBits) fuel (threadRank % 2 ^ offsetBits)
  else
    let head := pointerLoop (byteAccess memory) alignedRange.outBegin logicalWarpSize fuel (dest + threadRank)
      (src + threadRank)
    let body := pointerLoop (vectorAccess T memory) alignedRange.outEnd (T.size * logicalWarpSize) fuel
      (alignedRange.outBegin + threadRank * T.size) (alignedRange.inBegin + threadRank * T.size)
    let tail := pointerLoop (byteAccess memory) (dest + numBytes) logicalWarpSize fuel
      (alignedRange.outEnd + threadRank) (alignedRange.inEnd + threadRank)
    head.andThen (body.andThen tail)

variable {T : VectorT} {memory : ℕ → Byte} {offsetBits : ℕ}

/-! ## 2. A vector -/

theorem bytesOfWord_wordAt (memory : ℕ → Byte) (address : ℕ) : bytesOfWord (wordAt memory address) =
    [memory address, memory (address + 1), memory (address + 2), memory (address + 3)] := by
  have h0 := (memory address).isLt
  have h1 := (memory (address + 1)).isLt
  have h2 := (memory (address + 2)).isLt
  have h3 := (memory (address + 3)).isLt
  simp only [bytesOfWord, List.cons.injEq, and_true, ← BitVec.toNat_inj, BitVec.toNat_ofNat, wordAt]
  refine ⟨?_, ?_, ?_, ?_⟩ <;> omega

theorem funnelShiftR_wordAt (memory : ℕ → Byte) (address : ℕ) {offset : ℕ} (hoffset : offset < 4) :
    funnelShiftR (wordAt memory address) (wordAt memory (address + 4)) (offset * 8) = wordAt memory (address + offset) := by
  have h0 := (memory address).isLt
  have h1 := (memory (address + 1)).isLt
  have h2 := (memory (address + 2)).isLt
  have h3 := (memory (address + 3)).isLt
  have h4 := (memory (address + 4)).isLt
  have h5 := (memory (address + 5)).isLt
  have h6 := (memory (address + 6)).isLt
  have h7 := (memory (address + 7)).isLt
  have hcases : offset = 0 ∨ offset = 1 ∨ offset = 2 ∨ offset = 3 := by omega
  rcases hcases with rfl | rfl | rfl | rfl
  all_goals
    simp only [funnelShiftR, wordAt, Nat.add_assoc, Nat.reduceAdd, Nat.reduceMul, Nat.reduceMod, Nat.reducePow,
      Nat.add_zero]
    omega

/-- **The words of a vector** are those at its address. -/
theorem loadVector_eq (T : VectorT) (memory : ℕ → Byte) (ptr : ℕ) :
    loadVector T memory ptr = (List.range T.words).map fun i => wordAt memory (ptr + 4 * i) := by
  have hle : ptr % 4 ≤ ptr := Nat.mod_le ptr 4
  refine List.map_congr_left fun i _ => ?_
  dsimp only
  split
  · rename_i h
    rw [decide_eq_true_eq] at h
    rw [h, Nat.sub_zero]
  · rw [show ptr - ptr % 4 + 4 * (i + 1) = ptr - ptr % 4 + 4 * i + 4 by omega,
      funnelShiftR_wordAt memory _ (Nat.mod_lt ptr (by decide))]
    congr 1
    omega

/-- **The bytes of a vector** are those at its address. -/
theorem vectorAccess_bytes (T : VectorT) (memory : ℕ → Byte) (outPtr inPtr : ℕ) :
    (vectorAccess T memory outPtr inPtr).bytes = (List.range T.size).map fun k => memory (inPtr + k) := by
  rw [vectorAccess, loadVector_eq]
  dsimp only
  rw [List.flatMap_map]
  simp only [bytesOfWord_wordAt]
  cases T <;> rfl

/-! ## 3. Loops -/

section Loop

variable {σ : Type} {test : σ → Bool} {body : σ → Access} {advance : σ → σ} {a : Access}

/-- **What is done in a loop**: the body for each state up to which all tests are passed. -/
theorem mem_loop : ∀ {fuel : ℕ} {s : σ}, a ∈ (loop test body advance fuel s).accesses ↔
    ∃ k < fuel, (∀ j ≤ k, test (advance^[j] s) = true) ∧ a = body (advance^[k] s)
  | 0, s => by
    refine iff_of_false List.not_mem_nil ?_
    rintro ⟨k, hk, -⟩
    exact absurd hk (Nat.not_lt_zero k)
  | fuel + 1, s => by
    rw [loop]
    split
    · rename_i htest
      rw [List.mem_cons, mem_loop]
      constructor
      · rintro (rfl | ⟨k, hk, hall, rfl⟩)
        · refine ⟨0, Nat.succ_pos _, fun j hj => ?_, rfl⟩
          obtain rfl : j = 0 := by omega
          exact htest
        · refine ⟨k + 1, by omega, fun j hj => ?_, rfl⟩
          cases j with
          | zero => exact htest
          | succ j => exact hall j (by omega)
      · rintro ⟨k, hk, hall, rfl⟩
        cases k with
        | zero => exact Or.inl rfl
        | succ k => exact Or.inr ⟨k, by omega, fun j hj => hall (j + 1) (by omega), rfl⟩
    · rename_i htest
      refine iff_of_false List.not_mem_nil ?_
      rintro ⟨k, -, hall, -⟩
      exact htest (hall 0 (Nat.zero_le k))

theorem loop_ended : ∀ {fuel : ℕ} {s : σ}, (∃ k ≤ fuel, test (advance^[k] s) = false) →
    (loop test body advance fuel s).ended = true
  | 0, s, ⟨k, hk, h⟩ => by
    obtain rfl : k = 0 := by omega
    change test s = false at h
    rw [loop, h]
    rfl
  | fuel + 1, s, ⟨k, hk, h⟩ => by
    rw [loop]
    split
    · rename_i htest
      cases k with
      | zero =>
        change test s = false at h
        rw [h] at htest
        cases htest
      | succ k => exact loop_ended ⟨k, by omega, h⟩
    · rfl

end Loop

theorem iterate_pointers (step k : ℕ) : ∀ p : ℕ × ℕ,
    (fun p : ℕ × ℕ => (p.1 + step, p.2 + step))^[k] p = (p.1 + k * step, p.2 + k * step) := by
  induction k with
  | zero => exact fun p => by rw [Function.iterate_zero, id, Nat.zero_mul, Nat.add_zero, Nat.add_zero]
  | succ k ih =>
    intro p
    rw [Function.iterate_succ_apply, ih, Nat.succ_mul]
    ext <;> dsimp only <;> omega

theorem iterate_counter (step k r : ℕ) :
    (fun i => (i + step) % 2 ^ offsetBits)^[k] (r % 2 ^ offsetBits) = (r + k * step) % 2 ^ offsetBits := by
  induction k generalizing r with
  | zero => rw [Function.iterate_zero, id, Nat.zero_mul, Nat.add_zero]
  | succ k ih =>
    rw [Function.iterate_succ_apply, Nat.mod_add_mod, ih, Nat.succ_mul]
    congr 1
    omega

variable {body : ℕ → ℕ → Access} {limit step fuel outPtr inPtr : ℕ} {a : Access}

theorem mem_pointerLoop : a ∈ (pointerLoop body limit step fuel outPtr inPtr).accesses ↔
    ∃ k < fuel, outPtr + k * step < limit ∧ a = body (outPtr + k * step) (inPtr + k * step) := by
  rw [pointerLoop, mem_loop]
  simp only [iterate_pointers, decide_eq_true_eq]
  refine exists_congr fun k => and_congr_right fun _ => and_congr_left fun _ => ?_
  constructor
  · exact fun h => h k le_rfl
  · exact fun h j hj => (Nat.add_le_add_left (Nat.mul_le_mul_right step hj) _).trans_lt h

theorem pointerLoop_ended (hstep : 0 < step) (hfuel : limit ≤ fuel) :
    (pointerLoop body limit step fuel outPtr inPtr).ended = true := by
  refine loop_ended ⟨fuel, le_rfl, ?_⟩
  rw [iterate_pointers, decide_eq_false_iff_not, Nat.not_lt]
  have := Nat.le_mul_of_pos_right fuel hstep
  dsimp only
  omega

/-! ## 4. The aligned range -/

section Range

variable {src dest numBytes : ℕ}

/-- What the aligned range is for: vectors of the destination, and what is loaded for them does not go past the end. -/
structure AlignedRange (T : VectorT) (src dest numBytes : ℕ) (r : PointerRange) : Prop where
  begin_ge : dest ≤ r.outBegin
  end_le : r.outEnd ≤ dest + numBytes
  begin_dvd : T.size ∣ r.outBegin
  end_dvd : T.size ∣ r.outEnd
  inBegin_eq : r.inBegin = src + (r.outBegin - dest)
  inEnd_eq : r.inEnd = src + (r.outEnd - dest)
  padding : r.inBegin % 4 = 0 ∨ r.outEnd + (4 - r.inBegin % 4) ≤ dest + numBytes

/-- The number of bytes before the aligned range. -/
def headBytes (T : VectorT) (src dest : ℕ) : ℕ := roundUp (src % 4 + dest % T.size) T.size - dest % T.size

/-- How many bytes are loaded behind a vector. -/
def paddingBytes (T : VectorT) (src dest : ℕ) : ℕ := (4 - (src + headBytes T src dest) % 4) % 4

/-- Where the aligned range ends, from the last aligned address before the destination on. -/
def rangeEnd (T : VectorT) (src dest numBytes : ℕ) : ℕ :=
  (numBytes - paddingBytes T src dest + dest % T.size) % 2 ^ 32 / T.size * T.size

theorem VectorT.size_pos (T : VectorT) : 0 < T.size := by cases T <;> decide

theorem VectorT.size_dvd (T : VectorT) : T.size ∣ 2 ^ 32 := by cases T <;> decide

theorem dvd_roundUp (a b : ℕ) : b ∣ roundUp a b := Nat.dvd_mul_left _ _

theorem le_roundUp {a b : ℕ} (hb : 0 < b) : a ≤ roundUp a b ∧ roundUp a b < a + b := by
  have hdiv := Nat.div_add_mod (a + b - 1) b
  have hmod := Nat.mod_lt (a + b - 1) hb
  rw [Nat.mul_comm] at hdiv
  rw [roundUp]
  omega

theorem roundUp_eq_add_headBytes (T : VectorT) (src dest : ℕ) :
    roundUp (src % 4 + dest % T.size) T.size = dest % T.size + headBytes T src dest := by
  have := (le_roundUp (a := src % 4 + dest % T.size) T.size_pos).1
  rw [headBytes]
  omega

/-- Cutting off to whole vectors and to 32 bits can be done in any order. -/
theorem div_mul_mod (T : VectorT) (n : ℕ) : n / T.size * T.size % 2 ^ 32 = n % 2 ^ 32 / T.size * T.size := by
  obtain ⟨q, hq⟩ := T.size_dvd
  rw [hq, Nat.mul_comm T.size q, Nat.mul_mod_mul_right, Nat.mul_comm q, Nat.mod_mul_right_div_self]

/-- **The pointers** in terms of the bytes before the range and behind it. -/
theorem getAlignedPtrs_eq (T : VectorT) (offsetBits src dest numBytes : ℕ) :
    let outEnd :=
      if numBytes < paddingBytes T src dest + dest % T.size then dest + headBytes T src dest
      else dest - dest % T.size + rangeEnd T src dest numBytes
    getAlignedPtrs T offsetBits src dest numBytes =
      ⟨dest + headBytes T src dest, outEnd, src + headBytes T src dest, src + outEnd - dest⟩ := by
  have hle := Nat.mod_le dest T.size
  have hbegin : dest - dest % T.size + (dest % T.size + headBytes T src dest) = dest + headBytes T src dest := by omega
  have hdvd : 2 ^ 32 ∣ 2 ^ max 32 offsetBits := Nat.pow_dvd_pow 2 (Nat.le_max_left _ _)
  have hend : ∀ n : ℕ, n % 2 ^ max 32 offsetBits / T.size * T.size % 2 ^ 32 = n % 2 ^ 32 / T.size * T.size := fun n => by
    rw [div_mul_mod, Nat.mod_mod_of_dvd _ hdvd]
  dsimp only
  rw [getAlignedPtrs]
  simp only [roundUp_eq_add_headBytes, hbegin, hend, Nat.add_sub_cancel_left]
  rw [show (4 - (src + headBytes T src dest) % 4) % 4 = paddingBytes T src dest from rfl]
  split
  · rw [hbegin]
  · rfl

/-- **The aligned range**, if it is not empty. -/
theorem alignedRange (h : (getAlignedPtrs T offsetBits src dest numBytes).outBegin <
    (getAlignedPtrs T offsetBits src dest numBytes).outEnd) :
    AlignedRange T src dest numBytes (getAlignedPtrs T offsetBits src dest numBytes) := by
  have hround := roundUp_eq_add_headBytes T src dest
  have hle := Nat.mod_le dest T.size
  rw [getAlignedPtrs_eq] at h ⊢
  dsimp only at h ⊢
  split at h
  · exact absurd h (Nat.lt_irrefl _)
  · rename_i hfits
    rw [if_neg hfits]
    have hend : rangeEnd T src dest numBytes ≤ numBytes - paddingBytes T src dest + dest % T.size :=
      (Nat.div_mul_le_self _ _).trans (Nat.mod_le _ _)
    have hpadding : paddingBytes T src dest = (4 - (src + headBytes T src dest) % 4) % 4 := rfl
    have haligned : T.size ∣ dest - dest % T.size := Nat.dvd_sub_mod dest
    refine ⟨Nat.le_add_right _ _, ?_, ?_, ?_, ?_, ?_, ?_⟩ <;> dsimp only
    · omega
    · rw [show dest + headBytes T src dest = dest - dest % T.size + (dest % T.size + headBytes T src dest) by omega,
        ← hround]
      exact (Nat.dvd_add_right haligned).mpr (dvd_roundUp _ _)
    · exact (Nat.dvd_add_right haligned).mpr (Nat.dvd_mul_left _ _)
    · omega
    · omega
    · omega

theorem outBegin_lt_outEnd (hlong : 2 * T.size + 5 ≤ numBytes) (hfits : numBytes + T.size ≤ 2 ^ 32) :
    (getAlignedPtrs T offsetBits src dest numBytes).outBegin <
      (getAlignedPtrs T offsetBits src dest numBytes).outEnd := by
  have hround := roundUp_eq_add_headBytes T src dest
  have hless := (le_roundUp (a := src % 4 + dest % T.size) T.size_pos).2
  have hmod := Nat.mod_lt dest T.size_pos
  have hle := Nat.mod_le dest T.size
  have hsrc := Nat.mod_lt src (show 0 < 4 by decide)
  have hpadding : paddingBytes T src dest < 4 := Nat.mod_lt _ (by decide)
  have hnot : ¬numBytes < paddingBytes T src dest + dest % T.size := by omega
  rw [getAlignedPtrs_eq]
  dsimp only
  rw [if_neg hnot]
  have hend : numBytes - paddingBytes T src dest + dest % T.size < rangeEnd T src dest numBytes + T.size := by
    have hlt : numBytes - paddingBytes T src dest + dest % T.size < 2 ^ 32 := by omega
    rw [rangeEnd, Nat.mod_eq_of_lt hlt]
    have hdiv := Nat.div_add_mod (numBytes - paddingBytes T src dest + dest % T.size) T.size
    have hrest := Nat.mod_lt (numBytes - paddingBytes T src dest + dest % T.size) T.size_pos
    rw [Nat.mul_comm] at hdiv
    omega
  omega

end Range

/-! ## 5. What is written -/

section Writes

variable {src dest numBytes logicalWarpSize : ℕ}

theorem mem_andThen {first second : Trace} : a ∈ (first.andThen second).accesses ↔
    a ∈ first.accesses ∨ first.ended = true ∧ a ∈ second.accesses := by
  rw [Trace.andThen]
  split
  · rename_i h
    rw [List.mem_append, and_iff_right h]
  · rename_i h
    rw [or_iff_left fun h' => h h'.1]

theorem andThen_ended {first second : Trace} (hfirst : first.ended = true) (hsecond : second.ended = true) :
    (first.andThen second).ended = true := by
  rw [Trace.andThen, if_pos hfirst]
  exact hsecond

/-- What is stored is within the destination, by a byte or by an aligned vector, and is what the source has there. -/
structure Copies (T : VectorT) (memory : ℕ → Byte) (src dest numBytes : ℕ) (a : Access) : Prop where
  begin_ge : dest ≤ a.address
  end_le : a.address + a.bytes.length ≤ dest + numBytes
  size : a.bytes.length = 1 ∨ a.bytes.length = T.size ∧ T.size ∣ a.address
  byte : ∀ k < a.bytes.length, a.bytes[k]? = some (memory (src + (a.address - dest) + k))

theorem copies_byteAccess {i : ℕ} (hi : i < numBytes) :
    Copies T memory src dest numBytes (byteAccess memory (dest + i) (src + i)) := by
  refine ⟨Nat.le_add_right _ _, ?_, Or.inl rfl, fun k hk => ?_⟩
  · change dest + i + 1 ≤ dest + numBytes
    omega
  · obtain rfl : k = 0 := Nat.lt_one_iff.mp hk
    change some (memory (src + i)) = some (memory (src + (dest + i - dest) + 0))
    rw [Nat.add_sub_cancel_left, Nat.add_zero]

theorem copies_vectorAccess {i : ℕ} (hi : i + T.size ≤ numBytes) (hdvd : T.size ∣ dest + i) :
    Copies T memory src dest numBytes (vectorAccess T memory (dest + i) (src + i)) := by
  have hlength : (vectorAccess T memory (dest + i) (src + i)).bytes.length = T.size := by
    rw [vectorAccess_bytes, List.length_map, List.length_range]
  refine ⟨Nat.le_add_right _ _, ?_, Or.inr ⟨hlength, hdvd⟩, fun k hk => ?_⟩
  · rw [hlength]
    change dest + i + T.size ≤ dest + numBytes
    omega
  · rw [hlength] at hk
    change _ = some (memory (src + (dest + i - dest) + k))
    rw [vectorAccess_bytes, List.getElem?_map, List.getElem?_range hk, Nat.add_sub_cancel_left]
    rfl

/-- The vectors of a range that both starts and ends at multiples of their size do not go past its end. -/
theorem add_le_of_dvd {size x y : ℕ} (hx : size ∣ x) (hy : size ∣ y) (hlt : x < y) : x + size ≤ y := by
  have := Nat.le_of_dvd (Nat.sub_pos_of_lt hlt) (Nat.dvd_sub hy hx)
  omega

/-- **Whatever a thread does** is a copy within the buffer. -/
theorem copies_of_mem {threadRank : ℕ}
    (h : a ∈ (vectorizedCopy logicalWarpSize T offsetBits memory threadRank dest numBytes src fuel).accesses) :
    Copies T memory src dest numBytes a := by
  rw [vectorizedCopy] at h
  split at h
  · obtain ⟨k, -, hall, rfl⟩ := mem_loop.mp h
    exact copies_byteAccess (of_decide_eq_true (hall k le_rfl))
  · rename_i hrange
    obtain ⟨hbegin, hend, hbeginDvd, hendDvd, hinBegin, hinEnd, -⟩ := alignedRange (Nat.not_le.mp hrange)
    rcases mem_andThen.mp h with hhead | ⟨-, hrest⟩
    · obtain ⟨k, -, hlt, rfl⟩ := mem_pointerLoop.mp hhead
      rw [Nat.add_assoc dest, Nat.add_assoc src]
      exact copies_byteAccess (by omega)
    · rcases mem_andThen.mp hrest with hbody | ⟨-, htail⟩
      · obtain ⟨k, -, hlt, rfl⟩ := mem_pointerLoop.mp hbody
        have hdvd := (Nat.dvd_add_right (hbeginDvd.mul_left 1)).mpr
          (Nat.dvd_add (Nat.dvd_mul_left T.size threadRank)
            ((Nat.dvd_mul_right T.size logicalWarpSize).mul_left k))
        rw [Nat.one_mul, ← Nat.add_assoc] at hdvd
        have hle := add_le_of_dvd hdvd hendDvd hlt
        obtain ⟨i, hi⟩ := Nat.exists_eq_add_of_le (show dest ≤ (getAlignedPtrs T offsetBits src dest numBytes).outBegin +
          threadRank * T.size + k * (T.size * logicalWarpSize) by omega)
        rw [hinBegin, show src + ((getAlignedPtrs T offsetBits src dest numBytes).outBegin - dest) +
          threadRank * T.size + k * (T.size * logicalWarpSize) = src + i by omega, hi]
        rw [hi] at hle hdvd
        exact copies_vectorAccess (by omega) hdvd
      · obtain ⟨k, -, hlt, rfl⟩ := mem_pointerLoop.mp htail
        obtain ⟨i, hi⟩ := Nat.exists_eq_add_of_le
          (show dest ≤ (getAlignedPtrs T offsetBits src dest numBytes).outEnd by omega)
        rw [hinEnd, hi, Nat.add_sub_cancel_left, Nat.add_assoc dest, Nat.add_assoc dest, Nat.add_assoc src,
          Nat.add_assoc src]
        rw [hi] at hlt
        exact copies_byteAccess (by omega)

theorem exists_mem_pointerLoop {b : ℕ → ℕ → Access} {unit base s p : ℕ} (hunit : 0 < unit) (hwarp : 0 < logicalWarpSize)
    (hbase : base ≤ p) (hlt : p < limit) (hfuel : limit ≤ fuel) :
    ∃ threadRank < logicalWarpSize, ∃ i, base + i ≤ p ∧ p < base + i + unit ∧ b (base + i) (s + i) ∈
      (pointerLoop b limit (unit * logicalWarpSize) fuel (base + threadRank * unit) (s + threadRank * unit)).accesses := by
  obtain ⟨q, hq⟩ : ∃ q, q = (p - base) / unit := ⟨_, rfl⟩
  have hdiv := Nat.div_add_mod (p - base) unit
  have hrest := Nat.mod_lt (p - base) hunit
  have hsplit := Nat.div_add_mod q logicalWarpSize
  rw [← hq] at hdiv
  have hmul : q % logicalWarpSize * unit + q / logicalWarpSize * (unit * logicalWarpSize) = unit * q := calc
    _ = unit * (q % logicalWarpSize) + unit * (logicalWarpSize * (q / logicalWarpSize)) := by
      rw [Nat.mul_comm _ unit, Nat.mul_comm (q / logicalWarpSize), Nat.mul_assoc]
    _ = unit * (logicalWarpSize * (q / logicalWarpSize) + q % logicalWarpSize) := by rw [Nat.mul_add, Nat.add_comm]
    _ = unit * q := by rw [hsplit]
  refine ⟨q % logicalWarpSize, Nat.mod_lt q hwarp, unit * q, by omega, by omega, mem_pointerLoop.mpr ?_⟩
  refine ⟨q / logicalWarpSize, ?_, by omega, ?_⟩
  · have hle : q / logicalWarpSize ≤ q / logicalWarpSize * (unit * logicalWarpSize) :=
      Nat.le_mul_of_pos_right _ (Nat.mul_pos hunit hwarp)
    omega
  · rw [Nat.add_assoc, Nat.add_assoc, hmul]

/-- **Each byte of the destination is written.** -/
theorem exists_covering (hwarp : 0 < logicalWarpSize) (hnum : numBytes < 2 ^ offsetBits) {i : ℕ} (hi : i < numBytes) :
    ∃ threadRank < logicalWarpSize, ∃ fuel, ∃ a ∈
      (vectorizedCopy logicalWarpSize T offsetBits memory threadRank dest numBytes src fuel).accesses,
      a.address ≤ dest + i ∧ dest + i < a.address + a.bytes.length := by
  by_cases hrange : (getAlignedPtrs T offsetBits src dest numBytes).outEnd ≤
      (getAlignedPtrs T offsetBits src dest numBytes).outBegin
  · have hsplit := Nat.mod_add_div i logicalWarpSize
    have hiterate : ∀ j ≤ i / logicalWarpSize,
        (fun i => (i + logicalWarpSize) % 2 ^ offsetBits)^[j] (i % logicalWarpSize % 2 ^ offsetBits) =
          i % logicalWarpSize + j * logicalWarpSize ∧ i % logicalWarpSize + j * logicalWarpSize ≤ i := by
      intro j hj
      have hle := Nat.mul_le_mul_right logicalWarpSize hj
      rw [Nat.mul_comm (i / logicalWarpSize)] at hle
      rw [iterate_counter, Nat.mod_eq_of_lt (by omega)]
      exact ⟨rfl, by omega⟩
    refine ⟨i % logicalWarpSize, Nat.mod_lt i hwarp, i / logicalWarpSize + 1, byteAccess memory (dest + i) (src + i), ?_,
      le_rfl, Nat.lt_succ_self _⟩
    rw [vectorizedCopy, if_pos hrange]
    refine mem_loop.mpr ⟨i / logicalWarpSize, Nat.lt_succ_self _, fun j hj => ?_, ?_⟩
    · obtain ⟨heq, hle⟩ := hiterate j hj
      rw [heq]
      exact decide_eq_true (hle.trans_lt hi)
    · rw [(hiterate _ le_rfl).1, Nat.mul_comm, hsplit]
  · obtain ⟨hbegin, hend, -, -, -, -, -⟩ := alignedRange (Nat.not_le.mp hrange)
    have hhead : ∀ threadRank, (pointerLoop (byteAccess memory) (getAlignedPtrs T offsetBits src dest numBytes).outBegin
        logicalWarpSize (dest + numBytes) (dest + threadRank) (src + threadRank)).ended = true :=
      fun _ => pointerLoop_ended hwarp (by omega)
    have hbody : ∀ threadRank, (pointerLoop (vectorAccess T memory) (getAlignedPtrs T offsetBits src dest numBytes).outEnd
        (T.size * logicalWarpSize) (dest + numBytes)
        ((getAlignedPtrs T offsetBits src dest numBytes).outBegin + threadRank * T.size)
        ((getAlignedPtrs T offsetBits src dest numBytes).inBegin + threadRank * T.size)).ended = true :=
      fun _ => pointerLoop_ended (Nat.mul_pos T.size_pos hwarp) hend
    -- the fuel is enough for all loops
    suffices h : ∃ threadRank < logicalWarpSize, ∃ a ∈ (vectorizedCopy logicalWarpSize T offsetBits memory threadRank
        dest numBytes src (dest + numBytes)).accesses, a.address ≤ dest + i ∧ dest + i < a.address + a.bytes.length from
      let ⟨threadRank, hrank, hcover⟩ := h
      ⟨threadRank, hrank, _, hcover⟩
    simp only [vectorizedCopy, if_neg hrange, mem_andThen, hhead, hbody, true_and]
    by_cases hbefore : dest + i < (getAlignedPtrs T offsetBits src dest numBytes).outBegin
    · obtain ⟨threadRank, hrank, k, hle, hlt, hmem⟩ := exists_mem_pointerLoop (b := byteAccess memory) (s := src)
        Nat.one_pos hwarp (Nat.le_add_right dest i) hbefore (show _ ≤ dest + numBytes by omega)
      rw [Nat.one_mul, Nat.mul_one] at hmem
      exact ⟨threadRank, hrank, _, Or.inl hmem, hle, hlt⟩
    · by_cases hwithin : dest + i < (getAlignedPtrs T offsetBits src dest numBytes).outEnd
      · obtain ⟨threadRank, hrank, k, hle, hlt, hmem⟩ := exists_mem_pointerLoop (b := vectorAccess T memory)
          (s := (getAlignedPtrs T offsetBits src dest numBytes).inBegin) T.size_pos hwarp (Nat.not_lt.mp hbefore) hwithin hend
        refine ⟨threadRank, hrank, _, Or.inr (Or.inl hmem), hle, ?_⟩
        rw [vectorAccess_bytes, List.length_map, List.length_range]
        exact hlt
      · obtain ⟨threadRank, hrank, k, hle, hlt, hmem⟩ := exists_mem_pointerLoop (b := byteAccess memory)
          (s := (getAlignedPtrs T offsetBits src dest numBytes).inEnd) Nat.one_pos hwarp (Nat.not_lt.mp hwithin)
          (Nat.add_lt_add_left hi dest) le_rfl
        rw [Nat.one_mul, Nat.mul_one] at hmem
        exact ⟨threadRank, hrank, _, Or.inr (Or.inr hmem), hle, hlt⟩

/-- **A thread returns** if the counter of the bytes does not go around the end of its type, or is not used. -/
theorem exists_ended (hwarp : 0 < logicalWarpSize) {threadRank : ℕ} (hrank : threadRank < logicalWarpSize)
    (hfits : numBytes + logicalWarpSize ≤ 2 ^ offsetBits ∨
      2 * T.size + 5 ≤ numBytes ∧ numBytes + T.size ≤ 2 ^ 32) :
    ∃ fuel, (vectorizedCopy logicalWarpSize T offsetBits memory threadRank dest numBytes src fuel).ended = true := by
  by_cases hrange : (getAlignedPtrs T offsetBits src dest numBytes).outEnd ≤
      (getAlignedPtrs T offsetBits src dest numBytes).outBegin
  · have hcounter : numBytes + logicalWarpSize ≤ 2 ^ offsetBits :=
      hfits.resolve_right fun h => Nat.not_lt.mpr hrange (outBegin_lt_outEnd h.1 h.2)
    obtain ⟨q, hq⟩ : ∃ q, q = (numBytes + logicalWarpSize - 1 - threadRank) / logicalWarpSize := ⟨_, rfl⟩
    have hdiv := Nat.div_add_mod (numBytes + logicalWarpSize - 1 - threadRank) logicalWarpSize
    have hrest := Nat.mod_lt (numBytes + logicalWarpSize - 1 - threadRank) hwarp
    rw [← hq, Nat.mul_comm] at hdiv
    refine ⟨q, ?_⟩
    rw [vectorizedCopy, if_pos hrange]
    refine loop_ended ⟨q, le_rfl, ?_⟩
    rw [iterate_counter, Nat.mod_eq_of_lt (by omega), decide_eq_false_iff_not]
    omega
  · obtain ⟨hbegin, hend, -, -, -, -, -⟩ := alignedRange (Nat.not_le.mp hrange)
    refine ⟨dest + numBytes, ?_⟩
    rw [vectorizedCopy, if_neg hrange]
    exact andThen_ended (pointerLoop_ended hwarp (by omega))
      (andThen_ended (pointerLoop_ended (Nat.mul_pos T.size_pos hwarp) hend) (pointerLoop_ended hwarp le_rfl))

/-- **A buffer is copied exactly**, whatever its size and the alignments are, by any number of threads.  All that the
threads do are copies within the buffer, and each byte of the destination is written.  They return if the counter of the
bytes does not go around the end of its type; for a buffer with an aligned range it is not used. -/
theorem vectorizedCopy_writes (T : VectorT) (hwarp : 0 < logicalWarpSize) (hnum : numBytes < 2 ^ offsetBits)
    (memory : ℕ → Byte) (src dest : ℕ) :
    (∀ threadRank < logicalWarpSize, ∀ fuel, ∀ a ∈
        (vectorizedCopy logicalWarpSize T offsetBits memory threadRank dest numBytes src fuel).accesses,
        Copies T memory src dest numBytes a) ∧
      (∀ i < numBytes, ∃ threadRank < logicalWarpSize, ∃ fuel, ∃ a ∈
        (vectorizedCopy logicalWarpSize T offsetBits memory threadRank dest numBytes src fuel).accesses,
        a.address ≤ dest + i ∧ dest + i < a.address + a.bytes.length) ∧
      (numBytes + logicalWarpSize ≤ 2 ^ offsetBits ∨ 2 * T.size + 5 ≤ numBytes ∧ numBytes + T.size ≤ 2 ^ 32 →
        ∀ threadRank < logicalWarpSize, ∃ fuel,
          (vectorizedCopy logicalWarpSize T offsetBits memory threadRank dest numBytes src fuel).ended = true) :=
  ⟨fun _ _ _ _ => copies_of_mem, fun _ => exists_covering hwarp hnum, fun hfits _ hrank => exists_ended hwarp hrank hfits⟩

/-- A warp that copies 100 bytes from an odd address to another one. -/
theorem vectorizedCopy_writes_odd :
    let memory : ℕ → Byte := fun address => BitVec.ofNat 8 address
    (∀ threadRank < 32, ∀ fuel, ∀ a ∈ (vectorizedCopy 32 .uint4 32 memory threadRank 4099 100 513 fuel).accesses,
        Copies .uint4 memory 513 4099 100 a) ∧
      (∀ i < 100, ∃ threadRank < 32, ∃ fuel, ∃ a ∈
        (vectorizedCopy 32 .uint4 32 memory threadRank 4099 100 513 fuel).accesses,
        a.address ≤ 4099 + i ∧ 4099 + i < a.address + a.bytes.length) ∧
      (100 + 32 ≤ 2 ^ 32 ∨ 2 * VectorT.uint4.size + 5 ≤ 100 ∧ 100 + VectorT.uint4.size ≤ 2 ^ 32 →
        ∀ threadRank < 32, ∃ fuel, (vectorizedCopy 32 .uint4 32 memory threadRank 4099 100 513 fuel).ended = true) :=
  vectorizedCopy_writes .uint4 (by decide) (by decide) _ 513 4099

end Writes

end Cccl.BatchMemcpy
