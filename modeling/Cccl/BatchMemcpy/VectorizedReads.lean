/-
# What is read for vectors

The words from which `LoadVector` makes a vector reach from the last aligned address before the vector to the first one
behind it.  The comment of `GetAlignedPtrs` says that the range leaves enough bytes on both sides.  Behind the last vector
it does.  Before the first one the code leaves as many bytes as the source is behind an aligned address, but what is
loaded too depends on the first vector's address: if the source is one byte behind an aligned address, and the range
starts one or two bytes later, then the first word starts one byte before the source (`headBytes_lt_iff`).
-/
import Cccl.BatchMemcpy.VectorizedCopy

namespace Cccl.BatchMemcpy

variable {T : VectorT} {memory : ℕ → Byte} {offsetBits src dest numBytes logicalWarpSize : ℕ}

/-! ## 1. The first vector -/

/-- **When the first vector is too close to the source.** -/
theorem headBytes_lt_iff (T : VectorT) (src dest : ℕ) : headBytes T src dest < (src + headBytes T src dest) % 4 ↔
    src % 4 = 1 ∧ T.size ≤ dest % T.size + 2 := by
  cases T
  all_goals
    simp only [headBytes, roundUp, VectorT.size, VectorT.words, Nat.reduceMul]
    omega

theorem headBytes_of_lt (h : src % 4 = 1 ∧ T.size ≤ dest % T.size + 2) :
    dest % T.size + headBytes T src dest = T.size ∧
      paddingBytes T src dest + T.size = dest % T.size + 3 ∧ 0 < src := by
  obtain ⟨hsrc, hdest⟩ := h
  cases T
  all_goals
    simp only [paddingBytes, headBytes, roundUp, VectorT.size, VectorT.words, Nat.reduceMul] at *
    omega

theorem mem_loadVectorLoads {ptr address : ℕ} : address ∈ loadVectorLoads T ptr ↔
    ptr - ptr % 4 ≤ address ∧ address < ptr - ptr % 4 + T.size + if ptr % 4 = 0 then 0 else 4 := by
  rw [loadVectorLoads]
  simp only [List.mem_map, List.mem_range]
  have hsize : T.size = 4 * T.words := rfl
  split
  · constructor
    · rintro ⟨i, hi, rfl⟩
      omega
    · exact fun h => ⟨address - (ptr - ptr % 4), by omega, by omega⟩
  · constructor
    · rintro ⟨i, hi, rfl⟩
      omega
    · exact fun h => ⟨address - (ptr - ptr % 4), by omega, by omega⟩

/-! ## 2. All that is read -/

theorem nonempty_iff (h : src % 4 = 1 ∧ T.size ≤ dest % T.size + 2) :
    (getAlignedPtrs T offsetBits src dest numBytes).outBegin <
      (getAlignedPtrs T offsetBits src dest numBytes).outEnd ↔ 2 * T.size ≤ (numBytes + (T.size - 3)) % 2 ^ 32 := by
  obtain ⟨hhead, hpadding, -⟩ := headBytes_of_lt h
  have hsize : 4 ≤ T.size := by cases T <;> decide
  have hmod := Nat.mod_lt dest T.size_pos
  have hle := Nat.mod_le dest T.size
  rw [getAlignedPtrs_eq]
  dsimp only
  split
  · rename_i hshort
    have hless : numBytes + (T.size - 3) < 2 * T.size := by omega
    have := Nat.mod_le (numBytes + (T.size - 3)) (2 ^ 32)
    exact iff_of_false (Nat.lt_irrefl _) (by omega)
  · rename_i hlong
    have hbytes : numBytes - paddingBytes T src dest + dest % T.size = numBytes + (T.size - 3) := by omega
    rw [rangeEnd, hbytes, ← Nat.le_div_iff_mul_le T.size_pos]
    obtain ⟨q, hq⟩ : ∃ q, q = (numBytes + (T.size - 3)) % 2 ^ 32 / T.size := ⟨_, rfl⟩
    rw [← hq]
    constructor
    · intro hlt
      refine Nat.not_lt.mp fun hless => ?_
      have := Nat.mul_le_mul_right T.size (Nat.le_of_lt_succ hless)
      omega
    · intro hge
      have := Nat.mul_le_mul_right T.size hge
      omega

/-- What a thread reads is within the source, if the first vector is not too close to it. -/
theorem reads_within (h : ¬(src % 4 = 1 ∧ T.size ≤ dest % T.size + 2) ∨
    (getAlignedPtrs T offsetBits src dest numBytes).outEnd ≤ (getAlignedPtrs T offsetBits src dest numBytes).outBegin)
    {threadRank fuel address : ℕ} {a : Access}
    (ha : a ∈ (vectorizedCopy logicalWarpSize T offsetBits memory threadRank dest numBytes src fuel).accesses)
    (haddress : address ∈ a.loads) : src ≤ address ∧ address < src + numBytes := by
  rw [vectorizedCopy] at ha
  split at ha
  · obtain ⟨k, -, hall, rfl⟩ := mem_loop.mp ha
    have hlt := of_decide_eq_true (hall k le_rfl)
    obtain rfl := List.mem_singleton.mp haddress
    omega
  · rename_i hrange
    have hclose := h.resolve_right hrange
    rw [← headBytes_lt_iff, Nat.not_lt] at hclose
    have hbegin' : (getAlignedPtrs T offsetBits src dest numBytes).inBegin = src + headBytes T src dest := by
      rw [getAlignedPtrs_eq]
    obtain ⟨hbegin, hend, hbeginDvd, hendDvd, hinBegin, hinEnd, hpadding⟩ := alignedRange (Nat.not_le.mp hrange)
    rcases mem_andThen.mp ha with hhead | ⟨-, hrest⟩
    · obtain ⟨k, -, hlt, rfl⟩ := mem_pointerLoop.mp hhead
      obtain rfl := List.mem_singleton.mp haddress
      omega
    · rcases mem_andThen.mp hrest with hbody | ⟨-, htail⟩
      · obtain ⟨k, -, hlt, rfl⟩ := mem_pointerLoop.mp hbody
        obtain ⟨i, hi⟩ : ∃ i, i = threadRank * T.size + k * (T.size * logicalWarpSize) := ⟨_, rfl⟩
        have hdvd : T.size ∣ i := hi ▸ Nat.dvd_add (Nat.dvd_mul_left _ _) ((Nat.dvd_mul_right _ _).mul_left k)
        rw [Nat.add_assoc, ← hi] at hlt
        have hle := add_le_of_dvd (Nat.dvd_add hbeginDvd hdvd) hendDvd hlt
        change address ∈ loadVectorLoads T _ at haddress
        rw [Nat.add_assoc, ← hi, mem_loadVectorLoads] at haddress
        have hfour : 4 ∣ i := (Nat.dvd_mul_right 4 T.words).trans hdvd
        have hmod : ((getAlignedPtrs T offsetBits src dest numBytes).inBegin + i) % 4 =
            (getAlignedPtrs T offsetBits src dest numBytes).inBegin % 4 := by omega
        rw [hmod] at haddress
        rw [hbegin'] at hmod haddress hpadding hinBegin
        split at haddress <;> omega
      · obtain ⟨k, -, hlt, rfl⟩ := mem_pointerLoop.mp htail
        obtain rfl := List.mem_singleton.mp haddress
        omega

/-- **Reads are within the source** but for vectors whose first word starts before it: the source is one byte behind an
aligned address, the destination one or two bytes before one, and there are bytes enough for a vector. -/
theorem reads_within_iff (T : VectorT) (hwarp : 0 < logicalWarpSize) (offsetBits : ℕ) (memory : ℕ → Byte)
    (src dest numBytes : ℕ) :
    (∀ threadRank < logicalWarpSize, ∀ fuel, ∀ a ∈
      (vectorizedCopy logicalWarpSize T offsetBits memory threadRank dest numBytes src fuel).accesses,
      ∀ address ∈ a.loads, src ≤ address ∧ address < src + numBytes) ↔
    ¬(src % 4 = 1 ∧ T.size ≤ dest % T.size + 2 ∧ 2 * T.size ≤ (numBytes + (T.size - 3)) % 2 ^ 32) := by
  constructor
  · rintro h ⟨hsrc, hdest, hlong⟩
    have hrange := (@nonempty_iff T offsetBits src dest numBytes ⟨hsrc, hdest⟩).mpr hlong
    have hlt := (headBytes_lt_iff T src dest).mpr ⟨hsrc, hdest⟩
    obtain ⟨-, -, hpos⟩ := @headBytes_of_lt T src dest ⟨hsrc, hdest⟩
    obtain ⟨hbegin, hend, -, -, -, -, -⟩ := alignedRange hrange
    have hinBegin : (getAlignedPtrs T offsetBits src dest numBytes).inBegin = src + headBytes T src dest := by
      rw [getAlignedPtrs_eq]
    -- the first thread loads the first vector
    have hmem : vectorAccess T memory (getAlignedPtrs T offsetBits src dest numBytes).outBegin
        (getAlignedPtrs T offsetBits src dest numBytes).inBegin ∈
        (vectorizedCopy logicalWarpSize T offsetBits memory 0 dest numBytes src (dest + numBytes)).accesses := by
      rw [vectorizedCopy, if_neg (Nat.not_le.mpr hrange)]
      refine mem_andThen.mpr (Or.inr ⟨pointerLoop_ended hwarp (by omega), mem_andThen.mpr (Or.inl ?_)⟩)
      refine mem_pointerLoop.mpr ⟨0, by omega, ?_, ?_⟩
      · rwa [Nat.zero_mul, Nat.zero_mul]
      · rw [Nat.zero_mul, Nat.zero_mul, Nat.add_zero, Nat.add_zero]
    have hload := h 0 hwarp _ _ hmem (src + headBytes T src dest - (src + headBytes T src dest) % 4)
    rw [hinBegin] at hload
    have hwithin := (hload (mem_loadVectorLoads.mpr ⟨le_rfl, by have := T.size_pos; omega⟩)).1
    omega
  · intro h threadRank _ fuel a ha address haddress
    refine reads_within ?_ ha haddress
    by_cases hclose : src % 4 = 1 ∧ T.size ≤ dest % T.size + 2
    · exact Or.inr (Nat.not_lt.mp fun hlt => h ⟨hclose.1, hclose.2, (nonempty_iff hclose).mp hlt⟩)
    · exact Or.inl hclose

/-- 64 bytes to an address of remainder 15 can be copied from an aligned one. -/
theorem reads_within_iff_aligned :
    (∀ threadRank < 32, ∀ fuel, ∀ a ∈
      (vectorizedCopy 32 .uint4 32 (fun address => BitVec.ofNat 8 address) threadRank 4111 64 1024 fuel).accesses,
      ∀ address ∈ a.loads, 1024 ≤ address ∧ address < 1024 + 64) ↔
    ¬(1024 % 4 = 1 ∧ VectorT.uint4.size ≤ 4111 % VectorT.uint4.size + 2 ∧
      2 * VectorT.uint4.size ≤ (64 + (VectorT.uint4.size - 3)) % 2 ^ 32) :=
  reads_within_iff .uint4 (by decide) 32 _ 1024 4111 64

/-- 64 bytes from an address of remainder 1 to one of remainder 15: a warp reads the byte before the source. -/
theorem reads_before_source : ¬∀ threadRank < 32, ∀ fuel, ∀ a ∈
    (vectorizedCopy 32 .uint4 32 (fun address => BitVec.ofNat 8 address) threadRank 4111 64 1025 fuel).accesses,
    ∀ address ∈ a.loads, 1025 ≤ address ∧ address < 1025 + 64 := by
  intro h
  have hbefore : ((vectorizedCopy 32 .uint4 32 (fun address => BitVec.ofNat 8 address) 0 4111 64 1025 4).accesses.any
      fun a => a.loads.any fun address => decide (address = 1024)) = true := by decide
  obtain ⟨a, ha, hloads⟩ := List.any_eq_true.mp hbefore
  obtain ⟨address, haddress, heq⟩ := List.any_eq_true.mp hloads
  have := (h 0 (by decide) 4 a ha address haddress).1
  have := of_decide_eq_true heq
  omega

end Cccl.BatchMemcpy
