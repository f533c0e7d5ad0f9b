/-
# The options of a pool

`pool_options` of `pool_options.h`, and how many blocks a pool puts into its next chunk.

Sizes are machine words.  `validate` multiplies numbers of blocks by block sizes without a check, so that a
product can wrap; and it does not ask that a chunk of the minimal number of bytes can be cut into blocks of
each size.  If the options are such that this does not matter (`Sound`), then the number of blocks of each
chunk is within the bounds (`blocksPerChunk_within`), which is what the pools assert.
-/
import Cccl.Cmath.Ilog

namespace Cccl.Pool

open Cmath

/-! ## 1. Alignments -/

def isValidAlignment (alignment : ℕ) : Bool := decide (0 < alignment) && isPowerOfTwo alignment

/-! ## 2. The options -/

/-- `pool_options`.  All sizes are machine words. -/
structure PoolOptions where
  minBlocksPerChunk : ℕ
  minBytesPerChunk : ℕ
  maxBlocksPerChunk : ℕ
  maxBytesPerChunk : ℕ
  smallestBlockSize : ℕ
  largestBlockSize : ℕ
  alignment : ℕ
  cacheOversized : Bool
  cachedSizeCutoffFactor : ℕ
  cachedAlignmentCutoffFactor : ℕ
  words : ∀ n ∈ [minBlocksPerChunk, minBytesPerChunk, maxBlocksPerChunk, maxBytesPerChunk,
    smallestBlockSize, largestBlockSize, alignment, cachedSizeCutoffFactor,
    cachedAlignmentCutoffFactor], n < 2 ^ 64

namespace PoolOptions

def validate (O : PoolOptions) : Bool :=
  if O.smallestBlockSize ≠ 0 ∧ isPowerOfTwo O.smallestBlockSize = false then false
  else if O.largestBlockSize ≠ 0 ∧ isPowerOfTwo O.largestBlockSize = false then false
  else if isValidAlignment O.alignment = false ∧ O.alignment ≠ 0 then false
  else if O.maxBytesPerChunk = 0 ∨ O.maxBlocksPerChunk = 0 then false
  else if O.smallestBlockSize = 0 ∨ O.largestBlockSize = 0 then false
  else if O.minBlocksPerChunk > O.maxBlocksPerChunk then false
  else if O.minBytesPerChunk > O.maxBytesPerChunk then false
  else if O.smallestBlockSize > O.largestBlockSize then false
  else if O.minBlocksPerChunk * O.smallestBlockSize % 2 ^ 64 > O.maxBytesPerChunk then false
  else if O.minBlocksPerChunk * O.largestBlockSize % 2 ^ 64 > O.maxBytesPerChunk then false
  else if O.maxBlocksPerChunk * O.largestBlockSize % 2 ^ 64 < O.minBytesPerChunk then false
  else if O.maxBlocksPerChunk * O.smallestBlockSize % 2 ^ 64 < O.minBytesPerChunk then false
  else if O.alignment > O.smallestBlockSize then false
  else true

/-- What `validate` ensures, apart from the products. -/
structure Validated (O : PoolOptions) : Prop where
  smallest : ∃ k, O.smallestBlockSize = 2 ^ k
  largest : ∃ k, O.largestBlockSize = 2 ^ k
  alignment : O.alignment = 0 ∨ ∃ k, O.alignment = 2 ^ k
  blocks_le : O.minBlocksPerChunk ≤ O.maxBlocksPerChunk
  bytes_le : O.minBytesPerChunk ≤ O.maxBytesPerChunk
  smallest_le : O.smallestBlockSize ≤ O.largestBlockSize
  min_product : O.minBlocksPerChunk * O.largestBlockSize % 2 ^ 64 ≤ O.maxBytesPerChunk
  max_product : O.minBytesPerChunk ≤ O.maxBlocksPerChunk * O.smallestBlockSize
  alignment_le : O.alignment ≤ O.smallestBlockSize

theorem validated_of_validate {O : PoolOptions} (h : O.validate = true) : O.Validated := by
  have hite : ∀ {c : Prop} [Decidable c] {b : Bool}, (if c then false else b) = true ↔
      ¬ c ∧ b = true := by
    intro c _ b
    split <;> simp_all
  simp only [validate, hite] at h
  obtain ⟨h1, h2, h3, h4, h5, h6, h7, h8, h9, h10, h11, h12, h13, -⟩ := h
  have hsmallest : O.smallestBlockSize ≠ 0 := fun h => h5 (Or.inl h)
  have hlargest : O.largestBlockSize ≠ 0 := fun h => h5 (Or.inr h)
  have hmod := Nat.mod_le (O.maxBlocksPerChunk * O.smallestBlockSize) (2 ^ 64)
  refine ⟨?_, ?_, ?_, by omega, by omega, by omega, by omega, by omega, by omega⟩
  · rw [← isPowerOfTwo_iff, ← Bool.not_eq_false]
    exact fun h => h1 ⟨hsmallest, h⟩
  · rw [← isPowerOfTwo_iff, ← Bool.not_eq_false]
    exact fun h => h2 ⟨hlargest, h⟩
  · rcases Nat.eq_zero_or_pos O.alignment with hzero | hpos
    · exact Or.inl hzero
    · refine Or.inr (isPowerOfTwo_iff.mp ?_)
      rw [← Bool.not_eq_false]
      exact fun h => h3 ⟨by rw [isValidAlignment, h, Bool.and_false], hpos.ne'⟩

/-- **The options for which chunks can be cut into blocks.**  The product of the least number of blocks and
the largest block size does not wrap, nor does the growth of a chunk; a chunk has at least one block; and
the least number of bytes is a multiple of each block size or is reached by the least number of blocks. -/
structure Sound (O : PoolOptions) : Prop where
  product : O.minBlocksPerChunk * O.largestBlockSize < 2 ^ 64
  growth : 3 * min O.maxBlocksPerChunk (O.maxBytesPerChunk / O.smallestBlockSize) < 2 ^ 64
  some_block : 0 < O.minBlocksPerChunk ∨ 0 < O.minBytesPerChunk
  cut : ∀ k, O.smallestBlockSize ≤ 2 ^ k → 2 ^ k ≤ O.largestBlockSize →
    2 ^ k ∣ O.minBytesPerChunk ∨ O.minBytesPerChunk ≤ O.minBlocksPerChunk * 2 ^ k

/-- `get_default_options` of both resources. -/
def getDefaultOptions : PoolOptions where
  minBlocksPerChunk := 16
  minBytesPerChunk := 1024
  maxBlocksPerChunk := 1 <<< 20
  maxBytesPerChunk := 1 <<< 30
  smallestBlockSize := 16
  largestBlockSize := 1 <<< 20
  alignment := 16
  cacheOversized := true
  cachedSizeCutoffFactor := 16
  cachedAlignmentCutoffFactor := 16
  words := by decide

theorem getDefaultOptions_sound : getDefaultOptions.Sound where
  product := by decide
  growth := by decide
  some_block := by decide
  cut k _ hlarge := by
    have hcut : ∀ k ≤ 20, 2 ^ k ∣ 1024 ∨ 1024 ≤ 16 * 2 ^ k := by decide
    exact hcut k ((Nat.pow_le_pow_iff_right (by decide)).mp hlarge)

/-! ## 3. The size of a chunk -/

/-- How many blocks the next chunk has, if the previous one had `previous`. -/
def blocksPerChunk (O : PoolOptions) (previous bytesLog2 : ℕ) : ℕ :=
  if previous = 0 then max O.minBlocksPerChunk (O.minBytesPerChunk >>> bytesLog2)
  else min (min (previous * 3 % 2 ^ 64 / 2) (O.maxBytesPerChunk >>> bytesLog2)) O.maxBlocksPerChunk

/-- The bounds for the blocks of a chunk. -/
structure Within (O : PoolOptions) (n bytesLog2 : ℕ) : Prop where
  pos : 0 < n
  blocks_ge : O.minBlocksPerChunk ≤ n
  blocks_le : n ≤ O.maxBlocksPerChunk
  bytes_ge : O.minBytesPerChunk ≤ n * 2 ^ bytesLog2
  bytes_le : n * 2 ^ bytesLog2 ≤ O.maxBytesPerChunk

theorem blocksPerChunk_within {O : PoolOptions} (hvalid : O.Validated) (hsound : O.Sound)
    {previous k : ℕ} (hprevious : previous = 0 ∨ O.Within previous k)
    (hsmallest : O.smallestBlockSize ≤ 2 ^ k) (hlargest : 2 ^ k ≤ O.largestBlockSize) :
    O.Within (O.blocksPerChunk previous k) k := by
  have hpos := Nat.two_pow_pos k
  have hminProduct : O.minBlocksPerChunk * 2 ^ k ≤ O.maxBytesPerChunk := by
    have hproduct := hvalid.min_product
    rw [Nat.mod_eq_of_lt hsound.product] at hproduct
    exact (Nat.mul_le_mul_left _ hlargest).trans hproduct
  have hmaxProduct : O.minBytesPerChunk ≤ O.maxBlocksPerChunk * 2 ^ k :=
    hvalid.max_product.trans (Nat.mul_le_mul_left _ hsmallest)
  have hdiv : ∀ {a b : ℕ}, a ≤ b / 2 ^ k ↔ a * 2 ^ k ≤ b := Nat.le_div_iff_mul_le hpos
  unfold blocksPerChunk
  rw [Nat.shiftRight_eq_div_pow, Nat.shiftRight_eq_div_pow]
  have hminBytes : O.minBytesPerChunk / 2 ^ k * 2 ^ k ≤ O.minBytesPerChunk := Nat.div_mul_le_self _ _
  split
  · -- the first chunk
    have hcut := hsound.cut k hsmallest hlargest
    refine ⟨?_, Nat.le_max_left _ _, Nat.max_le.mpr ⟨hvalid.blocks_le, ?_⟩, ?_, ?_⟩
    · rcases Nat.eq_zero_or_pos O.minBytesPerChunk with hzero | hbytes
      · have := hsound.some_block
        omega
      · rcases hcut with hdvd | hle
        · have := Nat.div_pos (Nat.le_of_dvd hbytes hdvd) hpos
          omega
        · have hblocks : 0 < O.minBlocksPerChunk := by
            refine Nat.pos_of_ne_zero fun hzero => ?_
            rw [hzero, Nat.zero_mul] at hle
            omega
          omega
    · exact Nat.le_of_mul_le_mul_right (hminBytes.trans hmaxProduct) hpos
    · rcases hcut with hdvd | hle
      · rw [← Nat.div_mul_cancel hdvd]
        refine Nat.mul_le_mul_right _ ?_
        rw [Nat.div_mul_cancel hdvd]
        exact Nat.le_max_right _ _
      · exact hle.trans (Nat.mul_le_mul_right _ (Nat.le_max_left _ _))
    · rcases max_choice O.minBlocksPerChunk (O.minBytesPerChunk / 2 ^ k) with h | h
      · rw [h]
        exact hminProduct
      · rw [h]
        exact hminBytes.trans hvalid.bytes_le
  · rename_i hne
    obtain ⟨hppos, hpge, hple, hpbytes, hpmax⟩ := hprevious.resolve_left hne
    -- the growth does not wrap
    have hgrowth : previous * 3 < 2 ^ 64 := by
      have hbytes : previous ≤ O.maxBytesPerChunk / O.smallestBlockSize := by
        obtain ⟨s, hs⟩ := hvalid.smallest
        have hspos : 0 < O.smallestBlockSize := by
          rw [hs]
          exact Nat.two_pow_pos s
        rw [Nat.le_div_iff_mul_le hspos]
        exact (Nat.mul_le_mul_left _ hsmallest).trans hpmax
      have := hsound.growth
      omega
    rw [Nat.mod_eq_of_lt hgrowth]
    have hnext : previous ≤ min (min (previous * 3 / 2) (O.maxBytesPerChunk / 2 ^ k))
        O.maxBlocksPerChunk := by
      have := hdiv.mpr hpmax
      omega
    refine ⟨by omega, by omega, by omega, hpbytes.trans (Nat.mul_le_mul_right _ hnext), ?_⟩
    refine hdiv.mp ?_
    omega

end PoolOptions

end Cccl.Pool
