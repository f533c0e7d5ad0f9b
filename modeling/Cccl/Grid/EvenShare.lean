/-
# Sharing the input among the blocks of a grid

`GridEvenShare` divides the input into tiles, and the tiles into shares of almost the same size, one for each block.
The blocks before a block have `tilesBefore` tiles; this goes up from zero to the number of all tiles, and so the ranges
of the blocks are what is between these cuts (`blockInit_is`).

The number of tiles is kept in an `int`, and clamped to the largest one: then the tiles beyond are in no range.  The
size of a share is a multiple of the tile size and may be too large for the type of offsets even though the number of
items is not, if there is one block only.  Otherwise the ranges partition the input (`partitionsInput_iff`).
-/
import Cccl.Lib.Wrapping
import Cccl.Lib.Cuts
import Mathlib.Data.Nat.Cast.Order.Ring
import Mathlib.Tactic.Ring

namespace Cccl.Grid

open IntegerTypes Wrapped

/-! ## 1. The descriptor -/

def int : IntegerType := ⟨.int, true⟩

structure GridEvenShare where
  totalTiles : ℤ
  bigShares : ℤ
  bigShareItems : ℤ
  normalShareItems : ℤ
  normalBaseOffset : ℤ
  numItems : ℤ
  gridSize : ℤ
  blockOffset : ℤ
  blockEnd : ℤ
  deriving DecidableEq

section

variable (m : DataModel) (OffsetT : IntegerType)

/-- `ceil_div` of an offset and an `int`: for an unsigned offset, the host and the device go different ways. -/
def ceilDiv (onDevice : Bool) (a b : ℤ) : Wrapped ℤ :=
  let uprom := OffsetT.makeUnsigned
  let a1 := uprom.staticCast m a
  let b1 := uprom.staticCast m b
  if OffsetT.signed then do
    let sum ← cut m uprom (a1 + b1)
    let sum ← cut m uprom (sum - 1)
    pure (OffsetT.staticCast m (sum / b1))
  else if onDevice then do
    let less ← cut m uprom (a1 - 1)
    let more ← cut m uprom (1 + less / b1)
    pure (OffsetT.staticCast m (min a1 more))
  else do
    let res := a1 / b1
    let prod ← cut m uprom (res * b1)
    let sum ← cut m uprom (res + if prod ≠ a1 then 1 else 0)
    pure (OffsetT.staticCast m sum)

def dispatchInit (onDevice : Bool) (numItems maxGridSize tileItems : ℤ) : Wrapped GridEvenShare :=
  if numItems ≤ 0 ∨ maxGridSize ≤ 0 ∨ tileItems ≤ 0 then
    pure { totalTiles := 0, bigShares := 0, bigShareItems := 0, normalShareItems := 0, normalBaseOffset := 0,
           numItems := 0, gridSize := 0, blockOffset := 0, blockEnd := 0 }
  else do
    let tiles ← ceilDiv m OffsetT onDevice numItems tileItems
    let totalTiles := int.staticCast m (min (int.max m : ℤ) tiles)
    let gridSize := min totalTiles maxGridSize
    let avgTilesPerBlock := totalTiles / gridSize
    let avgTiles ← cut m int (avgTilesPerBlock * gridSize)
    let bigShares ← cut m int (totalTiles - avgTiles)
    let normalShareItems ← cut m OffsetT (OffsetT.staticCast m avgTilesPerBlock * OffsetT.staticCast m tileItems)
    let normalBaseOffset ← cut m OffsetT (OffsetT.staticCast m bigShares * OffsetT.staticCast m tileItems)
    let bigShareItems ← cut m OffsetT (normalShareItems + OffsetT.staticCast m tileItems)
    pure { totalTiles, bigShares, bigShareItems, normalShareItems, normalBaseOffset, numItems, gridSize,
           blockOffset := numItems, blockEnd := numItems }

namespace GridEvenShare

/-- `BlockInit`, for the raking access pattern: the offset and the end of a block. -/
def blockInit (share : GridEvenShare) (blockId : ℤ) : Wrapped (ℤ × ℤ) :=
  if blockId < share.bigShares then do
    let blockOffset ← cut m OffsetT (OffsetT.staticCast m blockId * share.bigShareItems)
    let blockEnd ← cut m OffsetT (blockOffset + share.bigShareItems)
    pure (blockOffset, blockEnd)
  else if blockId < share.totalTiles then do
    let before ← cut m OffsetT (OffsetT.staticCast m blockId * share.normalShareItems)
    let blockOffset ← cut m OffsetT (share.normalBaseOffset + before)
    let rest ← cut m OffsetT (share.numItems - blockOffset)
    let blockEnd ← cut m OffsetT (blockOffset + min rest share.normalShareItems)
    pure (blockOffset, blockEnd)
  else pure (share.blockOffset, share.blockEnd)

end GridEvenShare

end

/-! ## 2. Numbers of tiles -/

variable {m : DataModel} {OffsetT : IntegerType}

/-- The types of offsets. -/
def IsOffsetType (m : DataModel) (OffsetT : IntegerType) : Prop := OffsetT.bits m = 32 ∨ OffsetT.bits m = 64

theorem digits_int : int.digits m = 31 := by cases m <;> rfl

theorem IsOffsetType.digits_ge (h : IsOffsetType m OffsetT) : 31 ≤ OffsetT.digits m := by
  rw [IntegerType.digits]
  have hsign : OffsetT.signed.toNat ≤ 1 := Bool.toNat_le _
  rcases h with h | h <;> omega

theorem IsOffsetType.has_of_int (h : IsOffsetType m OffsetT) {v : ℕ} (hv : int.Has m v) : OffsetT.Has m v := by
  rw [IntegerType.has_natCast_iff] at hv ⊢
  rw [digits_int] at hv
  exact hv.trans_le (Nat.pow_le_pow_right (by decide) h.digits_ge)

theorem has_makeUnsigned {v : ℕ} (h : v < 2 ^ OffsetT.bits m) : OffsetT.makeUnsigned.Has m v :=
  IntegerType.has_natCast_iff.mpr h

theorem has_of_le {v w : ℕ} (h : OffsetT.Has m w) (hle : v ≤ w) : OffsetT.Has m v := by
  rw [IntegerType.has_natCast_iff] at h ⊢
  exact hle.trans_lt h

/-- The number of tiles that so many items need. -/
def tilesOf (numItems tileItems : ℕ) : ℕ := (numItems + tileItems - 1) / tileItems

theorem tilesOf_eq_succ {numItems tileItems : ℕ} (hitems : 0 < numItems) (htile : 0 < tileItems) :
    tilesOf numItems tileItems = (numItems - 1) / tileItems + 1 := by
  have heq : numItems + tileItems - 1 = numItems - 1 + tileItems := by omega
  rw [tilesOf, heq, Nat.add_div_right _ htile]

theorem tilesOf_eq_ite (numItems : ℕ) {tileItems : ℕ} (htile : 0 < tileItems) :
    tilesOf numItems tileItems =
      numItems / tileItems + if numItems / tileItems * tileItems ≠ numItems then 1 else 0 := by
  have hdiv := Nat.div_add_mod numItems tileItems
  have hlt := Nat.mod_lt numItems htile
  rw [Nat.mul_comm] at hdiv
  rw [tilesOf]
  split
  · rename_i hne
    rw [Nat.div_eq_iff htile, Nat.add_mul, Nat.one_mul]
    omega
  · rename_i heq
    rw [Nat.div_eq_iff htile, Nat.add_zero]
    omega

theorem tilesOf_spec {numItems tileItems : ℕ} (hitems : 0 < numItems) (htile : 0 < tileItems) :
    (tilesOf numItems tileItems - 1) * tileItems < numItems ∧ numItems ≤ tilesOf numItems tileItems * tileItems ∧
      0 < tilesOf numItems tileItems := by
  have hdiv := Nat.div_add_mod (numItems - 1) tileItems
  have hlt := Nat.mod_lt (numItems - 1) htile
  rw [Nat.mul_comm] at hdiv
  rw [tilesOf_eq_succ hitems htile, Nat.add_sub_cancel, Nat.add_mul, Nat.one_mul]
  refine ⟨?_, ?_, Nat.succ_pos _⟩
  · omega
  · omega

/-- **The division is rounded up**, without a number that is too large. -/
theorem ceilDiv_is (hT : IsOffsetType m OffsetT) (onDevice : Bool) {numItems tileItems : ℕ} (hitems : 0 < numItems)
    (htile : 0 < tileItems) (hnum : OffsetT.Has m numItems) (hint : int.Has m tileItems) :
    (ceilDiv m OffsetT onDevice numItems tileItems).Is (tilesOf numItems tileItems) := by
  have hle : tilesOf numItems tileItems ≤ numItems := by
    rw [tilesOf_eq_succ hitems htile]
    have := Nat.div_le_self (numItems - 1) tileItems
    omega
  have hcast : OffsetT.staticCast m (tilesOf numItems tileItems) = tilesOf numItems tileItems :=
    IntegerType.staticCast_of_has (has_of_le hnum hle)
  have hnum' : OffsetT.makeUnsigned.Has m numItems := has_makeUnsigned (by exact_mod_cast hnum.lt_two_pow)
  have htile' : OffsetT.makeUnsigned.Has m tileItems := has_makeUnsigned (by exact_mod_cast (hT.has_of_int hint).lt_two_pow)
  unfold ceilDiv
  dsimp only
  rw [IntegerType.staticCast_of_has hnum', IntegerType.staticCast_of_has htile']
  split
  · rename_i hsigned
    have hsum : OffsetT.makeUnsigned.Has m ((numItems + tileItems : ℕ) : ℤ) := by
      refine has_makeUnsigned ?_
      have h₁ := IntegerType.has_natCast_iff.mp hnum
      have h₂ := IntegerType.has_natCast_iff.mp (hT.has_of_int hint)
      rw [← IntegerType.digits_of_signed hsigned, Nat.pow_succ]
      omega
    have hless : ((numItems + tileItems : ℕ) : ℤ) - 1 = ((numItems + tileItems - 1 : ℕ) : ℤ) := by omega
    rw [← Nat.cast_add]
    refine (is_cut hsum).bind ((is_cut (v := ((numItems + tileItems : ℕ) : ℤ) - 1) ?_).bind ?_)
    · rw [hless]
      exact has_of_le hsum (Nat.sub_le _ _)
    · rw [hless, ← Int.natCast_ediv]
      exact Is.pure_eq hcast
  · split
    · have hless : (numItems : ℤ) - 1 = ((numItems - 1 : ℕ) : ℤ) := by omega
      have hmore : (1 : ℤ) + ((numItems - 1 : ℕ) : ℤ) / tileItems = tilesOf numItems tileItems := by
        rw [tilesOf_eq_succ hitems htile, Nat.cast_add, Int.natCast_ediv, Nat.cast_one, add_comm]
      refine (is_cut ?_).bind ((is_cut ?_).bind ?_)
      · rw [hless]
        exact has_of_le hnum' (Nat.sub_le _ _)
      · rw [hless, hmore]
        exact has_of_le hnum' hle
      · rw [hless, hmore, min_eq_right (by exact_mod_cast hle)]
        exact Is.pure_eq hcast
    · have hprod : (numItems : ℤ) / tileItems * tileItems = ((numItems / tileItems * tileItems : ℕ) : ℤ) := by
        rw [Nat.cast_mul, Int.natCast_ediv]
      have hsum : (numItems : ℤ) / tileItems + (if (numItems : ℤ) / tileItems * tileItems ≠ numItems then 1 else 0) =
          tilesOf numItems tileItems := by
        rw [hprod, tilesOf_eq_ite numItems htile, Nat.cast_add, Int.natCast_ediv]
        congr 1
        rw [Nat.cast_ite, Nat.cast_one, Nat.cast_zero]
        exact if_congr (not_congr Nat.cast_inj) rfl rfl
      refine (is_cut ?_).bind ((is_cut ?_).bind ?_)
      · rw [hprod]
        exact has_of_le hnum' (Nat.div_mul_le_self _ _)
      · rw [hsum]
        exact has_of_le hnum' hle
      · rw [hsum]
        exact Is.pure_eq hcast

/-! ## 3. Shares -/

section

variable (m) (numItems maxGridSize tileItems : ℕ)

/-- The tiles that are shared: no more than an `int` can count. -/
def sharedTiles : ℕ := min (int.max m) (tilesOf numItems tileItems)

/-- The blocks of the grid. -/
def blocks : ℕ := min (sharedTiles m numItems tileItems) maxGridSize

/-- The tiles of a block that has a normal share. -/
def normalTiles : ℕ := sharedTiles m numItems tileItems / blocks m numItems maxGridSize tileItems

/-- The blocks that have one more. -/
def bigBlocks : ℕ := sharedTiles m numItems tileItems % blocks m numItems maxGridSize tileItems

/-- The tiles before a block. -/
def tilesBefore (b : ℕ) : ℕ :=
  b * normalTiles m numItems maxGridSize tileItems + min b (bigBlocks m numItems maxGridSize tileItems)

end

section

variable {numItems maxGridSize tileItems : ℕ} (hitems : 0 < numItems) (hgrid : 0 < maxGridSize)
  (htile : 0 < tileItems)

include hitems htile in
theorem sharedTiles_pos : 0 < sharedTiles m numItems tileItems :=
  Nat.lt_min.mpr ⟨by cases m <;> decide, (tilesOf_spec hitems htile).2.2⟩

include hitems hgrid htile in
theorem blocks_pos : 0 < blocks m numItems maxGridSize tileItems :=
  Nat.lt_min.mpr ⟨sharedTiles_pos hitems htile, hgrid⟩

theorem sharedTiles_mul_lt (hitems : 0 < numItems) (htile : 0 < tileItems) :
    (sharedTiles m numItems tileItems - 1) * tileItems < numItems :=
  (Nat.mul_le_mul_right _ (Nat.sub_le_sub_right (Nat.min_le_right _ _) 1)).trans_lt (tilesOf_spec hitems htile).1

include hitems hgrid htile in
theorem tilesBefore_blocks :
    tilesBefore m numItems maxGridSize tileItems (blocks m numItems maxGridSize tileItems) =
      sharedTiles m numItems tileItems := by
  have hlt : bigBlocks m numItems maxGridSize tileItems < blocks m numItems maxGridSize tileItems :=
    Nat.mod_lt _ (blocks_pos hitems hgrid htile)
  rw [tilesBefore, Nat.min_eq_right hlt.le]
  exact Nat.div_add_mod _ _

include hitems hgrid htile in
theorem normalTiles_pos : 0 < normalTiles m numItems maxGridSize tileItems :=
  Nat.div_pos (Nat.min_le_left _ _) (blocks_pos hitems hgrid htile)

theorem tilesBefore_mono : Monotone (tilesBefore m numItems maxGridSize tileItems) := by
  intro b c h
  exact Nat.add_le_add (Nat.mul_le_mul_right _ h) (min_le_min_right _ h)

include hitems hgrid htile in
theorem tilesBefore_lt {b : ℕ} (hb : b < blocks m numItems maxGridSize tileItems) :
    tilesBefore m numItems maxGridSize tileItems b < sharedTiles m numItems tileItems := by
  have hpos : 0 < normalTiles m numItems maxGridSize tileItems := normalTiles_pos hitems hgrid htile
  have hstep : tilesBefore m numItems maxGridSize tileItems b < tilesBefore m numItems maxGridSize tileItems (b + 1) := by
    refine Nat.add_lt_add_of_lt_of_le ?_ (min_le_min_right _ (Nat.le_succ b))
    rw [Nat.add_mul, Nat.one_mul]
    exact Nat.lt_add_of_pos_right hpos
  exact hstep.trans_le ((tilesBefore_mono hb).trans_eq (tilesBefore_blocks hitems hgrid htile))

end

/-- **The descriptor**, up to what may be too large: the size of a big share. -/
theorem dispatchInit_eq (hT : IsOffsetType m OffsetT) (onDevice : Bool) {numItems maxGridSize tileItems : ℕ}
    (hitems : 0 < numItems) (hgrid : 0 < maxGridSize) (htile : 0 < tileItems) (hnum : OffsetT.Has m numItems)
    (hint : int.Has m tileItems) :
    dispatchInit m OffsetT onDevice numItems maxGridSize tileItems = (do
      let normalShareItems ← cut m OffsetT ((normalTiles m numItems maxGridSize tileItems * tileItems : ℕ) : ℤ)
      let bigShareItems ← cut m OffsetT (normalShareItems + tileItems)
      pure { totalTiles := sharedTiles m numItems tileItems
             bigShares := bigBlocks m numItems maxGridSize tileItems
             bigShareItems
             normalShareItems
             normalBaseOffset := ((bigBlocks m numItems maxGridSize tileItems * tileItems : ℕ) : ℤ)
             numItems
             gridSize := blocks m numItems maxGridSize tileItems
             blockOffset := numItems
             blockEnd := numItems } : Wrapped GridEvenShare) := by
  have hshared : int.Has m (sharedTiles m numItems tileItems) :=
    IntegerType.has_of_le (Nat.min_le_left _ _)
  have hdiv := Nat.div_add_mod (sharedTiles m numItems tileItems) (blocks m numItems maxGridSize tileItems)
  have hnormal : int.Has m (normalTiles m numItems maxGridSize tileItems) := has_of_le hshared (Nat.div_le_self _ _)
  have hbig : int.Has m (bigBlocks m numItems maxGridSize tileItems) := has_of_le hshared (Nat.mod_le _ _)
  have hbase : OffsetT.Has m ((bigBlocks m numItems maxGridSize tileItems * tileItems : ℕ) : ℤ) := by
    refine has_of_le hnum ((Nat.mul_le_mul_right _ ?_).trans (sharedTiles_mul_lt (m := m) hitems htile).le)
    have hlt := Nat.mod_lt (sharedTiles m numItems tileItems) (blocks_pos (m := m) hitems hgrid htile)
    have hle : blocks m numItems maxGridSize tileItems ≤ sharedTiles m numItems tileItems := Nat.min_le_left _ _
    exact Nat.le_sub_one_of_lt (hlt.trans_le hle)
  have hmin : min (int.max m : ℤ) (tilesOf numItems tileItems) = sharedTiles m numItems tileItems :=
    (Nat.cast_min _ _).symm
  have hblocks : min (sharedTiles m numItems tileItems : ℤ) maxGridSize = blocks m numItems maxGridSize tileItems :=
    (Nat.cast_min _ _).symm
  have hprod : (sharedTiles m numItems tileItems : ℤ) / blocks m numItems maxGridSize tileItems *
      blocks m numItems maxGridSize tileItems =
        ((normalTiles m numItems maxGridSize tileItems * blocks m numItems maxGridSize tileItems : ℕ) : ℤ) := by
    rw [normalTiles, Nat.cast_mul, Int.natCast_ediv]
  have hrest : (sharedTiles m numItems tileItems : ℤ) -
      ((normalTiles m numItems maxGridSize tileItems * blocks m numItems maxGridSize tileItems : ℕ) : ℤ) =
        bigBlocks m numItems maxGridSize tileItems := by
    rw [normalTiles, bigBlocks, Nat.mul_comm]
    omega
  have hnot : ¬ ((numItems : ℤ) ≤ 0 ∨ (maxGridSize : ℤ) ≤ 0 ∨ (tileItems : ℤ) ≤ 0) := by omega
  unfold dispatchInit
  rw [if_neg hnot, (ceilDiv_is hT onDevice hitems htile hnum hint).bind_eq]
  dsimp only
  rw [hmin, IntegerType.staticCast_of_has hshared, hblocks, hprod, (is_cut ?_).bind_eq, hrest, (is_cut hbig).bind_eq,
    ← Int.natCast_ediv, IntegerType.staticCast_of_has (hT.has_of_int hint)]
  swap
  · exact has_of_le hshared (Nat.div_mul_le_self _ _)
  have hdivcast : ((sharedTiles m numItems tileItems / blocks m numItems maxGridSize tileItems : ℕ) : ℤ) =
      normalTiles m numItems maxGridSize tileItems := rfl
  rw [hdivcast, IntegerType.staticCast_of_has (hT.has_of_int hnormal), IntegerType.staticCast_of_has
    (hT.has_of_int hbig), ← Nat.cast_mul, ← Nat.cast_mul]
  refine congrArg _ (funext fun normalShareItems => ?_)
  rw [(is_cut hbase).bind_eq]

/-! ## 4. Ranges of the blocks -/

/-- The share of a block, if big shares are not too large. -/
def planned (m : DataModel) (numItems maxGridSize tileItems : ℕ) : GridEvenShare where
  totalTiles := sharedTiles m numItems tileItems
  bigShares := bigBlocks m numItems maxGridSize tileItems
  bigShareItems := (((normalTiles m numItems maxGridSize tileItems + 1) * tileItems : ℕ) : ℤ)
  normalShareItems := ((normalTiles m numItems maxGridSize tileItems * tileItems : ℕ) : ℤ)
  normalBaseOffset := ((bigBlocks m numItems maxGridSize tileItems * tileItems : ℕ) : ℤ)
  numItems
  gridSize := blocks m numItems maxGridSize tileItems
  blockOffset := numItems
  blockEnd := numItems

section

variable {numItems maxGridSize tileItems : ℕ} (hT : IsOffsetType m OffsetT) (hitems : 0 < numItems)
  (hgrid : 0 < maxGridSize) (htile : 0 < tileItems) (hnum : OffsetT.Has m numItems) (hint : int.Has m tileItems)

include hT hitems hgrid htile hnum hint in
/-- **Nothing is cut if and only if a big share is not too large.** -/
theorem kept_dispatchInit (onDevice : Bool) :
    (dispatchInit m OffsetT onDevice numItems maxGridSize tileItems).kept = true ↔
      OffsetT.Has m (((normalTiles m numItems maxGridSize tileItems + 1) * tileItems : ℕ) : ℤ) := by
  have hsum : ((normalTiles m numItems maxGridSize tileItems * tileItems : ℕ) : ℤ) + tileItems =
      (((normalTiles m numItems maxGridSize tileItems + 1) * tileItems : ℕ) : ℤ) := by
    rw [Nat.add_mul, Nat.one_mul, Nat.cast_add]
  rw [dispatchInit_eq hT onDevice hitems hgrid htile hnum hint, kept_bind, kept_cut]
  constructor
  · rintro ⟨hnormal, hrest⟩
    rw [(is_cut hnormal).1, kept_bind, kept_cut, hsum] at hrest
    exact hrest.1
  · intro hbig
    have hnormal : OffsetT.Has m ((normalTiles m numItems maxGridSize tileItems * tileItems : ℕ) : ℤ) :=
      has_of_le hbig (Nat.mul_le_mul_right _ (Nat.le_succ _))
    refine ⟨hnormal, ?_⟩
    rw [(is_cut hnormal).1, kept_bind, kept_cut, hsum]
    exact ⟨hbig, rfl⟩

include hT hitems hgrid htile hnum hint in
theorem dispatchInit_is (onDevice : Bool)
    (hbig : OffsetT.Has m (((normalTiles m numItems maxGridSize tileItems + 1) * tileItems : ℕ) : ℤ)) :
    (dispatchInit m OffsetT onDevice numItems maxGridSize tileItems).Is (planned m numItems maxGridSize tileItems) := by
  have hsum : ((normalTiles m numItems maxGridSize tileItems * tileItems : ℕ) : ℤ) + tileItems =
      (((normalTiles m numItems maxGridSize tileItems + 1) * tileItems : ℕ) : ℤ) := by
    rw [Nat.add_mul, Nat.one_mul, Nat.cast_add]
  have hnormal : OffsetT.Has m ((normalTiles m numItems maxGridSize tileItems * tileItems : ℕ) : ℤ) :=
    has_of_le hbig (Nat.mul_le_mul_right _ (Nat.le_succ _))
  rw [dispatchInit_eq hT onDevice hitems hgrid htile hnum hint, (is_cut hnormal).bind_eq, hsum, (is_cut hbig).bind_eq]
  exact Is.pure

include hT hitems hgrid htile hnum in
/-- **The range of a block**: from the tiles before it to the tiles before the next one, or to the end of the input. -/
theorem blockInit_is {b : ℕ} (hb : b < blocks m numItems maxGridSize tileItems) :
    ((planned m numItems maxGridSize tileItems).blockInit m OffsetT b).Is
      (((tilesBefore m numItems maxGridSize tileItems b * tileItems : ℕ) : ℤ),
        ((min numItems (tilesBefore m numItems maxGridSize tileItems (b + 1) * tileItems) : ℕ) : ℤ)) := by
  have hblocks : blocks m numItems maxGridSize tileItems ≤ sharedTiles m numItems tileItems := Nat.min_le_left _ _
  have hbT : OffsetT.Has m b := hT.has_of_int (has_of_le (IntegerType.has_of_le (Nat.min_le_left _ _))
    (hb.le.trans hblocks))
  have hbefore : tilesBefore m numItems maxGridSize tileItems b * tileItems < numItems :=
    (Nat.mul_le_mul_right _ (Nat.le_sub_one_of_lt (tilesBefore_lt hitems hgrid htile hb))).trans_lt
      (sharedTiles_mul_lt (m := m) hitems htile)
  unfold GridEvenShare.blockInit
  rw [IntegerType.staticCast_of_has hbT]
  by_cases hbig : b < bigBlocks m numItems maxGridSize tileItems
  · have hif : (b : ℤ) < (planned m numItems maxGridSize tileItems).bigShares := Nat.cast_lt.mpr hbig
    rw [if_pos hif]
    dsimp only [planned]
    have hnext : b + 1 < blocks m numItems maxGridSize tileItems :=
      (Nat.succ_le_of_lt hbig).trans_lt (Nat.mod_lt _ (blocks_pos hitems hgrid htile))
    have hend : tilesBefore m numItems maxGridSize tileItems (b + 1) * tileItems < numItems :=
      (Nat.mul_le_mul_right _ (Nat.le_sub_one_of_lt (tilesBefore_lt hitems hgrid htile hnext))).trans_lt
        (sharedTiles_mul_lt (m := m) hitems htile)
    have hoffset : (b : ℤ) * (((normalTiles m numItems maxGridSize tileItems + 1) * tileItems : ℕ) : ℤ) =
        ((tilesBefore m numItems maxGridSize tileItems b * tileItems : ℕ) : ℤ) := by
      rw [tilesBefore, Nat.min_eq_left hbig.le]
      push_cast
      ring
    have hsum : ((tilesBefore m numItems maxGridSize tileItems b * tileItems : ℕ) : ℤ) +
        (((normalTiles m numItems maxGridSize tileItems + 1) * tileItems : ℕ) : ℤ) =
          ((tilesBefore m numItems maxGridSize tileItems (b + 1) * tileItems : ℕ) : ℤ) := by
      rw [tilesBefore, tilesBefore, Nat.min_eq_left hbig.le, Nat.min_eq_left hbig]
      push_cast
      ring
    rw [hoffset, (is_cut (has_of_le hnum hbefore.le)).bind_eq, hsum, (is_cut (has_of_le hnum hend.le)).bind_eq,
      Nat.min_eq_right hend.le]
    exact Is.pure
  · have hif : ¬ (b : ℤ) < (planned m numItems maxGridSize tileItems).bigShares := fun h => hbig (Nat.cast_lt.mp h)
    have hif' : (b : ℤ) < (planned m numItems maxGridSize tileItems).totalTiles :=
      Nat.cast_lt.mpr (hb.trans_le hblocks)
    rw [if_neg hif, if_pos hif']
    dsimp only [planned]
    rw [not_lt] at hbig
    have hprod : (b : ℤ) * ((normalTiles m numItems maxGridSize tileItems * tileItems : ℕ) : ℤ) =
        ((b * normalTiles m numItems maxGridSize tileItems * tileItems : ℕ) : ℤ) := by
      push_cast
      ring
    have hoffset : ((bigBlocks m numItems maxGridSize tileItems * tileItems : ℕ) : ℤ) +
        ((b * normalTiles m numItems maxGridSize tileItems * tileItems : ℕ) : ℤ) =
          ((tilesBefore m numItems maxGridSize tileItems b * tileItems : ℕ) : ℤ) := by
      rw [tilesBefore, Nat.min_eq_right hbig]
      push_cast
      ring
    have hnext : tilesBefore m numItems maxGridSize tileItems (b + 1) * tileItems =
        tilesBefore m numItems maxGridSize tileItems b * tileItems +
          normalTiles m numItems maxGridSize tileItems * tileItems := by
      rw [tilesBefore, tilesBefore, Nat.min_eq_right hbig, Nat.min_eq_right (hbig.trans (Nat.le_succ b))]
      ring
    have hrest : (numItems : ℤ) - ((tilesBefore m numItems maxGridSize tileItems b * tileItems : ℕ) : ℤ) =
        ((numItems - tilesBefore m numItems maxGridSize tileItems b * tileItems : ℕ) : ℤ) :=
      (Nat.cast_sub hbefore.le).symm
    have hend : ((tilesBefore m numItems maxGridSize tileItems b * tileItems : ℕ) : ℤ) +
        min ((numItems - tilesBefore m numItems maxGridSize tileItems b * tileItems : ℕ) : ℤ)
          ((normalTiles m numItems maxGridSize tileItems * tileItems : ℕ) : ℤ) =
        ((min numItems (tilesBefore m numItems maxGridSize tileItems (b + 1) * tileItems) : ℕ) : ℤ) := by
      rw [← Nat.cast_min, ← Nat.cast_add, hnext, ← Nat.add_min_add_left, Nat.add_sub_cancel' hbefore.le]
    have hle : b * normalTiles m numItems maxGridSize tileItems * tileItems ≤ numItems :=
      (Nat.mul_le_mul_right _ (Nat.le_add_right _ _)).trans hbefore.le
    rw [hprod, (is_cut (has_of_le hnum hle)).bind_eq, hoffset, (is_cut (has_of_le hnum hbefore.le)).bind_eq, hrest,
      (is_cut (has_of_le hnum (Nat.sub_le _ _))).bind_eq, hend,
      (is_cut (has_of_le hnum (Nat.min_le_left _ _))).bind_eq]
    exact Is.pure

end

/-! ## 5. The partition -/

/-- The ranges of the blocks partition the input, in order, from multiples of the tile size on, and nothing is cut. -/
structure PartitionsInput (share : Wrapped GridEvenShare) (range : ℕ → Wrapped (ℤ × ℤ))
    (numItems tileItems : ℕ) : Prop where
  kept : share.kept = true
  kept_range (b : ℕ) : b < share.value.gridSize → (range b).kept = true
  aligned (b : ℕ) : b < share.value.gridSize → (tileItems : ℤ) ∣ (range b).value.1
  ordered (b c : ℕ) : b < c → c < share.value.gridSize → (range b).value.2 ≤ (range c).value.1
  covered (i : ℤ) : (0 ≤ i ∧ i < numItems) ↔
    ∃ b : ℕ, b < share.value.gridSize ∧ (range b).value.1 ≤ i ∧ i < (range b).value.2

/-- **When the shares partition the input**: if an `int` counts the tiles, and a big share is not too large. -/
theorem partitionsInput_iff (hT : IsOffsetType m OffsetT) (onDevice : Bool) {numItems maxGridSize tileItems : ℕ}
    (hitems : 0 < numItems) (hgrid : 0 < maxGridSize) (htile : 0 < tileItems) (hnum : OffsetT.Has m numItems)
    (hint : int.Has m tileItems) :
    let share := dispatchInit m OffsetT onDevice numItems maxGridSize tileItems
    PartitionsInput share (fun b => share.value.blockInit m OffsetT b) numItems tileItems ↔
      tilesOf numItems tileItems ≤ int.max m ∧
        OffsetT.Has m (((normalTiles m numItems maxGridSize tileItems + 1) * tileItems : ℕ) : ℤ) := by
  intro share
  constructor
  · intro h
    have hbig := (kept_dispatchInit hT hitems hgrid htile hnum hint onDevice).mp h.kept
    refine ⟨?_, hbig⟩
    have hshare : share.value = planned m numItems maxGridSize tileItems :=
      (dispatchInit_is hT hitems hgrid htile hnum hint onDevice hbig).1
    -- the last item is in the range of a block, which ends before the tiles that are shared do
    obtain ⟨b, hb, -, hlast⟩ := (h.covered (numItems - 1)).mp (by omega)
    rw [hshare] at hb hlast
    have hb : b < blocks m numItems maxGridSize tileItems := Nat.cast_lt.mp hb
    rw [(blockInit_is hT hitems hgrid htile hnum hb).1] at hlast
    have hlt : numItems - 1 < tilesBefore m numItems maxGridSize tileItems (b + 1) * tileItems := by
      have hmin := Nat.min_le_right numItems (tilesBefore m numItems maxGridSize tileItems (b + 1) * tileItems)
      dsimp only at hlast
      omega
    by_contra hmany
    have hshared : sharedTiles m numItems tileItems ≤ tilesOf numItems tileItems - 1 := by
      rw [sharedTiles]
      omega
    have hle : tilesBefore m numItems maxGridSize tileItems (b + 1) * tileItems ≤
        (tilesOf numItems tileItems - 1) * tileItems :=
      Nat.mul_le_mul_right tileItems (((tilesBefore_mono hb).trans_eq
        (tilesBefore_blocks hitems hgrid htile)).trans hshared)
    have hspec := (tilesOf_spec hitems htile).1
    omega
  · rintro ⟨htiles, hbig⟩
    have hshare := dispatchInit_is hT hitems hgrid htile hnum hint onDevice hbig
    have hrange : ∀ b : ℕ, b < share.value.gridSize → (share.value.blockInit m OffsetT b).Is
        (((tilesBefore m numItems maxGridSize tileItems b * tileItems : ℕ) : ℤ),
          ((min numItems (tilesBefore m numItems maxGridSize tileItems (b + 1) * tileItems) : ℕ) : ℤ)) := by
      intro b hb
      rw [hshare.1] at hb ⊢
      exact blockInit_is hT hitems hgrid htile hnum (Nat.cast_lt.mp hb)
    have hmono : Monotone fun b => tilesBefore m numItems maxGridSize tileItems b * tileItems :=
      fun b c h => Nat.mul_le_mul_right _ (tilesBefore_mono h)
    constructor
    · exact hshare.2
    · exact fun b hb => (hrange b hb).2
    · intro b hb
      rw [(hrange b hb).1]
      exact Int.natCast_dvd_natCast.mpr (Nat.dvd_mul_left _ _)
    · intro b c hbc hc
      have hb : (b : ℤ) < share.value.gridSize := by omega
      rw [(hrange b hb).1, (hrange c hc).1]
      exact Nat.cast_le.mpr ((Nat.min_le_right _ _).trans (hmono hbc))
    · intro i
      have hend : numItems ≤ tilesBefore m numItems maxGridSize tileItems (blocks m numItems maxGridSize tileItems) *
          tileItems := by
        rw [tilesBefore_blocks hitems hgrid htile, sharedTiles, Nat.min_eq_right htiles]
        exact (tilesOf_spec hitems htile).2.1
      constructor
      · rintro ⟨hpos, hlt⟩
        obtain ⟨k, rfl⟩ := Int.eq_ofNat_of_zero_le hpos
        have hk : k < numItems := Nat.cast_lt.mp hlt
        obtain ⟨b, hb, hlo, hhi⟩ := Cuts.exists_interval
          (s := fun b => tilesBefore m numItems maxGridSize tileItems b * tileItems) (by simp [tilesBefore])
          (hk.trans_le hend)
        have hb' : (b : ℤ) < share.value.gridSize := by
          rw [hshare.1]
          exact Nat.cast_lt.mpr hb
        refine ⟨b, hb', ?_⟩
        rw [(hrange b hb').1]
        exact ⟨Nat.cast_le.mpr hlo, Nat.cast_lt.mpr (lt_min hk hhi)⟩
      · rintro ⟨b, hb, hlo, hhi⟩
        rw [(hrange b hb).1] at hlo hhi
        dsimp only at hlo hhi
        have hmin := Nat.min_le_left numItems (tilesBefore m numItems maxGridSize tileItems (b + 1) * tileItems)
        omega

theorem partitionsInput_thousand :
    PartitionsInput (dispatchInit .lp64 int false (1000 : ℕ) (4 : ℕ) (128 : ℕ))
      (fun b => (dispatchInit .lp64 int false (1000 : ℕ) (4 : ℕ) (128 : ℕ)).value.blockInit .lp64 int b) 1000 128 :=
  (@partitionsInput_iff .lp64 int (Or.inl rfl) false _ _ _ (by decide) (by decide) (by decide) (by decide)
    (by decide)).mpr ⟨by decide, by decide⟩

/-- With all items in one block, the size of its share is rounded up to a number that is too large. -/
theorem not_partitionsInput_max :
    ¬ PartitionsInput (dispatchInit .lp64 int false (2147483647 : ℕ) (1 : ℕ) (128 : ℕ))
      (fun b => (dispatchInit .lp64 int false (2147483647 : ℕ) (1 : ℕ) (128 : ℕ)).value.blockInit .lp64 int b)
      2147483647 128 := by
  intro h
  exact absurd h.kept (by decide)

/-- The items of tiles that an `int` does not count are left out. -/
example : ((dispatchInit .lp64 ⟨.long, true⟩ false 2147483648 1 1).value.blockInit .lp64 ⟨.long, true⟩ 0).value =
    (0, 2147483647) := by decide

end Cccl.Grid
