/-
# Tiles in turn

`tiled_partition` cuts a one-dimensional shape into tiles and gives them to the parts in turn.  The size of a part is
found from its last tile, as if all parts had the same number of tiles: what is beyond the end of the shape is taken
off, up to one tile.  So an index is below the size if and only if its element is one of the shape
(`lt_partSize_iff`), and the parts are a partition.

A shape without elements has no tiles, and the number of tiles of a part, which is zero, is decreased.  Then the end of
the last tile is a large number for all parts but the last one, and too much is taken off from nothing.
-/
import Cccl.Places.CuteValid
import Cccl.Lib.Cuts
import Mathlib.Tactic.Ring

namespace Cccl.Places

/-! ## 1. The functions -/

/-- The difference of two values of `size_t`. -/
def sizeSub (a b : ℕ) : ℕ := sizeT (a + (2 ^ 64 - b))

theorem sizeSub_of_le {a b : ℕ} (ha : a < 2 ^ 64) (hb : b ≤ a) : sizeSub a b = a - b := by
  unfold sizeSub sizeT
  omega

namespace TiledPartition

/-- `tiled_mdspan_shape`, of a shape with `n` elements. -/
structure TiledMdspanShape where
  tileSize : ℕ
  n : ℕ
  partId : ℕ
  nparts : ℕ

namespace TiledMdspanShape

variable (S : TiledMdspanShape)

def ntiles : ℕ := sizeT (S.n + S.tileSize - 1) / S.tileSize

def tilePerPart : ℕ := sizeT (S.ntiles + S.nparts - 1) / S.nparts

def lastElem : ℕ :=
  sizeT (sizeT (S.partId + sizeT (sizeSub S.tilePerPart 1 * S.nparts) + 1) * S.tileSize)

/-- The number of elements of the part. -/
def size : ℕ :=
  if S.n < S.lastElem then
    sizeSub (sizeT (S.tilePerPart * S.tileSize)) (min S.tileSize (sizeSub S.lastElem S.n))
  else sizeT (S.tilePerPart * S.tileSize)

/-- `index_to_coords`: the shape takes the index modulo its extent. -/
def indexToCoords (index : ℕ) : ℕ :=
  sizeT (sizeT (sizeT (S.partId + sizeT (index / S.tileSize * S.nparts)) * S.tileSize) + index % S.tileSize) % S.n

end TiledMdspanShape

def apply (tileSize n place : ℕ) (gridDims : Dim4) : TiledMdspanShape := ⟨tileSize, n, place, gridDims.x⟩

def getExecutor (tileSize : ℕ) (dataCoords : Pos4) (gridDims : Dim4) : Pos4 :=
  ⟨dataCoords.x / tileSize % gridDims.x, 0, 0, 0⟩

/-! ## 2. Sizes of parts -/

/-- No rounded number is too large. -/
structure Fits (tileSize n nparts : ℕ) : Prop where
  elements : n + tileSize ≤ 2 ^ 64
  tiles : n ⌈/⌉ tileSize + nparts ≤ 2 ^ 64
  rounds : n ⌈/⌉ tileSize ⌈/⌉ nparts * nparts * tileSize < 2 ^ 64

section

variable {tileSize n nparts : ℕ} (htile : 0 < tileSize) (hn : 0 < n) (hparts : 0 < nparts)
  (hfits : Fits tileSize n nparts) {place : ℕ} {grid : Dim4} (hgrid : grid.x = nparts)

include htile hn hparts hfits hgrid in
theorem tiles_eq (hplace : place < nparts) :
    (apply tileSize n place grid).tilePerPart = n ⌈/⌉ tileSize ⌈/⌉ nparts ∧
      (apply tileSize n place grid).lastElem =
        (place + (n ⌈/⌉ tileSize ⌈/⌉ nparts - 1) * nparts + 1) * tileSize := by
  obtain ⟨htiles, -, -⟩ := Cuts.ceilDiv_spec hn htile
  obtain ⟨hrounds, -, -⟩ := Cuts.ceilDiv_spec htiles hparts
  have helements := hfits.elements
  have hsum := hfits.tiles
  have hmax := hfits.rounds
  have hntiles : (apply tileSize n place grid).ntiles = n ⌈/⌉ tileSize := by
    unfold TiledMdspanShape.ntiles
    change sizeT (n + tileSize - 1) / tileSize = _
    rw [sizeT_of_lt (by omega)]
    rfl
  have hper : (apply tileSize n place grid).tilePerPart = n ⌈/⌉ tileSize ⌈/⌉ nparts := by
    unfold TiledMdspanShape.tilePerPart
    rw [hntiles]
    change sizeT (n ⌈/⌉ tileSize + grid.x - 1) / grid.x = _
    rw [hgrid, sizeT_of_lt (by omega)]
    rfl
  refine ⟨hper, ?_⟩
  unfold TiledMdspanShape.lastElem
  rw [hper]
  change sizeT (sizeT (place + sizeT (sizeSub _ 1 * grid.x) + 1) * tileSize) = _
  rw [hgrid]
  generalize n ⌈/⌉ tileSize ⌈/⌉ nparts = rounds at *
  have hlast : place + (rounds - 1) * nparts + 1 ≤ rounds * nparts := by
    obtain ⟨r, rfl⟩ := Nat.exists_eq_add_of_le' hrounds
    rw [Nat.add_sub_cancel, Nat.add_mul, Nat.one_mul]
    omega
  have hle : rounds * nparts ≤ rounds * nparts * tileSize := Nat.le_mul_of_pos_right _ htile
  have hle' : rounds ≤ rounds * nparts := Nat.le_mul_of_pos_right _ hparts
  rw [sizeSub_of_le (by omega) hrounds, sizeT_of_lt (n := (rounds - 1) * nparts) (by omega),
    sizeT_of_lt (n := place + (rounds - 1) * nparts + 1) (by omega), sizeT_of_lt]
  exact (Nat.mul_le_mul_right _ hlast).trans_lt hmax

include htile hn hparts hfits hgrid in
/-- **An index is below the size of the part** if and only if its element is one of the shape. -/
theorem lt_size_iff (hplace : place < nparts) (index : ℕ) :
    index < (apply tileSize n place grid).size ↔
      (place + index / tileSize * nparts) * tileSize + index % tileSize < n := by
  obtain ⟨hper, hlast⟩ := tiles_eq htile hn hparts hfits hgrid hplace
  obtain ⟨htiles, hbefore, hafter⟩ := Cuts.ceilDiv_spec hn htile
  obtain ⟨hrounds, hless, henough⟩ := Cuts.ceilDiv_spec htiles hparts
  have helements := hfits.elements
  have hmax := hfits.rounds
  have hdivmod := Nat.div_add_mod' index tileSize
  have hmod := Nat.mod_lt index htile
  unfold TiledMdspanShape.size
  rw [hlast, hper]
  change (index < if n < _ then sizeSub (sizeT (_ * tileSize)) (min tileSize (sizeSub _ n)) else sizeT (_ * tileSize)) ↔ _
  generalize n ⌈/⌉ tileSize ⌈/⌉ nparts = rounds at *
  generalize n ⌈/⌉ tileSize = tiles at *
  have hcnt : rounds * tileSize < 2 ^ 64 := by
    refine lt_of_le_of_lt (Nat.mul_le_mul_right _ ?_) hmax
    exact Nat.le_mul_of_pos_right _ hparts
  have hend : (place + (rounds - 1) * nparts + 1) * tileSize < 2 ^ 64 := by
    refine lt_of_le_of_lt (Nat.mul_le_mul_right _ ?_) hmax
    obtain ⟨r, rfl⟩ := Nat.exists_eq_add_of_le' hrounds
    rw [Nat.add_sub_cancel, Nat.add_mul, Nat.one_mul]
    omega
  rw [sizeT_of_lt hcnt]
  -- the tile of the index is one before the last of the part, the last one, or beyond
  have hfirst : index / tileSize + 1 ≤ rounds - 1 →
      (place + index / tileSize * nparts) * tileSize + index % tileSize < n ∧
        (place + index / tileSize * nparts) * tileSize + index % tileSize <
          (place + (rounds - 1) * nparts) * tileSize := by
    intro hq
    have hmul : (index / tileSize + 1) * nparts ≤ (rounds - 1) * nparts := Nat.mul_le_mul_right _ hq
    rw [Nat.add_mul, Nat.one_mul] at hmul
    have h₁ : (place + index / tileSize * nparts + 1) * tileSize ≤ (tiles - 1) * tileSize :=
      Nat.mul_le_mul_right _ (by omega)
    have h₂ : (place + index / tileSize * nparts + 1) * tileSize ≤ (place + (rounds - 1) * nparts) * tileSize :=
      Nat.mul_le_mul_right _ (by omega)
    rw [Nat.add_mul _ 1, Nat.one_mul] at h₁ h₂
    omega
  have hbeyond : rounds ≤ index / tileSize →
      n ≤ (place + index / tileSize * nparts) * tileSize := by
    intro hq
    have hmul : rounds * nparts ≤ index / tileSize * nparts := Nat.mul_le_mul_right _ hq
    have h : tiles * tileSize ≤ (place + index / tileSize * nparts) * tileSize := Nat.mul_le_mul_right _ (by omega)
    omega
  have hindex : ∀ t, index < t * tileSize ↔ index / tileSize < t := fun t => (Nat.div_lt_iff_lt_mul htile).symm
  have hsplit : (rounds - 1) * tileSize + tileSize = rounds * tileSize := by
    obtain ⟨r, rfl⟩ := Nat.exists_eq_add_of_le' hrounds
    rw [Nat.add_sub_cancel, Nat.add_mul, Nat.one_mul]
  have hsplit' : (place + (rounds - 1) * nparts + 1) * tileSize =
      (place + (rounds - 1) * nparts) * tileSize + tileSize := by
    rw [Nat.add_mul _ 1, Nat.one_mul]
  split
  · rename_i hover
    rw [sizeSub_of_le hend hover.le]
    have hone : tileSize ≤ rounds * tileSize := Nat.le_mul_of_pos_left _ hrounds
    rcases lt_trichotomy (index / tileSize) (rounds - 1) with hq | hq | hq
    · have hbelow := (hindex (rounds - 1)).mpr hq
      obtain ⟨hlt, hlt'⟩ := hfirst (by omega)
      refine iff_of_true ?_ hlt
      rw [sizeSub_of_le hcnt (by omega)]
      omega
    · have habove : (rounds - 1) * tileSize + index % tileSize = index := by rw [← hq, hdivmod]
      rw [sizeSub_of_le hcnt (by omega), hq]
      omega
    · refine iff_of_false ?_ ?_
      · have habove := (hindex rounds).not.mpr (by omega)
        rw [sizeSub_of_le hcnt (by omega)]
        omega
      · have := hbeyond (by omega)
        omega
  · rename_i hover
    rw [hindex]
    constructor
    · intro hq
      rcases Nat.lt_or_ge (index / tileSize + 1) rounds with hlt | hge
      · exact (hfirst (by omega)).1
      · have heq : index / tileSize = rounds - 1 := by omega
        rw [heq]
        omega
    · intro hlt
      by_contra hq
      have := hbeyond (Nat.le_of_not_lt hq)
      omega

include htile hn hparts hfits hgrid in
/-- **The element of an index** is in the tile that its part takes in this turn. -/
theorem indexToCoords_eq (hplace : place < nparts) {index : ℕ} (hindex : index < (apply tileSize n place grid).size) :
    (apply tileSize n place grid).indexToCoords index =
        (place + index / tileSize * nparts) * tileSize + index % tileSize ∧
      (place + index / tileSize * nparts) * tileSize + index % tileSize < n := by
  have hlt := (lt_size_iff htile hn hparts hfits hgrid hplace index).mp hindex
  have helements := hfits.elements
  have hle : place + index / tileSize * nparts ≤ (place + index / tileSize * nparts) * tileSize :=
    Nat.le_mul_of_pos_right _ htile
  refine ⟨?_, hlt⟩
  unfold TiledMdspanShape.indexToCoords
  change sizeT (sizeT (sizeT (place + sizeT (index / tileSize * grid.x)) * tileSize) + index % tileSize) % n = _
  rw [hgrid, sizeT_of_lt (n := index / tileSize * nparts) (by omega), sizeT_of_lt (n := place + _) (by omega),
    sizeT_of_lt (n := _ * tileSize) (by omega), sizeT_of_lt (by omega), Nat.mod_eq_of_lt hlt]

end

/-! ## 3. The partition -/

/-- The elements that a part enumerates. -/
def Enumerates (S : TiledMdspanShape) (c : ℕ) : Prop := ∃ index < S.size, S.indexToCoords index = c

/-- The parts have all elements of the shape, and no others; no two have one in common; and the executor of an element
is the place of its part. -/
structure IsPartition (tileSize n : ℕ) (grid : Dim4) : Prop where
  covers (c : ℕ) : c < n ↔ ∃ place < grid.x, Enumerates (apply tileSize n place grid) c
  disjoint (c : ℕ) : ∀ place < grid.x, ∀ place' < grid.x, Enumerates (apply tileSize n place grid) c →
    Enumerates (apply tileSize n place' grid) c → place = place'
  executor (c : ℕ) : ∀ place < grid.x, Enumerates (apply tileSize n place grid) c →
    getExecutor tileSize ⟨c, 0, 0, 0⟩ grid = ⟨place, 0, 0, 0⟩

theorem isPartition_of_pos {tileSize n : ℕ} {grid : Dim4} (htile : 0 < tileSize) (hparts : 0 < grid.x) (hn : 0 < n)
    (hfits : Fits tileSize n grid.x) : IsPartition tileSize n grid := by
  have hexecutor : ∀ c, ∀ place < grid.x, Enumerates (apply tileSize n place grid) c →
      c < n ∧ c / tileSize % grid.x = place := by
    rintro c place hplace ⟨index, hindex, rfl⟩
    obtain ⟨hcoords, hlt⟩ := indexToCoords_eq htile hn hparts hfits rfl hplace hindex
    rw [hcoords]
    refine ⟨hlt, ?_⟩
    rw [Nat.add_comm, Nat.add_mul_div_right _ _ htile, Nat.div_eq_of_lt (Nat.mod_lt _ htile), Nat.zero_add,
      Nat.add_mul_mod_self_right, Nat.mod_eq_of_lt hplace]
  constructor
  · intro c
    constructor
    · intro hc
      have hplace : c / tileSize % grid.x < grid.x := Nat.mod_lt _ hparts
      have hdiv : (c / tileSize / grid.x * tileSize + c % tileSize) / tileSize = c / tileSize / grid.x := by
        rw [Nat.add_comm, Nat.add_mul_div_right _ _ htile, Nat.div_eq_of_lt (Nat.mod_lt _ htile), Nat.zero_add]
      have hmod : (c / tileSize / grid.x * tileSize + c % tileSize) % tileSize = c % tileSize := by
        rw [Nat.add_comm, Nat.add_mul_mod_self_right, Nat.mod_mod]
      have helement : (c / tileSize % grid.x + c / tileSize / grid.x * grid.x) * tileSize + c % tileSize = c := by
        rw [Nat.add_comm (c / tileSize % grid.x), Nat.div_add_mod', Nat.div_add_mod']
      have hindex : c / tileSize / grid.x * tileSize + c % tileSize <
          (apply tileSize n (c / tileSize % grid.x) grid).size := by
        rw [lt_size_iff htile hn hparts hfits rfl hplace, hdiv, hmod, helement]
        exact hc
      refine ⟨c / tileSize % grid.x, hplace, _, hindex, ?_⟩
      rw [(indexToCoords_eq htile hn hparts hfits rfl hplace hindex).1, hdiv, hmod, helement]
    · rintro ⟨place, hplace, henum⟩
      exact (hexecutor c place hplace henum).1
  · intro c place hplace place' hplace' henum henum'
    exact (hexecutor c place hplace henum).2.symm.trans (hexecutor c place' hplace' henum').2
  · intro c place hplace henum
    rw [getExecutor, (hexecutor c place hplace henum).2]

/-- **A shape without elements**: all parts but the last one are too large. -/
theorem isPartition_zero_iff {tileSize : ℕ} {grid : Dim4} (htile : 0 < tileSize) (htile64 : tileSize < 2 ^ 64)
    (hparts : 0 < grid.x) (hparts64 : grid.x < 2 ^ 64) : IsPartition tileSize 0 grid ↔ grid.x = 1 := by
  have hper : ∀ place, (apply tileSize 0 place grid).tilePerPart = 0 := by
    intro place
    have hntiles : (apply tileSize 0 place grid).ntiles = 0 := by
      change sizeT (0 + tileSize - 1) / tileSize = 0
      rw [sizeT_of_lt (by omega)]
      exact Nat.div_eq_of_lt (by omega)
    change sizeT ((apply tileSize 0 place grid).ntiles + grid.x - 1) / grid.x = 0
    rw [hntiles, sizeT_of_lt (by omega)]
    exact Nat.div_eq_of_lt (by omega)
  have hsize : ∀ place, (apply tileSize 0 place grid).size =
      if 0 < sizeT (sizeT (place + sizeT (sizeSub 0 1 * grid.x) + 1) * tileSize) then
        sizeSub 0 (min tileSize (sizeSub (sizeT (sizeT (place + sizeT (sizeSub 0 1 * grid.x) + 1) * tileSize)) 0))
      else 0 := by
    intro place
    unfold TiledMdspanShape.size TiledMdspanShape.lastElem
    rw [hper, Nat.zero_mul]
    rfl
  constructor
  · intro h
    by_contra hone
    -- the end of the last tile is one tile before zero
    have hpos : 0 < (apply tileSize 0 (grid.x - 2) grid).size := by
      have hwrapped : sizeT (grid.x - 2 + sizeT (sizeSub 0 1 * grid.x) + 1) = 2 ^ 64 - 1 := by
        unfold sizeSub sizeT
        omega
      rw [hsize, hwrapped]
      unfold sizeSub sizeT
      split <;> omega
    have hzero := (h.covers _).mpr ⟨grid.x - 2, by omega, 0, hpos, rfl⟩
    exact absurd hzero (Nat.not_lt_zero _)
  · intro hone
    have hempty : ∀ place < grid.x, (apply tileSize 0 place grid).size = 0 := by
      intro place hplace
      have hwrapped : sizeT (place + sizeT (sizeSub 0 1 * grid.x) + 1) = 0 := by
        unfold sizeSub sizeT
        omega
      rw [hsize, hwrapped, Nat.zero_mul]
      rfl
    have hnone : ∀ c, ∀ place < grid.x, ¬ Enumerates (apply tileSize 0 place grid) c := by
      rintro c place hplace ⟨index, hindex, -⟩
      rw [hempty place hplace] at hindex
      exact absurd hindex (Nat.not_lt_zero _)
    constructor
    · refine fun c => iff_of_false (Nat.not_lt_zero c) ?_
      rintro ⟨place, hplace, henum⟩
      exact hnone c place hplace henum
    · exact fun c place hplace _ _ henum _ => absurd henum (hnone c place hplace)
    · exact fun c place hplace henum => absurd henum (hnone c place hplace)

/-- **When tiles in turn are a partition**: if there is an element, or one part only. -/
theorem isPartition_cases {tileSize n : ℕ} {grid : Dim4} (htile : 0 < tileSize) (htile64 : tileSize < 2 ^ 64)
    (hparts : 0 < grid.x) (hparts64 : grid.x < 2 ^ 64) :
    (n = 0 → (IsPartition tileSize n grid ↔ grid.x = 1)) ∧
      (0 < n → Fits tileSize n grid.x → IsPartition tileSize n grid) := by
  refine ⟨?_, isPartition_of_pos htile hparts⟩
  rintro rfl
  exact isPartition_zero_iff htile htile64 hparts hparts64

theorem isPartition_eighteen : IsPartition 4 18 ⟨3, 1, 1, 1⟩ :=
  (isPartition_cases (by decide) (by decide) (by decide) (by decide)).2 (by decide)
    ⟨by decide, by decide, by decide⟩

/-- An empty shape and two parts. -/
theorem not_isPartition_empty : ¬ IsPartition 4 0 ⟨2, 1, 1, 1⟩ := by
  intro h
  have hsize : 0 < (apply 4 0 0 ⟨2, 1, 1, 1⟩).size := by decide
  exact absurd ((h.covers _).mpr ⟨0, by decide, 0, hsize, rfl⟩) (Nat.not_lt_zero _)

end TiledPartition

end Cccl.Places
