/-
# Blocks along one dimension

`blocked_partition_custom` splits one dimension of a box or of a shape into parts of the same size, one for each place:
the last ones are clipped or empty.  So the parts are what is between cuts (`Cuts`), and each element of the shape is in
the part of exactly one place.

`get_executor` computes the place from the coordinates.  It does not know the rank of the shape and takes the last
dimension whose extent is greater than one, where `apply` takes the last dimension of all.  So the two agree if that is
the same dimension, or if there is nothing to split (`views_agree`).
-/
import Cccl.Places.CutePartition
import Cccl.Lib.Wrapping
import Cccl.Lib.Cuts
import Mathlib

namespace Cccl.Places

open Wrapped

/-! ## 1. The functions -/

/-- The bounds of a `box`. -/
abbrev Box (dimensions : ℕ) : Type := Fin dimensions → ℤ × ℤ

/-- `dim4::get_rank`: the last axis whose extent is greater than one. -/
def Dim4.getRank (d : Dim4) : ℕ :=
  if 1 < d.t then 3
  else if 1 < d.z then 2
  else if 1 < d.y then 1
  else 0

namespace BlockedPartition

variable {k : ℕ} (whichDim : ℤ)

/-- The dimension that `apply` splits. -/
def targetDim (k : ℕ) : Fin (k + 1) :=
  ⟨min (if whichDim = -1 then k else (toSize whichDim).toNat) k, Nat.lt_succ_of_le (Nat.min_le_right _ _)⟩

/-- `apply` of a box. -/
def applyBox (bounds : Box (k + 1)) (place nplaces : ℤ) : Wrapped (Box (k + 1)) := do
  let dimBeg := (bounds (targetDim whichDim k)).1
  let dimEnd := (bounds (targetDim whichDim k)).2
  let cnt ← diffCut (dimEnd - dimBeg)
  let sum ← sizeCut (toSize cnt + nplaces)
  let sum ← sizeCut (sum - 1)
  let partSize := toDiff (sum / nplaces)
  let before ← diffCut (partSize * place)
  let first ← diffCut (dimBeg + before)
  let next ← diffCut (place + 1)
  let upTo ← diffCut (partSize * next)
  let second ← diffCut (dimBeg + upTo)
  pure (Function.update bounds (targetDim whichDim k) (min first dimEnd, min second dimEnd))

/-- `apply` of a shape with these extents. -/
def applyShape (extents : Fin (k + 1) → ℤ) (place nplaces : ℤ) : Wrapped (Box (k + 1)) := do
  let bounds : Box (k + 1) := fun d => (0, toDiff (extents d))
  let dimEnd := toDiff (extents (targetDim whichDim k))
  let sum ← sizeCut (toSize (extents (targetDim whichDim k)) + nplaces)
  let sum ← sizeCut (sum - 1)
  let partSize := toDiff (sum / nplaces)
  let first ← diffCut (partSize * place)
  let next ← diffCut (place + 1)
  let second ← diffCut (partSize * next)
  pure (Function.update bounds (targetDim whichDim k) (min first dimEnd, min second dimEnd))

/-- The dimension that `get_executor` selects. -/
def executorDim (dataDims : Dim4) : ℕ :=
  min (if whichDim = -1 then dataDims.getRank else (toSize whichDim).toNat) dataDims.getRank

def getExecutor (dataCoords : Pos4) (dataDims : Dim4) (nplaces : ℤ) : Wrapped Pos4 := do
  let sum ← sizeCut (dataDims.get (executorDim whichDim dataDims) + nplaces)
  let sum ← sizeCut (sum - 1)
  let partSize := sum / nplaces
  pure ⟨(dataCoords.get (executorDim whichDim dataDims) / partSize).toNat, 0, 0, 0⟩

/-! ## 2. The parts -/

/-- Coordinates within bounds. -/
def InBox (bounds : Box k) (coords : Fin k → ℤ) : Prop := ∀ d, (bounds d).1 ≤ coords d ∧ coords d < (bounds d).2

/-- Each element of a shape is in the part of exactly one place, and nothing else is in a part. -/
def Splits (bounds : Box k) (nplaces : ℕ) (part : ℕ → Box k) : Prop :=
  (∀ coords, InBox bounds coords → ∃! place, place < nplaces ∧ InBox (part place) coords) ∧
    ∀ place < nplaces, ∀ coords, InBox (part place) coords → InBox bounds coords

/-- The size of a part. -/
def partSize (cnt nplaces : ℕ) : ℕ := cnt ⌈/⌉ nplaces

theorem partSize_mul {cnt nplaces : ℕ} (hplaces : 0 < nplaces) : cnt ≤ partSize cnt nplaces * nplaces := by
  have h := le_smul_ceilDiv (b := cnt) hplaces
  rwa [smul_eq_mul, Nat.mul_comm] at h

/-- Where the part of a place begins. -/
def cutAt (dimBeg dimEnd : ℤ) (part place : ℕ) : ℤ := min (dimBeg + part * place) dimEnd

theorem cutAt_mono (dimBeg dimEnd : ℤ) (part : ℕ) : Monotone (cutAt dimBeg dimEnd part) := by
  intro b c h
  have hle : (part : ℤ) * b ≤ part * c := Int.mul_le_mul_of_nonneg_left (Int.ofNat_le.mpr h) (Int.natCast_nonneg _)
  exact min_le_min_right _ (Int.add_le_add_left hle _)

theorem inBox_update {bounds : Box k} {t : Fin k} {lo hi : ℤ} {coords : Fin k → ℤ} :
    InBox (Function.update bounds t (lo, hi)) coords ↔
      (lo ≤ coords t ∧ coords t < hi) ∧ ∀ d, d ≠ t → (bounds d).1 ≤ coords d ∧ coords d < (bounds d).2 := by
  constructor
  · intro h
    refine ⟨?_, fun d hd => ?_⟩
    · have ht := h t
      rwa [Function.update_self] at ht
    · have hd' := h d
      rwa [Function.update_of_ne hd] at hd'
  · rintro ⟨ht, hrest⟩ d
    by_cases hd : d = t
    · rw [hd, Function.update_self]
      exact ht
    · rw [Function.update_of_ne hd]
      exact hrest d hd

theorem Splits.congr {bounds : Box k} {nplaces : ℕ} {part part' : ℕ → Box k} (h : Splits bounds nplaces part)
    (heq : ∀ place < nplaces, part' place = part place) : Splits bounds nplaces part' := by
  constructor
  · intro coords hin
    obtain ⟨place, ⟨hplace, hpart⟩, hunique⟩ := h.1 coords hin
    refine ⟨place, ⟨hplace, (heq place hplace).symm ▸ hpart⟩, ?_⟩
    rintro other ⟨hother, hpart'⟩
    exact hunique other ⟨hother, heq other hother ▸ hpart'⟩
  · intro place hplace coords hin
    exact h.2 place hplace coords (heq place hplace ▸ hin)

/-- **The parts between the cuts split the box.** -/
theorem splits_cutAt {bounds : Box k} (t : Fin k) (nplaces part : ℕ) (hle : (bounds t).1 ≤ (bounds t).2)
    (henough : (bounds t).2 ≤ (bounds t).1 + part * nplaces) :
    Splits bounds nplaces fun place => Function.update bounds t
      (cutAt (bounds t).1 (bounds t).2 part place, cutAt (bounds t).1 (bounds t).2 part (place + 1)) := by
  have hmono := cutAt_mono (bounds t).1 (bounds t).2 part
  have hzero : cutAt (bounds t).1 (bounds t).2 part 0 = (bounds t).1 := by
    rw [cutAt, Nat.cast_zero, mul_zero, add_zero, min_eq_left hle]
  have hend : cutAt (bounds t).1 (bounds t).2 part nplaces = (bounds t).2 := min_eq_right henough
  constructor
  · intro coords hin
    obtain ⟨place, hplace, hinterval⟩ := Cuts.exists_interval (s := cutAt (bounds t).1 (bounds t).2 part)
      (i := coords t) (hzero.trans_le (hin t).1) (n := nplaces) ((hin t).2.trans_eq hend.symm)
    refine ⟨place, ⟨hplace, inBox_update.mpr ⟨hinterval, fun d _ => hin d⟩⟩, ?_⟩
    rintro other ⟨-, hother⟩
    exact Cuts.interval_unique hmono (inBox_update.mp hother).1 hinterval
  · intro place hplace coords hin
    obtain ⟨⟨hlo, hhi⟩, hrest⟩ := inBox_update.mp hin
    intro d
    by_cases hd : d = t
    · rw [hd]
      exact ⟨hzero.symm.trans_le ((hmono (Nat.zero_le place)).trans hlo), hhi.trans_le (min_le_right _ _)⟩
    · exact hrest d hd

/-! ## 3. What `apply` computes -/

/-- The parts do not go beyond the largest `ptrdiff_t`. -/
structure Roomy (dimBeg : ℤ) (cnt nplaces : ℕ) : Prop where
  begins : -2 ^ 63 ≤ dimBeg
  parts : partSize cnt nplaces * nplaces < 2 ^ 63
  ends : dimBeg + partSize cnt nplaces * nplaces < 2 ^ 63

variable {whichDim}

theorem roundUp {cnt nplaces : ℕ} (hplaces : 0 < nplaces) :
    ((cnt : ℤ) + nplaces - 1) / nplaces = partSize cnt nplaces := by
  have hsub : (cnt : ℤ) + nplaces - 1 = ((cnt + nplaces - 1 : ℕ) : ℤ) := by omega
  rw [hsub, ← Int.natCast_ediv]
  rfl

theorem Roomy.sum_lt {dimBeg : ℤ} {cnt nplaces : ℕ} (h : Roomy dimBeg cnt nplaces) (hcnt : 0 < cnt)
    (hplaces : 0 < nplaces) : cnt < 2 ^ 63 ∧ nplaces < 2 ^ 63 ∧ partSize cnt nplaces < 2 ^ 63 := by
  have hmul := @partSize_mul cnt _ hplaces
  have hpos : 0 < partSize cnt nplaces := by
    rw [Nat.pos_iff_ne_zero]
    intro hzero
    rw [hzero, Nat.zero_mul] at hmul
    omega
  have hparts := h.parts
  exact ⟨by omega, (Nat.le_mul_of_pos_left _ hpos).trans_lt hparts, (Nat.le_mul_of_pos_right _ hplaces).trans_lt hparts⟩

theorem is_cutAt {dimBeg : ℤ} {cnt nplaces : ℕ} (h : Roomy dimBeg cnt nplaces) {place : ℕ} (hplace : place ≤ nplaces) :
    (diffCut ((partSize cnt nplaces : ℤ) * place)).Is (partSize cnt nplaces * place) ∧
      (diffCut (dimBeg + (partSize cnt nplaces : ℤ) * place)).Is (dimBeg + partSize cnt nplaces * place) := by
  have hle : (partSize cnt nplaces : ℤ) * place ≤ partSize cnt nplaces * nplaces :=
    Int.mul_le_mul_of_nonneg_left (Int.ofNat_le.mpr hplace) (Int.natCast_nonneg _)
  have hpos : (0 : ℤ) ≤ (partSize cnt nplaces : ℤ) * place := Int.mul_nonneg (Int.natCast_nonneg _) (Int.natCast_nonneg _)
  have hbegins := h.begins
  have hparts : (partSize cnt nplaces : ℤ) * nplaces < 2 ^ 63 := by exact_mod_cast h.parts
  have hends := h.ends
  exact ⟨is_diffCut (by omega) (by omega), is_diffCut (by omega) (by omega)⟩

/-- **`apply` of a box** gives what is between two cuts. -/
theorem applyBox_is {bounds : Box (k + 1)} {cnt nplaces : ℕ} (hcnt : 0 < cnt) (hplaces : 0 < nplaces)
    (hend : (bounds (targetDim whichDim k)).2 = (bounds (targetDim whichDim k)).1 + cnt)
    (hroomy : Roomy (bounds (targetDim whichDim k)).1 cnt nplaces) {place : ℕ} (hplace : place < nplaces) :
    (applyBox whichDim bounds place nplaces).Is (Function.update bounds (targetDim whichDim k)
      (cutAt (bounds (targetDim whichDim k)).1 (bounds (targetDim whichDim k)).2 (partSize cnt nplaces) place,
        cutAt (bounds (targetDim whichDim k)).1 (bounds (targetDim whichDim k)).2 (partSize cnt nplaces) (place + 1))) := by
  obtain ⟨hcnt63, hplaces63, hpart63⟩ := hroomy.sum_lt hcnt hplaces
  have hdiff : (bounds (targetDim whichDim k)).2 - (bounds (targetDim whichDim k)).1 = cnt := by omega
  obtain ⟨hbefore, hfirst⟩ := is_cutAt hroomy hplace.le
  obtain ⟨hupTo, hsecond⟩ := is_cutAt hroomy (Nat.succ_le_of_lt hplace)
  have hnext : (place : ℤ) + 1 = ((place + 1 : ℕ) : ℤ) := (Nat.cast_succ place).symm
  unfold applyBox
  dsimp only
  rw [hdiff, (is_diffCut (by omega) (by omega)).bind_eq, toSize_of_lt (by omega) (by omega),
    (is_sizeCut (by omega) (by omega)).bind_eq, (is_sizeCut (by omega) (by omega)).bind_eq, roundUp hplaces,
    toDiff_of_lt (by omega) (by omega), hbefore.bind_eq, hfirst.bind_eq, (is_diffCut (by omega) (by omega)).bind_eq,
    hnext, hupTo.bind_eq, hsecond.bind_eq]
  exact Is.pure

/-- **`apply` of a shape** gives what is between two cuts. -/
theorem applyShape_is {extents : Fin (k + 1) → ℕ} {nplaces : ℕ} (hext : ∀ d, 0 < extents d) (hplaces : 0 < nplaces)
    (hsmall : ∀ d, extents d < 2 ^ 63) (hroomy : Roomy 0 (extents (targetDim whichDim k)) nplaces) {place : ℕ}
    (hplace : place < nplaces) :
    (applyShape whichDim (fun d => (extents d : ℤ)) place nplaces).Is
      (Function.update (fun d => (0, (extents d : ℤ))) (targetDim whichDim k)
        (cutAt 0 (extents (targetDim whichDim k)) (partSize (extents (targetDim whichDim k)) nplaces) place,
          cutAt 0 (extents (targetDim whichDim k)) (partSize (extents (targetDim whichDim k)) nplaces) (place + 1))) := by
  obtain ⟨hcnt63, hplaces63, hpart63⟩ := hroomy.sum_lt (hext _) hplaces
  obtain ⟨hbefore, -⟩ := is_cutAt hroomy hplace.le
  obtain ⟨hupTo, -⟩ := is_cutAt hroomy (Nat.succ_le_of_lt hplace)
  have hnext : (place : ℤ) + 1 = ((place + 1 : ℕ) : ℤ) := (Nat.cast_succ place).symm
  have hbounds : (fun d => ((0 : ℤ), toDiff (extents d))) = fun d => ((0 : ℤ), (extents d : ℤ)) := by
    funext d
    have := hsmall d
    rw [toDiff_of_lt (by omega) (by omega)]
  unfold applyShape
  dsimp only
  rw [hbounds, toDiff_of_lt (v := (extents (targetDim whichDim k) : ℤ)) (by omega) (by omega),
    toSize_of_lt (by omega) (by omega), (is_sizeCut (by omega) (by omega)).bind_eq,
    (is_sizeCut (by omega) (by omega)).bind_eq, roundUp hplaces, toDiff_of_lt (by omega) (by omega), hbefore.bind_eq,
    (is_diffCut (by omega) (by omega)).bind_eq, hnext, hupTo.bind_eq]
  simp only [cutAt, zero_add]
  exact Is.pure

end BlockedPartition

/-! ## 4. What `get_executor` computes -/

theorem Dim4.getRank_lt (d : Dim4) : d.getRank < 4 := by
  unfold getRank
  split
  · decide
  split
  · decide
  split
  · decide
  · decide

theorem Dim4.le_getRank (d : Dim4) {i : ℕ} (hi : i < 4) (h : 1 < d.get i) : i ≤ d.getRank := by
  unfold getRank
  match i, hi with
  | 0, _ => exact Nat.zero_le _
  | 1, _ =>
    have hy : 1 < d.y := h
    split
    · decide
    split
    · decide
    · exact Nat.le_refl 1
  | 2, _ =>
    have hz : 1 < d.z := h
    split
    · decide
    · exact Nat.le_refl 2
  | 3, _ =>
    have ht : 1 < d.t := h
    rw [if_pos ht]

/-- It is an axis whose extent is greater than one, or the first one. -/
theorem Dim4.getRank_eq_zero_or (d : Dim4) : d.getRank = 0 ∨ 1 < d.get d.getRank := by
  unfold getRank
  split
  · rename_i h
    exact Or.inr h
  split
  · rename_i h
    exact Or.inr h
  split
  · rename_i h
    exact Or.inr h
  · exact Or.inl rfl

namespace BlockedPartition

variable {k : ℕ} {whichDim : ℤ}

/-- The extents of a shape as a `dim4`. -/
def dimsOf (extents : Fin (k + 1) → ℕ) : Dim4 :=
  let extent (i : ℕ) := if h : i < k + 1 then extents ⟨i, h⟩ else 1
  ⟨extent 0, extent 1, extent 2, extent 3⟩

/-- Coordinates as a `pos4`. -/
def posOf (coords : Fin (k + 1) → ℕ) : Pos4 :=
  let coord (i : ℕ) := if h : i < k + 1 then coords ⟨i, h⟩ else 0
  ⟨coord 0, coord 1, coord 2, coord 3⟩

theorem get_dimsOf (extents : Fin (k + 1) → ℕ) {i : ℕ} (hi : i < 4) :
    (dimsOf extents).get i = if h : i < k + 1 then extents ⟨i, h⟩ else 1 := by
  match i, hi with
  | 0, _ => rfl
  | 1, _ => rfl
  | 2, _ => rfl
  | 3, _ => rfl

theorem get_posOf (coords : Fin (k + 1) → ℕ) {i : ℕ} (hi : i < 4) :
    (posOf coords).get i = if h : i < k + 1 then coords ⟨i, h⟩ else 0 := by
  match i, hi with
  | 0, _ => rfl
  | 1, _ => rfl
  | 2, _ => rfl
  | 3, _ => rfl

theorem getRank_dimsOf_le (extents : Fin (k + 1) → ℕ) : (dimsOf extents).getRank ≤ k := by
  rcases (dimsOf extents).getRank_eq_zero_or with h | h
  · rw [h]
    exact Nat.zero_le k
  · rw [get_dimsOf extents (Dim4.getRank_lt _)] at h
    split at h
    · rename_i hlt
      exact Nat.le_of_lt_succ hlt
    · exact absurd h (lt_irrefl 1)

theorem executorDim_lt (extents : Fin (k + 1) → ℕ) : executorDim whichDim (dimsOf extents) < k + 1 :=
  Nat.lt_succ_of_le ((Nat.min_le_right _ _).trans (getRank_dimsOf_le extents))

/-- The dimension that is selected, among those of the shape. -/
def selected (whichDim : ℤ) (extents : Fin (k + 1) → ℕ) : Fin (k + 1) :=
  ⟨executorDim whichDim (dimsOf extents), executorDim_lt extents⟩

theorem getExecutor_is {extents coords : Fin (k + 1) → ℕ} {nplaces : ℕ} (hrank : k + 1 ≤ 4) (hplaces : 0 < nplaces)
    (hsum : extents (selected whichDim extents) + nplaces < 2 ^ 64) :
    (getExecutor whichDim (posOf coords) (dimsOf extents) nplaces).Is
      ⟨coords (selected whichDim extents) / partSize (extents (selected whichDim extents)) nplaces, 0, 0, 0⟩ := by
  have hlt := @executorDim_lt _ whichDim extents
  have hextent : (dimsOf extents).get (executorDim whichDim (dimsOf extents)) = extents (selected whichDim extents) := by
    rw [get_dimsOf extents (hlt.trans_le hrank), dif_pos hlt]
    rfl
  have hcoord : (posOf coords).get (executorDim whichDim (dimsOf extents)) = coords (selected whichDim extents) := by
    rw [get_posOf coords (hlt.trans_le hrank), dif_pos hlt]
    rfl
  unfold getExecutor
  dsimp only
  rw [hextent, hcoord, (is_sizeCut (by omega) (by omega)).bind_eq, (is_sizeCut (by omega) (by omega)).bind_eq,
    roundUp hplaces, ← Int.natCast_ediv, Int.toNat_natCast]
  exact Is.pure

/-- **If another dimension is selected than is split**, then there is nothing to split. -/
theorem extent_eq_one {extents : Fin (k + 1) → ℕ} (hext : ∀ d, 0 < extents d) (hrank : k + 1 ≤ 4)
    (hne : selected whichDim extents ≠ targetDim whichDim k) : extents (targetDim whichDim k) = 1 := by
  by_contra hone
  have hgt : 1 < extents (targetDim whichDim k) := by
    have := hext (targetDim whichDim k)
    omega
  have hle : (targetDim whichDim k).val ≤ (dimsOf extents).getRank := by
    refine Dim4.le_getRank _ ((targetDim whichDim k).isLt.trans_le hrank) ?_
    rw [get_dimsOf extents ((targetDim whichDim k).isLt.trans_le hrank), dif_pos (targetDim whichDim k).isLt]
    exact hgt
  have hrank' := getRank_dimsOf_le extents
  refine hne (Fin.ext ?_)
  unfold selected targetDim executorDim at *
  dsimp only at *
  split
  · rename_i hwhich
    rw [if_pos hwhich] at hle
    omega
  · rename_i hwhich
    rw [if_neg hwhich] at hle
    omega

/-! ## 5. The two views -/

/-- Each element of a zero-based shape is mapped to the place whose part contains it. -/
def Agree (whichDim : ℤ) (extents : Fin (k + 1) → ℕ) (nplaces : ℕ) (part : ℕ → Box (k + 1)) : Prop :=
  ∀ coords : Fin (k + 1) → ℕ, (∀ d, coords d < extents d) → ∀ place < nplaces,
    InBox (part place) (fun d => (coords d : ℤ)) →
      (getExecutor whichDim (posOf coords) (dimsOf extents) nplaces).value = ⟨place, 0, 0, 0⟩

theorem div_eq_place {part place c dimEnd : ℕ} (hc : c < dimEnd) (hlo : cutAt 0 dimEnd part place ≤ c)
    (hhi : (c : ℤ) < cutAt 0 dimEnd part (place + 1)) : c / part = place := by
  have hle : part * place ≤ c := by
    rcases min_le_iff.mp hlo with h | h
    · rw [zero_add] at h
      exact_mod_cast h
    · exact absurd (Int.ofNat_le.mp h) (Nat.not_le_of_lt hc)
  have hlt : c < part * (place + 1) := by
    have h := (lt_min_iff.mp hhi).1
    rw [zero_add] at h
    exact_mod_cast h
  have hpart : 0 < part := Nat.pos_of_ne_zero fun hzero => by
    rw [hzero, Nat.zero_mul] at hlt
    exact absurd hlt (Nat.not_lt_zero c)
  rw [Nat.div_eq_iff hpart]
  rw [Nat.mul_add, Nat.mul_one] at hlt
  rw [Nat.mul_comm] at hle
  rw [Nat.mul_comm part place] at hlt
  omega

/-- All elements are in the first part if there is one place, or one element. -/
theorem le_partSize_iff {cnt nplaces : ℕ} (hcnt : 0 < cnt) (hplaces : 0 < nplaces) :
    cnt ≤ partSize cnt nplaces ↔ nplaces = 1 ∨ cnt = 1 := by
  constructor
  · intro hle
    by_contra hnot
    obtain ⟨hplaces1, hcnt1⟩ := not_or.mp hnot
    have hless : partSize cnt nplaces ≤ cnt - 1 := by
      refine (ceilDiv_le_iff_le_mul hplaces).mpr ?_
      have hmul : 2 * (cnt - 1) ≤ nplaces * (cnt - 1) := Nat.mul_le_mul_right _ (by omega)
      omega
    omega
  · rintro (rfl | rfl)
    · have h := @partSize_mul cnt _ Nat.zero_lt_one
      rwa [Nat.mul_one] at h
    · have h := @partSize_mul 1 _ hplaces
      refine Nat.one_le_iff_ne_zero.mpr fun hzero => ?_
      rw [hzero, Nat.zero_mul] at h
      exact absurd h (by decide)

/-- **The executor is the place of the part** if and only if there is nothing to split that is not split. -/
theorem agree_iff {extents : Fin (k + 1) → ℕ} {nplaces : ℕ} (hext : ∀ d, 0 < extents d) (hplaces : 0 < nplaces)
    (hsum : ∀ d, extents d + nplaces < 2 ^ 64) (hrank : k + 1 ≤ 4) {part : ℕ → Box (k + 1)}
    (hpart : ∀ place < nplaces, part place = Function.update (fun d => (0, (extents d : ℤ))) (targetDim whichDim k)
      (cutAt 0 (extents (targetDim whichDim k)) (partSize (extents (targetDim whichDim k)) nplaces) place,
        cutAt 0 (extents (targetDim whichDim k)) (partSize (extents (targetDim whichDim k)) nplaces) (place + 1))) :
    Agree whichDim extents nplaces part ↔
      selected whichDim extents = targetDim whichDim k ∨ nplaces = 1 ∨ extents (selected whichDim extents) = 1 := by
  have hexecutor : ∀ coords : Fin (k + 1) → ℕ,
      (getExecutor whichDim (posOf coords) (dimsOf extents) nplaces).value =
        ⟨coords (selected whichDim extents) / partSize (extents (selected whichDim extents)) nplaces, 0, 0, 0⟩ :=
    fun coords => (getExecutor_is hrank hplaces (hsum _)).1
  by_cases heq : selected whichDim extents = targetDim whichDim k
  · refine iff_of_true (fun coords hcoords place hplace hin => ?_) (Or.inl heq)
    rw [hpart place hplace] at hin
    obtain ⟨⟨hlo, hhi⟩, -⟩ := inBox_update.mp hin
    rw [hexecutor, heq, div_eq_place (hcoords _) hlo hhi]
  · have hone := extent_eq_one hext hrank heq
    rw [or_iff_right heq, ← le_partSize_iff (hext _) hplaces]
    have hpos : 0 < partSize (extents (targetDim whichDim k)) nplaces := by
      have h := @partSize_mul (extents (targetDim whichDim k)) _ hplaces
      refine Nat.pos_of_ne_zero fun hzero => ?_
      rw [hzero, Nat.zero_mul, hone] at h
      exact absurd h (by decide)
    constructor
    · intro hagree
      -- the last element along the selected dimension is in the part of the first place
      have hcoords : ∀ d, Function.update (fun _ => 0) (selected whichDim extents)
          (extents (selected whichDim extents) - 1) d < extents d := by
        intro d
        by_cases hd : d = selected whichDim extents
        · rw [hd, Function.update_self]
          exact Nat.sub_lt (hext _) Nat.one_pos
        · rw [Function.update_of_ne hd]
          exact hext d
      have hin : InBox (part 0) fun d => ((Function.update (fun _ => 0) (selected whichDim extents)
          (extents (selected whichDim extents) - 1) d : ℕ) : ℤ) := by
        rw [hpart 0 hplaces]
        refine inBox_update.mpr ⟨?_, fun d _ => ⟨Int.natCast_nonneg _, Int.ofNat_lt.mpr (hcoords d)⟩⟩
        rw [Function.update_of_ne (Ne.symm heq), hone]
        rw [hone] at hpos
        simpa [cutAt] using hpos
      have hvalue := hagree _ hcoords 0 hplaces hin
      rw [hexecutor, Function.update_self] at hvalue
      have hzero := congrArg Pos4.x hvalue
      dsimp only at hzero
      rcases Nat.div_eq_zero_iff.mp hzero with h | h
      · have hmul := @partSize_mul (extents (selected whichDim extents)) _ hplaces
        rw [h, Nat.zero_mul] at hmul
        have := hext (selected whichDim extents)
        omega
      · omega
    · intro hle coords hcoords place hplace hin
      rw [hpart place hplace] at hin
      obtain ⟨⟨hlo, hhi⟩, -⟩ := inBox_update.mp hin
      have hquot := div_eq_place (hcoords _) hlo hhi
      have hc : coords (targetDim whichDim k) = 0 := by
        have := hcoords (targetDim whichDim k)
        omega
      rw [hexecutor, Nat.div_eq_of_lt ((hcoords _).trans_le hle), ← hquot, hc, Nat.zero_div]

/-- **Blocks along one dimension**: the parts split each box and each shape, and the executor of an element is the place
of its part if the selected dimension is the one that is split, or has nothing to split, or there is one place. -/
theorem views_agree (whichDim : ℤ) (k : ℕ) :
    (∀ (bounds : Box (k + 1)) (cnt nplaces : ℕ), 0 < cnt → 0 < nplaces →
      (bounds (targetDim whichDim k)).2 = (bounds (targetDim whichDim k)).1 + cnt →
        Roomy (bounds (targetDim whichDim k)).1 cnt nplaces →
          Splits bounds nplaces fun place => (applyBox whichDim bounds place nplaces).value) ∧
    ∀ (extents : Fin (k + 1) → ℕ) (nplaces : ℕ), (∀ d, 0 < extents d ∧ extents d < 2 ^ 63) → 0 < nplaces →
      Roomy 0 (extents (targetDim whichDim k)) nplaces →
        Splits (fun d => (0, (extents d : ℤ))) nplaces
          (fun place => (applyShape whichDim (fun d => (extents d : ℤ)) place nplaces).value) ∧
        (k + 1 ≤ 4 → (Agree whichDim extents nplaces
          (fun place => (applyShape whichDim (fun d => (extents d : ℤ)) place nplaces).value) ↔
            selected whichDim extents = targetDim whichDim k ∨ nplaces = 1 ∨
              extents (selected whichDim extents) = 1)) := by
  refine ⟨fun bounds cnt nplaces hcnt hplaces hend hroomy => ?_, fun extents nplaces hext hplaces hroomy => ?_⟩
  · refine (splits_cutAt (targetDim whichDim k) nplaces (partSize cnt nplaces) ?_ ?_).congr
      fun place hplace => (applyBox_is hcnt hplaces hend hroomy hplace).1
    · omega
    · have hmul : (cnt : ℤ) ≤ partSize cnt nplaces * nplaces := by exact_mod_cast partSize_mul hplaces
      omega
  have hshape : ∀ place < nplaces, (applyShape whichDim (fun d => (extents d : ℤ)) place nplaces).value = _ :=
    fun place hplace =>
      (applyShape_is (fun d => (hext d).1) hplaces (fun d => (hext d).2) hroomy hplace).1
  refine ⟨?_, fun hrank => ?_⟩
  · refine (splits_cutAt (targetDim whichDim k) nplaces
      (partSize (extents (targetDim whichDim k)) nplaces) ?_ ?_).congr hshape
    · exact Int.natCast_nonneg _
    · have hmul : (extents (targetDim whichDim k) : ℤ) ≤
          partSize (extents (targetDim whichDim k)) nplaces * nplaces := by exact_mod_cast partSize_mul hplaces
      rwa [zero_add]
  · refine agree_iff (fun d => (hext d).1) hplaces (fun d => ?_) hrank hshape
    have hplaces63 := (hroomy.sum_lt (hext _).1 hplaces).2.1
    have := (hext d).2
    omega

/-- Four rows of one element, and two places. -/
theorem views_agree_rows : Agree 0 (fun d : Fin 2 => if d = 0 then 4 else 1) 2
    (fun place => (applyShape 0 (fun d : Fin 2 => ((if d = 0 then 4 else 1 : ℕ) : ℤ)) place (2 : ℕ)).value) := by
  refine (((views_agree 0 1).2 (fun d : Fin 2 => if d = 0 then 4 else 1) 2 ?_ (by decide) ?_).2 (by decide)).mpr ?_
  · decide
  · exact ⟨by decide, by decide, by decide⟩
  · exact Or.inl (by decide)

/-- By default the last dimension is split.  If it has one element only, all elements are in the part of the first
place, but the executor of the last one is the second place.  And an end that is too large makes a part vanish: the last
element of the box is in no part. -/
theorem not_views_agree :
    (InBox (applyShape (-1) (fun d : Fin 2 => ((if d = 0 then 4 else 1 : ℕ) : ℤ)) 0 2).value
        (fun d => if d = 0 then 3 else 0) ∧
      (getExecutor (-1) (posOf fun d : Fin 2 => if d = 0 then 3 else 0)
        (dimsOf fun d : Fin 2 => if d = 0 then 4 else 1) 2).value = ⟨1, 0, 0, 0⟩) ∧
    ∀ place < 4, ¬ InBox (applyBox (-1) (fun _ : Fin 1 => (2 ^ 63 - 11, 2 ^ 63 - 1)) (place : ℕ) 4).value
      fun _ => 2 ^ 63 - 2 := by
  refine ⟨⟨?_, by decide⟩, ?_⟩
  · intro d
    revert d
    decide
  · intro place hplace hin
    have h := hin 0
    clear hin
    revert h
    revert place
    decide

end BlockedPartition

end Cccl.Places
