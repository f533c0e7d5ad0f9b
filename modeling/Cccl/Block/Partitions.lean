/-
# Partitions of the input

An input that is too long for one launch is given to the kernel in partitions.  All of them are whole numbers of
tiles, except that the last one need not be (`IsSplit`).  The dispatch makes them as large as it can
(`partitionSizes_isSplit`).
-/
import Mathlib.Data.List.Range
import Mathlib.Algebra.Ring.Nat

namespace Cccl.Block

/-- The sizes of partitions: all are multiples of the tile size, except that the last one need not be. -/
def IsSplit (tileItems : ℕ) : List ℕ → Prop
  | [] => False
  | [size] => 0 < size
  | size :: size' :: sizes => 0 < size ∧ tileItems ∣ size ∧ IsSplit tileItems (size' :: sizes)

variable {tileItems : ℕ}

theorem IsSplit.pos {size : ℕ} {sizes : List ℕ} (h : IsSplit tileItems (size :: sizes)) : 0 < size := by
  cases sizes with
  | nil => exact h
  | cons size' sizes => exact h.1

theorem IsSplit.sum_pos : ∀ {sizes : List ℕ}, IsSplit tileItems sizes → 0 < sizes.sum
  | size :: sizes, h => by
    rw [List.sum_cons]
    exact Nat.add_pos_left h.pos _

/-- The sizes of the partitions that a dispatch makes, all of `cappedNumItems` but the last. -/
def partitionSizes (numItems cappedNumItems : ℕ) : List ℕ :=
  let numPartitions := (numItems + (cappedNumItems - 1)) / cappedNumItems
  (List.range numPartitions).map fun partitionIdx =>
    if partitionIdx + 1 = numPartitions then numItems - partitionIdx * cappedNumItems else cappedNumItems

theorem isSplit_replicate {size cappedNumItems : ℕ} (hpos : 0 < cappedNumItems)
    (hdvd : tileItems ∣ cappedNumItems) (hsize : 0 < size) : ∀ p,
    IsSplit tileItems (List.replicate p cappedNumItems ++ [size])
  | 0 => hsize
  | 1 => ⟨hpos, hdvd, hsize⟩
  | p + 2 => ⟨hpos, hdvd, isSplit_replicate hpos hdvd hsize (p + 1)⟩

theorem partitionSizes_isSplit {numItems cappedNumItems : ℕ} (hn : 0 < numItems) (hpos : 0 < cappedNumItems)
    (hdvd : tileItems ∣ cappedNumItems) :
    IsSplit tileItems (partitionSizes numItems cappedNumItems) ∧
      (partitionSizes numItems cappedNumItems).sum = numItems := by
  obtain ⟨p, hp⟩ : ∃ p, (numItems + (cappedNumItems - 1)) / cappedNumItems = p + 1 :=
    Nat.exists_eq_succ_of_ne_zero (Nat.div_pos (by omega) hpos).ne'
  have hdiv := Nat.div_add_mod (numItems + (cappedNumItems - 1)) cappedNumItems
  have hmod := Nat.mod_lt (numItems + (cappedNumItems - 1)) hpos
  rw [hp, Nat.mul_succ, Nat.mul_comm] at hdiv
  have hsizes : partitionSizes numItems cappedNumItems =
      List.replicate p cappedNumItems ++ [numItems - p * cappedNumItems] := by
    simp only [partitionSizes, hp, List.range_succ, List.map_append, List.map_singleton, if_true]
    congr 1
    rw [List.map_congr_left fun i hi => if_neg (by have := List.mem_range.mp hi; omega), List.map_const',
      List.length_range]
  rw [hsizes]
  refine ⟨isSplit_replicate hpos hdvd (by omega) p, ?_⟩
  rw [List.sum_append, List.sum_replicate_nat, List.sum_singleton]
  omega

end Cccl.Block
