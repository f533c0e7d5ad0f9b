/-
# `WarpExchange::ScatterToStriped`

The items of a warp are stored in shared memory at their ranks, and are read back so that lane `lane` gets the
items at the places `ITEM * 32 + lane`.  With some numbers of items per thread the ranks are padded, to avoid
bank conflicts.  The ranks are passed by reference: the caller gets them back padded.

A store behind the end of the shared memory of the warp has no result.
-/
import Cccl.Lib.Exchange
import Cccl.Scan.WarpReduce

namespace Cccl.Block

open Exchange Scan

variable {α : Type*}

def insertPadding (itemsPerThread : ℕ) : Bool :=
  decide (4 < itemsPerThread) && decide (2 ^ Nat.log2 itemsPerThread = itemsPerThread)

/-- A place with the padding that is in front of it; there are 32 banks. -/
def padded (itemsPerThread i : ℕ) : ℕ := if insertPadding itemsPerThread then i / 2 ^ 5 + i else i

def warpItems (itemsPerThread : ℕ) : ℕ := warpThreads * itemsPerThread

def itemsPerTile (itemsPerThread : ℕ) : ℕ := itemsPerThread * warpThreads + 1

/-- The length of `items_shared`. -/
def itemsShared (itemsPerThread : ℕ) : ℕ :=
  itemsPerTile itemsPerThread +
    if insertPadding itemsPerThread then itemsPerTile itemsPerThread / 2 ^ 5 else 0

/-- `ScatterToStriped`: the ranks as they are left, and what is read back for each place. -/
def scatterToStriped (itemsPerThread : ℕ) (items : ℕ → α) (ranks : ℕ → ℕ) :
    Option ((ℕ → ℕ) × (ℕ → Option α)) :=
  let ranks' i := padded itemsPerThread (ranks i)
  let shared := store ((List.range (warpItems itemsPerThread)).map fun i => (ranks' i, items i))
  if ∀ i < warpItems itemsPerThread, ranks' i < itemsShared itemsPerThread then
    some (ranks', fun place => shared (padded itemsPerThread place))
  else none

theorem padded_strictMono (itemsPerThread : ℕ) {i j : ℕ} (h : i < j) :
    padded itemsPerThread i < padded itemsPerThread j := by
  unfold padded
  split
  · have := Nat.div_le_div_right (c := 2 ^ 5) h.le
    omega
  · exact h

theorem padded_inj (itemsPerThread : ℕ) {i j : ℕ} (h : padded itemsPerThread i = padded itemsPerThread j) :
    i = j := by
  rcases Nat.lt_trichotomy i j with hlt | heq | hgt
  · exact absurd h (padded_strictMono itemsPerThread hlt).ne
  · exact heq
  · exact absurd h (padded_strictMono itemsPerThread hgt).ne'

/-- There is a place for each item of the warp, and one more for those that are discarded. -/
theorem padded_lt {itemsPerThread i : ℕ} (h : i ≤ warpItems itemsPerThread) :
    padded itemsPerThread i < itemsShared itemsPerThread := by
  have hmul : warpItems itemsPerThread = itemsPerThread * warpThreads := Nat.mul_comm _ _
  unfold padded itemsShared itemsPerTile
  split
  · have := Nat.div_le_div_right (c := 2 ^ 5) (h.trans hmul.le)
    have := Nat.div_le_div_right (c := 2 ^ 5) (Nat.le_succ (itemsPerThread * warpThreads))
    omega
  · omega

/-- **Padded twice, the place of the discarded items is behind the end.** -/
theorem itemsShared_le_padded {itemsPerThread : ℕ} (h : insertPadding itemsPerThread = true) :
    itemsShared itemsPerThread ≤
      padded itemsPerThread (padded itemsPerThread (warpItems itemsPerThread)) := by
  have hpos : 0 < itemsPerThread := by
    rw [insertPadding, Bool.and_eq_true, decide_eq_true_eq] at h
    omega
  unfold padded itemsShared itemsPerTile warpItems warpThreads
  simp only [h, if_true]
  omega

/-- **Ranks that are not padded yet find their places.** -/
theorem scatterToStriped_eq {itemsPerThread : ℕ} (items : ℕ → α) {ranks : ℕ → ℕ}
    (h : ∀ i < warpItems itemsPerThread, ranks i ≤ warpItems itemsPerThread) :
    scatterToStriped itemsPerThread items ranks =
      some (fun i => padded itemsPerThread (ranks i), fun place =>
        store ((List.range (warpItems itemsPerThread)).map fun i =>
          (padded itemsPerThread (ranks i), items i)) (padded itemsPerThread place)) :=
  if_pos fun i hi => padded_lt (h i hi)

end Cccl.Block
