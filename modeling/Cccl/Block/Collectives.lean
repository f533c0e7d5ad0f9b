/-
# Collective operations of a thread block

The items of a tile are in a blocked arrangement: thread `tid` has the items `tid * ITEMS_PER_THREAD + ITEM`,
and these numbers are the positions in the tile here.  The threads of a block work together on them:
`BlockDiscontinuity` gives each item the one before it, which the thread before has if it is the first of its
thread, and `BlockScan` gives each item the fold of those before it, in their order.
-/
import Cccl.Lib.Fold
import Mathlib.Algebra.Ring.Nat
import Mathlib.Order.Basic

namespace Cccl.Block

variable {T : Type*}

/-! ## 1. `BlockDiscontinuity` -/

/-- `preds` of `BlockDiscontinuity::FlagHeads`: the first item of a thread is compared with what the thread
before stored in `last_items`, that of the first thread with the predecessor of the tile. -/
def predItem (itemsPerThread : ℕ) (input : ℕ → T) (tilePredecessorItem : T) (i : ℕ) : T :=
  if i % itemsPerThread = 0 then
    let linearTid := i / itemsPerThread
    if linearTid = 0 then tilePredecessorItem
    else input ((linearTid - 1) * itemsPerThread + (itemsPerThread - 1))
  else input (i - 1)

theorem predItem_zero (itemsPerThread : ℕ) (input : ℕ → T) (tilePredecessorItem : T) :
    predItem itemsPerThread input tilePredecessorItem 0 = tilePredecessorItem := by
  simp [predItem]

theorem predItem_succ {itemsPerThread : ℕ} (hpos : 0 < itemsPerThread) (input : ℕ → T)
    (tilePredecessorItem : T) (i : ℕ) :
    predItem itemsPerThread input tilePredecessorItem (i + 1) = input i := by
  unfold predItem
  split
  · rename_i hmod
    have hdiv := Nat.mod_add_div (i + 1) itemsPerThread
    obtain ⟨q, hq⟩ : ∃ q, (i + 1) / itemsPerThread = q + 1 :=
      Nat.exists_eq_succ_of_ne_zero fun hzero => by
        rw [hzero, Nat.mul_zero] at hdiv
        omega
    simp only [hq, Nat.succ_ne_zero, if_false, Nat.add_sub_cancel]
    rw [hq, Nat.mul_succ, Nat.mul_comm] at hdiv
    congr 1
    omega
  · rfl

/-- What `BlockDiscontinuity::FlagTails` compares an item with: the last item of a thread with what the next
thread stored in `first_items`, that of the last thread with the successor of the tile. -/
def succItem (blockThreads itemsPerThread : ℕ) (input : ℕ → T) (tileSuccessorItem : T) (i : ℕ) : T :=
  if i % itemsPerThread = itemsPerThread - 1 then
    let linearTid := i / itemsPerThread
    if linearTid = blockThreads - 1 then tileSuccessorItem else input ((linearTid + 1) * itemsPerThread)
  else input (i + 1)

theorem succItem_last {blockThreads itemsPerThread : ℕ} (hthreads : 0 < blockThreads)
    (hpos : 0 < itemsPerThread) (input : ℕ → T) (tileSuccessorItem : T) {i : ℕ}
    (hi : i + 1 = blockThreads * itemsPerThread) :
    succItem blockThreads itemsPerThread input tileSuccessorItem i = tileSuccessorItem := by
  obtain ⟨b, rfl⟩ := Nat.exists_eq_succ_of_ne_zero hthreads.ne'
  have hi' : i = itemsPerThread - 1 + itemsPerThread * b := by
    rw [Nat.succ_mul, Nat.mul_comm] at hi
    omega
  have hlt : itemsPerThread - 1 < itemsPerThread := Nat.sub_lt hpos Nat.one_pos
  have hmod : i % itemsPerThread = itemsPerThread - 1 := by
    rw [hi', Nat.add_mul_mod_self_left, Nat.mod_eq_of_lt hlt]
  have hdiv : i / itemsPerThread = b := by
    rw [hi', Nat.add_mul_div_left _ _ hpos, Nat.div_eq_of_lt hlt, Nat.zero_add]
  rw [succItem, if_pos hmod]
  simp only [hdiv, Nat.succ_eq_add_one, Nat.add_sub_cancel, if_true]

theorem succItem_of_lt {blockThreads itemsPerThread : ℕ} (hpos : 0 < itemsPerThread) (input : ℕ → T)
    (tileSuccessorItem : T) {i : ℕ} (hi : i + 1 < blockThreads * itemsPerThread) :
    succItem blockThreads itemsPerThread input tileSuccessorItem i = input (i + 1) := by
  unfold succItem
  split
  · rename_i hmod
    have hdiv := Nat.mod_add_div i itemsPerThread
    rw [hmod, Nat.mul_comm] at hdiv
    have hnext : (i / itemsPerThread + 1) * itemsPerThread = i + 1 := by
      rw [Nat.add_one_mul]
      omega
    have hne : i / itemsPerThread ≠ blockThreads - 1 := by
      intro heq
      rw [← hnext, heq] at hi
      have hle := Nat.mul_le_mul_right itemsPerThread (show blockThreads ≤ blockThreads - 1 + 1 by omega)
      omega
    simp only [if_neg hne, hnext]
  · rfl

/-- `InequalityWrapper`. -/
def inequality (equalityOp : T → T → Bool) (a b : T) : Bool := !equalityOp a b

/-- `GuardedInequalityWrapper`: the first item that is out of bounds is flagged, the others are not. -/
def guardedInequality (equalityOp : T → T → Bool) (numRemaining : ℕ) (a b : T) (idx : ℕ) : Bool :=
  if idx < numRemaining then !equalityOp a b else decide (idx = numRemaining)

/-! ## 2. `BlockScan` -/

/-- A prefix is put in front of what the scan found, if there is one. -/
def applyPrefix (scanOp : T → T → T) (initialValue : Option T) (v : T) : T :=
  initialValue.elim v fun p => scanOp p v

/-- `BlockScan::ExclusiveScan`: without an initial value the first item keeps what its register holds. -/
def exclusiveScan (scanOp : T → T → T) (initialValue : Option T) (unset : T) (input : ℕ → T) : ℕ → T
  | 0 => initialValue.getD unset
  | i + 1 => applyPrefix scanOp initialValue (fold1 scanOp input 0 i)

end Cccl.Block
