/-
# Labelled transition systems and their reachable states

The developments over CUB's look-back scan and over the task-flow runtime of cudax all
speak of a program as a set of states, some of them initial, and a relation saying which
atomic step leads from one state to another.  What is proved of such a program is proved of
every state it can reach, in whatever order its parties take their steps.

This module holds the one rule those proofs share: a property that holds initially and is
kept by every step holds of every reachable state (`Reachable.invariant`).
-/
import Mathlib.Logic.Relation

namespace Cccl

/-- A labelled transition system: which states are initial, and which steps there are. -/
structure Lts (σ α : Type*) where
  /-- The states a run may start from. -/
  init : σ → Prop
  /-- `step s a s'`: the action `a` may lead from `s` to `s'`. -/
  step : σ → α → σ → Prop

namespace Lts

variable {σ α : Type*} {M : Lts σ α}

/-- The states some finite run of the system ends in. -/
inductive Reachable (M : Lts σ α) : σ → Prop
  | init {s : σ} : M.init s → Reachable M s
  | step {s s' : σ} {a : α} : Reachable M s → M.step s a s' → Reachable M s'

/-- **The invariant rule.**  What holds initially and survives every step taken from a state
in which it holds is true in every reachable state. -/
theorem Reachable.invariant {P : σ → Prop} (hinit : ∀ s, M.init s → P s)
    (hstep : ∀ s a s', P s → M.step s a s' → P s') {s : σ} (h : M.Reachable s) : P s := by
  induction h with
  | init hs => exact hinit _ hs
  | step _ hst ih => exact hstep _ _ _ ih hst

end Lts

end Cccl
