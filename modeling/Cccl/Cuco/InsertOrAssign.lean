/-
# Concurrent assignments, step by step

`__insert_or_assign` and `__attempt_insert_or_assign` of `fixed_capacity_map_ref.cuh`.

In a container with an erased key a call looks for its key first, past erased slots; if it finds the
key it stores the payload there.  Otherwise it searches from the beginning for the key or a free slot,
and tries to put its key into a free slot, expecting the empty key there and then, if that is what it
has met, the erased key.  Whoever has put the key into the slot, it then stores the payload.

The steps of all calls may be interleaved in any order.
-/
import Cccl.Cuco.Insert

namespace Cccl.Cuco

variable {K V : Type*} [DecidableEq K]

/-! ## 1. Calls -/

namespace MapRef

variable (R : MapRef K V)

/-- The arguments of a call: a key that is not a sentinel, and any payload. -/
structure AssignCall where
  key : K
  payload : V
  form : Form
  key_ne_empty : key ≠ R.emptyKey
  key_ne_erased : key ≠ R.erasedKey
  cgSize_eq : form = .scalar → R.cgSize = 1

end MapRef

/-- Where a call stands: its lanes look for the key; they look for the key or a free slot; it is about
to exchange the key of a slot, expecting the empty key, or the erased key; it is about to store its
payload into a slot; it has returned, having stored it there or nowhere. -/
inductive AssignPc (K V : Type*) where
  | find (j : ℕ) (lanes : ℕ → Lane K V)
  | probe (j : ℕ) (lanes : ℕ → Lane K V)
  | casEmpty (j rank i : ℕ)
  | casErased (j rank i : ℕ)
  | assign (slot : ℕ)
  | done (slot : Option ℕ)

namespace MapRef

variable {R : MapRef K V}

/-- Every lane is at the beginning of its bucket. -/
def freshLanes : ℕ → Lane K V := fun _ => .scanning 0

/-- The result of `find` decides: the key is assigned to, or searched for again. -/
def afterFind (c : R.AssignCall) (j : ℕ) (lanes : ℕ → Lane K V) : AssignPc K V :=
  match firstLane R.cgSize lanes .equal with
  | some (rank, i, _) => .assign (R.slotAt c.key j rank i)
  | none =>
    if (firstLane R.cgSize lanes .empty).isSome then .probe 0 freshLanes
    else if R.iterAt c.key 0 (j + 1) = R.iterAt c.key 0 0 then .probe 0 freshLanes
    else .find (j + 1) freshLanes

/-- All lanes have finished with a window of the second search. -/
def afterProbe (c : R.AssignCall) (j : ℕ) (lanes : ℕ → Lane K V) : AssignPc K V :=
  match firstLane R.cgSize lanes .equal with
  | some (rank, i, _) => .assign (R.slotAt c.key j rank i)
  | none =>
    match firstLane R.cgSize lanes .available with
    | some (rank, i, _) => .casEmpty j rank i
    | none =>
      if R.iterAt c.key 0 (j + 1) = R.iterAt c.key 0 0 then .done none
      else .probe (j + 1) freshLanes

/-- The exchange of a key has failed, this being the key of the slot. -/
def afterLost (c : R.AssignCall) (j rank i : ℕ) (actual : K) : AssignPc K V :=
  if R.lookupPredicate c.key actual = .equal then .assign (R.slotAt c.key j rank i)
  else
    match c.form with
    | .scalar => .probe j fun _ => .scanning (i + 1)
    | .group => .probe j freshLanes

/-- One step of a call. -/
def assignCallStep (c : R.AssignCall) (slots : Slots K V) : AssignPc K V → Move →
    Option (Slots K V × AssignPc K V)
  | .find j lanes, .read rank =>
    if rank < R.cgSize then
      ((lanes rank).read (R.lookupPredicate c.key) (fun i => slots (R.slotAt c.key j rank i))
        R.bucketSize).map fun lane => (slots, .find j (Function.update lanes rank lane))
    else none
  | .find j lanes, .go =>
    if (List.range R.cgSize).all fun rank => (lanes rank).isFinished R.bucketSize then
      some (slots, afterFind c j lanes)
    else none
  | .probe j lanes, .read rank =>
    if rank < R.cgSize then
      ((lanes rank).read (R.insertPredicate c.key) (fun i => slots (R.slotAt c.key j rank i))
        R.bucketSize).map fun lane => (slots, .probe j (Function.update lanes rank lane))
    else none
  | .probe j lanes, .go =>
    if (List.range R.cgSize).all fun rank => (lanes rank).isFinished R.bucketSize then
      some (slots, afterProbe c j lanes)
    else none
  | .casEmpty j rank i, .go =>
    let slot := R.slotAt c.key j rank i
    if (slots slot).1 = R.emptyKey then
      some (Function.update slots slot (c.key, (slots slot).2), .assign slot)
    else if R.supportsErase ∧ (slots slot).1 = R.erasedKey then some (slots, .casErased j rank i)
    else some (slots, afterLost c j rank i (slots slot).1)
  | .casErased j rank i, .go =>
    let slot := R.slotAt c.key j rank i
    if (slots slot).1 = R.erasedKey then
      some (Function.update slots slot (c.key, (slots slot).2), .assign slot)
    else some (slots, afterLost c j rank i (slots slot).1)
  | .assign slot, .go =>
    some (Function.update slots slot ((slots slot).1, c.payload), .done (some slot))
  | _, _ => none

end MapRef

/-! ## 2. Runs -/

/-- The table, and where each call stands. -/
structure AssignState (K V ι : Type*) where
  slots : Slots K V
  pc : ι → AssignPc K V

section Runs

variable {ι : Type*} [DecidableEq ι] {R : MapRef K V} (calls : ι → R.AssignCall)

/-- One step of one call. -/
def assignStep (s : AssignState K V ι) (c : ι) (m : Move) : Option (AssignState K V ι) :=
  (MapRef.assignCallStep (calls c) s.slots (s.pc c) m).map fun r =>
    ⟨r.1, Function.update s.pc c r.2⟩

/-- A call begins with `find` only where slots can be erased. -/
def assignInit (R : MapRef K V) (slots : Slots K V) : AssignState K V ι :=
  ⟨slots, fun _ => if R.supportsErase then .find 0 MapRef.freshLanes
    else .probe 0 MapRef.freshLanes⟩

/-- The runs of concurrent calls, in any order of their steps. -/
def assignRuns (slots : Slots K V) : Lts (AssignState K V ι) (ι × Move) where
  init s := s = assignInit R slots
  step s a s' := assignStep calls s a.1 a.2 = some s'

end Runs

end Cccl.Cuco
