/-
# Concurrent insertions, step by step

`insert` and `insert_and_find` of `open_addressing_ref_impl.cuh`, with `packed_cas`,
`back_to_back_cas`, `cas_dependent_write` and `__wait_for_payload`.

A call looks at one window of slots after the other.  Its lanes read the slots of their buckets, each
read being a step, and a lane stops at a slot that holds the key or no key.  Then the call returns, if
a lane has found the key, or goes on to the next window, if none has stopped, or tries to claim the
slot of the first lane that has found a free one.  A claim is one step if key and payload are exchanged
together, and several if one after the other.

Four things are not alike.  A thread without a group goes on with the next slot after a failed claim,
and a group scans the window again.  `insert_and_find` claims a slot if it is still as it was when it
was read; the `insert` of a group if it is empty; and the `insert` of a single thread reads the slot a
second time, and claims it if it is still as it was at that time.
-/
import Cccl.Lib.Transition
import Cccl.Cuco.Claim

namespace Cccl.Cuco

variable {K V : Type*}

/-! ## 1. Compare and swap -/

/-- `enum class __insert_result`. -/
inductive InsertResult where
  | continue_
  | success
  | duplicate
  deriving DecidableEq

/-- The three ways to claim a slot. -/
inductive Cas where
  | packed
  | backToBack
  | dependentWrite
  deriving DecidableEq

/-- What decides between them: whether a slot can be exchanged as a whole, and the architecture. -/
structure Storage where
  isPackedCasAligned : Bool
  isBelowSm70 : Bool

/-- `insert` and `insert_and_find`. -/
inductive Op where
  | insert
  | insertAndFind
  deriving DecidableEq

/-- `__attempt_insert` and `__attempt_insert_stable`. -/
def Op.cas : Op → Storage → Cas
  | .insert, storage =>
    if storage.isPackedCasAligned then .packed
    else if storage.isBelowSm70 then .dependentWrite
    else .backToBack
  | .insertAndFind, storage =>
    if storage.isPackedCasAligned then .packed else .dependentWrite

/-- Where a claim stands: nothing is done yet; the key has been exchanged or not, and was this;
the key has been exchanged and the payload not yet; it has been the other way round; the payload is
to be stored. -/
inductive CasPc (K : Type*) where
  | start
  | payloadCas (keyCasSuccess : Bool) (actual : K)
  | spin
  | retract (actual : K)
  | storePayload

/-- The key of the slot has been exchanged for that of the call. -/
def CasPc.won : CasPc K → Prop
  | payloadCas keyCasSuccess _ => keyCasSuccess = true
  | spin => True
  | storePayload => True
  | _ => False

variable [DecidableEq K] [DecidableEq V]

namespace MapRef

variable (R : MapRef K V)

/-- What a claim that has found another key in the slot comes to. -/
def lostTo (desired actual : K) : InsertResult :=
  if R.equalTo desired actual = .equal then .duplicate else .continue_

/-- One step of `packed_cas`, `back_to_back_cas` and `cas_dependent_write`: the new contents of the
slot, and where the claim stands or what it comes to. -/
def casStep (cas : Cas) (expected desired : K × V) (pc : CasPc K) (slot : K × V) :
    (K × V) × (CasPc K ⊕ InsertResult) :=
  match pc with
  | .start =>
    match cas with
    | .packed =>
      if slot = expected then (desired, .inr .success)
      else (slot, .inr (R.lostTo desired.1 slot.1))
    | .backToBack =>
      if slot.1 = expected.1 then ((desired.1, slot.2), .inl (.payloadCas true slot.1))
      else (slot, .inl (.payloadCas false slot.1))
    | .dependentWrite =>
      if slot.1 = expected.1 then ((desired.1, slot.2), .inl .storePayload)
      else (slot, .inr (R.lostTo desired.1 slot.1))
  | .payloadCas keyCasSuccess actual =>
    if slot.2 = R.emptyValue then
      ((slot.1, desired.2), if keyCasSuccess then .inr .success else .inl (.retract actual))
    else (slot, if keyCasSuccess then .inl .spin else .inr (R.lostTo desired.1 actual))
  | .spin =>
    if slot.2 = R.emptyValue then ((slot.1, desired.2), .inr .success) else (slot, .inl .spin)
  | .retract actual => ((slot.1, R.emptyValue), .inr (R.lostTo desired.1 actual))
  | .storePayload => ((slot.1, desired.2), .inr .success)

/-! ## 2. Calls -/

/-- The arguments of a call: a key and a payload that are not the sentinels.  A thread calls without a
group only if that is what the probing scheme is for. -/
structure Call where
  key : K
  payload : V
  form : Form
  key_ne_empty : key ≠ R.emptyKey
  key_ne_erased : key ≠ R.erasedKey
  payload_ne_empty : payload ≠ R.emptyValue
  cgSize_eq : form = .scalar → R.cgSize = 1

end MapRef

/-- Where a call stands: its lanes scan the window `j`; it is about to read again the slot `i` that
its only lane has stopped at; it claims a slot, expecting this in it; it waits for the payload of a
slot; it has returned the slot, or none, and whether it has inserted the key.  `insert` returns only
the latter. -/
inductive InsertPc (K V : Type*) where
  | probe (j : ℕ) (lanes : ℕ → Lane K V)
  | copy (j i : ℕ)
  | attempt (j rank i : ℕ) (expected : K × V) (pc : CasPc K)
  | wait (slot : ℕ) (inserted : Bool)
  | done (slot : Option ℕ) (inserted : Bool)

/-- A lane reads a slot, or the call takes its next step. -/
inductive Move where
  | read (rank : ℕ)
  | go

namespace MapRef

variable {R : MapRef K V} (op : Op) (storage : Storage)

/-- The call has found the key, or inserted it, and returns or waits for the payload. -/
def settle (slot : ℕ) (inserted : Bool) : InsertPc K V :=
  match op with
  | .insert => .done (some slot) inserted
  | .insertAndFind => .wait slot inserted

/-- What follows when all lanes have finished with the window. -/
def ballot (c : R.Call) (j : ℕ) (lanes : ℕ → Lane K V) : InsertPc K V :=
  match firstLane R.cgSize lanes .equal with
  | some (rank, i, _) => settle op (R.slotAt c.key j rank i) false
  | none =>
    match firstLane R.cgSize lanes .available with
    | some (rank, i, seen) =>
      match op, c.form with
      | .insert, .scalar => .copy j i
      | .insert, .group => .attempt j rank i R.emptySlot .start
      | .insertAndFind, _ => .attempt j rank i seen .start
    | none =>
      if R.iterAt c.key 0 (j + 1) = R.iterAt c.key 0 0 then .done none false
      else .probe (j + 1) fun _ => .scanning 0

/-- What follows when the claim of a slot is over. -/
def afterAttempt (c : R.Call) (j rank i : ℕ) : InsertResult → InsertPc K V
  | .success => settle op (R.slotAt c.key j rank i) true
  | .duplicate => settle op (R.slotAt c.key j rank i) false
  | .continue_ =>
    match c.form with
    | .scalar => .probe j fun _ => .scanning (i + 1)
    | .group => .probe j fun _ => .scanning 0

/-- `__maybe_wait_for_payload`: whether the payload is written after the key. -/
def waitsForPayload : Bool := !storage.isPackedCasAligned

/-- One step of a call. -/
def callStep (c : R.Call) (slots : Slots K V) : InsertPc K V → Move →
    Option (Slots K V × InsertPc K V)
  | .probe j lanes, .read rank =>
    if rank < R.cgSize then
      ((lanes rank).read (R.insertPredicate c.key) (fun i => slots (R.slotAt c.key j rank i))
        R.bucketSize).map fun lane => (slots, .probe j (Function.update lanes rank lane))
    else none
  | .probe j lanes, .go =>
    if (List.range R.cgSize).all fun rank => (lanes rank).isFinished R.bucketSize then
      some (slots, ballot op c j lanes)
    else none
  | .copy j i, .go => some (slots, .attempt j 0 i (slots (R.slotAt c.key j 0 i)) .start)
  | .attempt j rank i expected pc, .go =>
    let slot := R.slotAt c.key j rank i
    let r := R.casStep (op.cas storage) expected (c.key, c.payload) pc (slots slot)
    some (Function.update slots slot r.1,
      match r.2 with
      | .inl pc' => .attempt j rank i expected pc'
      | .inr result => afterAttempt op c j rank i result)
  | .wait slot inserted, .go =>
    some (slots, if waitsForPayload storage ∧ (slots slot).2 = R.emptyValue
      then .wait slot inserted else .done (some slot) inserted)
  | _, _ => none

end MapRef

/-! ## 3. Runs -/

/-- The table, and where each call stands. -/
structure InsertState (K V ι : Type*) where
  slots : Slots K V
  pc : ι → InsertPc K V

section Runs

variable {ι : Type*} [DecidableEq ι] {R : MapRef K V} (op : Op) (storage : Storage)
  (calls : ι → R.Call)

/-- One step of one call. -/
def insertStep (s : InsertState K V ι) (c : ι) (m : Move) : Option (InsertState K V ι) :=
  (MapRef.callStep op storage (calls c) s.slots (s.pc c) m).map fun r =>
    ⟨r.1, Function.update s.pc c r.2⟩

/-- The calls begin together on a table. -/
def insertInit (slots : Slots K V) : InsertState K V ι :=
  ⟨slots, fun _ => .probe 0 fun _ => .scanning 0⟩

/-- The runs of concurrent calls, in any order of their steps. -/
def insertRuns (slots : Slots K V) : Lts (InsertState K V ι) (ι × Move) where
  init s := s = insertInit slots
  step s a s' := insertStep op storage calls s a.1 a.2 = some s'

/-- Where the second read of a slot by a single thread would be the next step of a call, the slot is
still empty. -/
def CopiesEmpty (s : InsertState K V ι) (c : ι) : Prop :=
  ∀ j i, s.pc c = .copy j i → (s.slots (R.slotAt (calls c).key j 0 i)).1 = R.emptyKey

/-- The runs in which no slot is taken between the two reads of it by a single thread. -/
def undisturbedRuns (slots : Slots K V) : Lts (InsertState K V ι) (ι × Move) where
  init s := s = insertInit slots
  step s a s' := insertStep op storage calls s a.1 a.2 = some s' ∧ CopiesEmpty calls s a.1

end Runs

end Cccl.Cuco
