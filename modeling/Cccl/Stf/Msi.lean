/-
# The coherency protocol

`enforce_msi_protocol`, `reclaim_update_state`, `do_reclaim` and `adopt_shared_instance`
(`logical_data.cuh`), with the branches of the first as functions of their own.

Each function returns the table it leaves, the events the caller has to wait for, and the copies
it issued.  A copy is an asynchronous operation: it waits for the events it is submitted with and
leaves in their place the events of its own completion, which are given from outside (`copyDone`),
since it is the backend that records them.  Where the source fails an assertion or aborts there is
no result.
-/
import Cccl.Stf.Instance

namespace Cccl.Stf

variable {E : Type*}

/-- A copy between two instances, as it was submitted. -/
structure Copy (E : Type*) where
  dst : ℕ
  src : ℕ
  waits : List E
  done : List E

/-- What a step of the protocol leaves behind. -/
structure Update (E : Type*) where
  data : LogicalData E
  prereqs : List E
  copies : List (Copy E)

/-- The modes of an access that leaves no reduction pending. -/
def AccessMode.IsPlain (mode : AccessMode) : Prop :=
  mode ≠ .none ∧ mode ≠ .relaxed

instance (mode : AccessMode) : Decidable mode.IsPlain :=
  inferInstanceAs (Decidable (_ ∧ _))

namespace LogicalData

/-! ## 1. `enforce_msi_protocol` -/

section Enforce

variable [LinearOrder E] (B : EventBackend E) (copyDone : List E)

/-- Reading an invalid instance: copy from a valid one, after which all valid ones are shared. -/
def readInvalid (id src : ℕ) (prereqs : List E) (d : LogicalData E) : Update E :=
  let waits := (d.inst src).readPrereq ++ (d.inst id).readPrereq ++ (d.inst id).writePrereq
    ++ prereqs
  -- the source keeps its prerequisites: there can be concurrent copies and reads of it
  let d := d.modify src fun n => n.addWritePrereq B copyDone
  let d := d.modify id fun n =>
    { n with readPrereq := copyDone, writePrereq := [], msir := .shared }
  { data := d.modifyAll fun _ n => { n with msir := if n.msir ≠ .invalid then .shared else n.msir }
    prereqs := prereqs ++ copyDone
    copies := [⟨id, src, waits, copyDone⟩] }

/-- Writing a shared instance: the others become invalid and forget their prerequisites. -/
def writeShared (id : ℕ) (prereqs : List E) (d : LogicalData E) : Update E :=
  { data := d.modifyAll fun i n =>
      if i ≠ id then { n with msir := .invalid, readPrereq := [], writePrereq := [] }
      else { n with msir := .modified }
    prereqs := prereqs ++ (d.inst id).readPrereq ++ (d.inst id).writePrereq
    copies := [] }

/-- Writing an invalid instance, with a copy from `src` first where the old contents are needed.
The others become invalid; they keep their write prerequisites, and the source its read ones. -/
def writeInvalid (id : ℕ) (src : Option ℕ) (prereqs : List E) (d : LogicalData E) : Update E :=
  let clear (d : LogicalData E) : LogicalData E := d.modifyAll fun i n =>
    { n with
      readPrereq := if i ≠ id ∧ some i ≠ src then [] else n.readPrereq
      msir := if i = id then .modified else .invalid }
  match src with
  | some s =>
    let waits := (d.inst s).readPrereq ++ (d.inst id).readPrereq ++ (d.inst id).writePrereq
      ++ prereqs
    let d := d.modify s fun n => { n with readPrereq := copyDone }
    let d := d.modify id fun n => { n with readPrereq := copyDone }
    ⟨clear d, prereqs ++ copyDone, [⟨id, s, waits, copyDone⟩]⟩
  | none => ⟨clear d, prereqs, []⟩

def enforceMsiProtocol (id : ℕ) (mode : AccessMode) (prereqs : List E) (d : LogicalData E) :
    Option (Update E) :=
  match mode with
  | .read =>
    match (d.inst id).msir with
    | .modified => some ⟨d, prereqs ++ (d.inst id).readPrereq, []⟩
    | .shared => some ⟨d, prereqs ++ (d.inst id).readPrereq, []⟩
    | .invalid => d.findSourceInstanceId.map fun src => d.readInvalid B copyDone id src prereqs
    | .reduction => some ⟨d.modifyAll fun i n =>
        { n with msir := if i = id then .modified else .invalid }, prereqs, []⟩
  | .rw | .write | .reduceNoInit | .reduce =>
    match (d.inst id).msir with
    | .modified =>
      some ⟨d, prereqs ++ (d.inst id).readPrereq ++ (d.inst id).writePrereq, []⟩
    | .shared => some (d.writeShared id prereqs)
    | .invalid =>
      -- do not find a source if this is write only
      if mode = .rw ∨ mode = .reduceNoInit then
        d.findSourceInstanceId.map fun src => d.writeInvalid copyDone id (some src) prereqs
      else some (d.writeInvalid copyDone id none prereqs)
    | .reduction => none
  | .relaxed => some ⟨d.modify id fun n => { n with msir := .reduction }, prereqs, []⟩
  | .none => none

end Enforce

/-- **All that `enforce_msi_protocol` can do**, on a table where the accessed instance takes part
in no reduction. -/
theorem enforceMsiProtocol_cases [LinearOrder E] {B : EventBackend E} {copyDone prereqs : List E}
    {id : ℕ} {mode : AccessMode} {d : LogicalData E} {u : Update E} (hmode : mode.IsPlain)
    (hredux : (d.inst id).msir ≠ .reduction)
    (h : d.enforceMsiProtocol B copyDone id mode prereqs = some u) :
    (mode = .read ∧ (d.inst id).msir ≠ .invalid ∧ u = ⟨d, prereqs ++ (d.inst id).readPrereq, []⟩) ∨
    (∃ src, mode = .read ∧ (d.inst id).msir = .invalid ∧ d.findSourceInstanceId = some src ∧
      u = d.readInvalid B copyDone id src prereqs) ∨
    (mode ≠ .read ∧ (d.inst id).msir = .modified ∧
      u = ⟨d, prereqs ++ (d.inst id).readPrereq ++ (d.inst id).writePrereq, []⟩) ∨
    (mode ≠ .read ∧ (d.inst id).msir = .shared ∧ u = d.writeShared id prereqs) ∨
    (∃ src, (mode = .rw ∨ mode = .reduceNoInit) ∧ (d.inst id).msir = .invalid ∧
      d.findSourceInstanceId = some src ∧ u = d.writeInvalid copyDone id (some src) prereqs) ∨
    ((mode = .write ∨ mode = .reduce) ∧ (d.inst id).msir = .invalid ∧
      u = d.writeInvalid copyDone id none prereqs) := by
  obtain ⟨hnone, hrelaxed⟩ := hmode
  cases hm : (d.inst id).msir with
  | reduction => exact absurd hm hredux
  | modified | shared => cases mode <;> simp_all [enforceMsiProtocol]
  | invalid =>
    cases mode <;> simp_all [enforceMsiProtocol] <;> tauto

/-! ## 2. Reclaiming an instance -/

/-- `get_pending_done_prereqs`: all pending tasks accessing this piece of data. -/
def getPendingDonePrereqs (st : LogicalDataState E) : List E :=
  if st.currentMode = .write then
    match st.currentWriter with
    | some w => w.donePrereqs
    | none => []
  else
    match st.previousWriter with
    | some w => st.currentReaders.donePrereqs ++ w.donePrereqs
    | none => st.currentReaders.donePrereqs

section Reclaim

variable [LinearOrder E] (B : EventBackend E) (copyDone : List E)

/-- The number of instances that are not invalid. -/
def copyCount (d : LogicalData E) : ℕ :=
  (List.range d.count).countP fun i => (d.inst i).msir ≠ .invalid

/-- Reclaiming a modified instance: slot 0 becomes the only valid copy, by a write-back into the
reference instance.  `write_back` asserts that there is a reference instance. -/
def reclaimModified (id : ℕ) (prereqs : List E) (d : LogicalData E) : Option (Update E) :=
  match d.referenceInstanceId with
  | none => none
  | some ref =>
    let waits := prereqs ++ (d.inst 0).readPrereq ++ (d.inst id).readPrereq
    let d := d.modify 0 fun n => { n with msir := .modified }
    let d := d.modify id fun n => { n with msir := .invalid }
    let d := d.modify 0 fun n => n.addReadPrereq B copyDone
    let d := d.modify id fun n => n.addReadPrereq B copyDone
    some ⟨d, copyDone, [⟨ref, id, waits, copyDone⟩]⟩

/-- Reclaiming a shared instance: of two copies the other one is now modified, of more the others
stay shared. -/
def reclaimShared (id : ℕ) (prereqs : List E) (d : LogicalData E) : Update E :=
  let newState : MsirStateId := if d.copyCount = 2 then .modified else .shared
  let d := d.modify id fun n => { n.addReadPrereq B prereqs with msir := .invalid }
  { data := d.modifyAll fun _ n => { n with msir := if n.msir ≠ .invalid then newState else n.msir }
    prereqs := prereqs
    copies := [] }

def reclaimUpdateState (id : ℕ) (prereqs : List E) (d : LogicalData E) : Option (Update E) :=
  match (d.inst id).msir with
  | .invalid => some ⟨d.modify id fun n => n.addReadPrereq B prereqs, prereqs, []⟩
  | .modified => d.reclaimModified B copyDone id prereqs
  | .shared => some (d.reclaimShared B id prereqs)
  -- corrupt MSIR state value
  | .reduction => none

/-- `do_reclaim`: update the states, free the memory and give the slot back. -/
def doReclaim (id : ℕ) (d : LogicalData E) : Option (Update E) :=
  match d.reclaimUpdateState B copyDone id (getPendingDonePrereqs d.state) with
  | none => none
  | some u =>
    -- release_instance_id asserts that the slot is in use
    if (u.data.inst id).used then
      some { u with data := u.data.modify id fun n => { n with allocated := false, used := false } }
    else none

end Reclaim

/-! ## 3. Allocation and adoption -/

/-- A successful `dep_allocate`: an instance without memory gets some, and what it still has to
wait for goes to the caller. -/
def depAllocate (id size : ℕ) (prereqs : List E) (d : LogicalData E) :
    LogicalData E × List E :=
  if (d.inst id).allocated then (d, prereqs)
  else (d.modify id fun n => { n with allocatedSize := size, allocated := true, reclaimable := true },
    prereqs ++ (d.inst id).readPrereq ++ (d.inst id).writePrereq)

/-- `adopt_shared_instance`: register an instance the library does not own as a shared copy, and
downgrade the reference instance.  The slot it is registered at comes with the result. -/
def adoptSharedInstance [LinearOrder E] (B : EventBackend E) (startEvents : List E)
    (place : DataPlace) (d : LogicalData E) : Option (ℕ × LogicalData E) :=
  let (id, d) := d.findInstanceId place
  let d := d.modify id fun n =>
    { n with
      msir := .shared, allocated := true, reclaimable := false
      readPrereq := if startEvents = [] then n.readPrereq
        else DataInstance.mergePrereq B n.readPrereq startEvents }
  match d.referenceInstanceId with
  | none => none
  | some ref => some (id, d.modify ref fun n =>
      { n with msir := if n.msir = .modified then .shared else n.msir })

end LogicalData

end Cccl.Stf
