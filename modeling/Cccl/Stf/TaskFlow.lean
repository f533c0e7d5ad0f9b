/-
# The life of a task on a logical data

`fetch_data` (`logical_data.cuh`) and `task::release` (`acquire_release.cuh`), for tasks that access
one logical data, with `do_reclaim` in between.

A task looks up the instance at its data place, waits for what the dependency record and the
instance lists tell it to, and is entered in both when it is released.  Acquiring may issue a copy,
and so may reclaiming; task bodies and copies are the operations, each touching the memory of one or
two instances.  Memory that is freed and allocated again is another buffer, so a buffer is a slot
with the number of allocations the slot has seen.

Two operations on one buffer race unless both only read it or the first happens before the second.
Ordering is kept in two places: the record orders tasks, and the lists of an instance remember who
is still using its buffer.  `enforce_msi_protocol` clears lists, and sometimes does not look at
them; `OrderKept` says that what it forgets or skips there is ordered anyway.
-/
import Cccl.Lib.Transition
import Cccl.Stf.Msi

namespace Cccl.Stf

variable {E : Type*}

/-! ## 1. Acquire and release -/

section Acquire

variable [LinearOrder E] (B : EventBackend E)

/-- `fetch_data`: enforce the task dependencies, allocate, and enforce the protocol. -/
def fetchData (copyDone : List E) (id size : ℕ) (mode : AccessMode) (d : LogicalData E) :
    Option (Update E) :=
  match enforceStfDepsBefore ((d.inst id).readPrereq ++ (d.inst id).writePrereq) [] mode d.state with
  | none => none
  | some (prereqs, st) =>
    let (d, prereqs) := ({ d with state := st } : LogicalData E).depAllocate id size prereqs
    (d.enforceMsiProtocol B copyDone id mode prereqs).map fun u =>
      { u with prereqs := B.optimize u.prereqs }

/-- The part of `task::release` for one dependency: after a read only writers have to wait for the
task; after anything else its completion is all there is to wait for. -/
def releaseDep (task : Task E) (id : ℕ) (mode : AccessMode) (d : LogicalData E) : LogicalData E :=
  let d := d.modify id fun n =>
    if mode = .read then n.addWritePrereq B task.donePrereqs
    else { n with readPrereq := task.donePrereqs, writePrereq := [] }
  { d with state := enforceStfDepsAfter B task mode d.state }

end Acquire

/-! ## 2. Operations and the buffers they touch -/

/-- An asynchronous operation: what it waits for and completes with, the buffer it only reads and
the buffer it writes. -/
structure Operation (E : Type*) extends Submission E where
  reads : Option (ℕ × ℕ)
  writes : Option (ℕ × ℕ)

/-- The operation uses the buffer. -/
def Operation.Touches (o : Operation E) (b : ℕ × ℕ) : Prop :=
  o.reads = some b ∨ o.writes = some b

/-- Two operations use one buffer and do not both only read it. -/
def Operation.Conflict (o o' : Operation E) : Prop :=
  ∃ b, o.Touches b ∧ o'.Touches b ∧ (o.writes = some b ∨ o'.writes = some b)

/-- `o` happens before `o'`: whoever waits for all that `o'` waits for waits for the completion of
`o`. -/
def Operation.Before (R : E → E → Prop) (o o' : Operation E) : Prop :=
  Covered R o.done o'.waits

/-- A logical data, how often each slot has been allocated, and the operations so far in the order
of their submission. -/
structure FlowState (E : Type*) where
  data : LogicalData E
  epoch : ℕ → ℕ := fun _ => 0
  ops : List (Operation E) := []

/-- The submissions of a run. -/
def FlowState.log (s : FlowState E) : List (Submission E) :=
  s.ops.map Operation.toSubmission

/-- A copy reads its source and writes its destination. -/
def Copy.operation (epoch : ℕ → ℕ) (c : Copy E) : Operation E :=
  { waits := c.waits, done := c.done, reads := some (c.src, epoch c.src)
    writes := some (c.dst, epoch c.dst) }

/-- The body of a task reads or writes the instance it was given. -/
def Task.operation (task : Task E) (mode : AccessMode) (waits : List E) (buffer : ℕ × ℕ) :
    Operation E :=
  { waits := waits, done := task.donePrereqs
    reads := if mode = .read then some buffer else none
    writes := if mode = .read then none else some buffer }

/-! ## 3. Runs -/

/-- What happens to a logical data: a task accesses it at a place, or an instance is reclaimed.  The
events of copies are given from outside. -/
inductive FlowAction (E : Type*) where
  | task (place : DataPlace) (size : ℕ) (mode : AccessMode) (task : Task E) (copyDone : List E)
  | reclaim (id : ℕ) (copyDone : List E)

section Run

variable [LinearOrder E] (B : EventBackend E)

/-- A task from its acquisition to its release. -/
def FlowState.runTask (place : DataPlace) (size : ℕ) (mode : AccessMode) (task : Task E)
    (copyDone : List E) (s : FlowState E) : Option (FlowState E) :=
  let (id, d) := s.data.findInstanceId place
  (fetchData B copyDone id size mode d).map fun u =>
    let epoch := if (d.inst id).allocated then s.epoch
      else Function.update s.epoch id (s.epoch id + 1)
    { data := releaseDep B task id mode u.data
      epoch := epoch
      ops := s.ops ++ (u.copies.map (Copy.operation epoch) ++
        [task.operation mode u.prereqs (id, epoch id)]) }

/-- `do_reclaim`. -/
def FlowState.reclaim (id : ℕ) (copyDone : List E) (s : FlowState E) : Option (FlowState E) :=
  (s.data.doReclaim B copyDone id).map fun u =>
    { s with data := u.data, ops := s.ops ++ u.copies.map (Copy.operation s.epoch) }

/-- One action, with no result where the source fails an assertion. -/
def FlowState.act (s : FlowState E) : FlowAction E → Option (FlowState E)
  | .task place size mode task copyDone => s.runTask B place size mode task copyDone
  | .reclaim id copyDone => s.reclaim B id copyDone

end Run

/-- A logical data as it is created: from an instance, or from a shape. -/
inductive FlowState.Initial : FlowState E → Prop
  | ofInstance (place : DataPlace) (startEvents : List E) {m : MsirStateId}
      (hm : m = .modified ∨ m = .shared) :
      Initial
        { data :=
            { count := 1
              inst := fun i => if i = 0 then
                  { used := true, dplace := place, msir := m, allocated := true,
                    readPrereq := startEvents }
                else {}
              referenceInstanceId := some 0 } }
  | ofShape : Initial { data := {} }

/-- The modes of a task that does not contribute to a reduction in progress. -/
def FlowUse (s : FlowState E) : FlowAction E → Prop
  | .task _ _ mode _ copyDone => mode.IsPlain ∧ copyDone ≠ []
  | .reclaim id copyDone => (s.data.inst id).allocated ∧ (s.data.inst id).reclaimable ∧ copyDone ≠ []

/-- The runs under some use. -/
def taskFlow [LinearOrder E] (B : EventBackend E) (use : FlowState E → FlowAction E → Prop) :
    Lts (FlowState E) (FlowAction E) where
  init := FlowState.Initial
  step s a s' := use s a ∧ s.act B a = some s'

/-- **No races**: of any two operations on one buffer, one of them writing it, the one submitted
first happens before the other. -/
def FlowState.RaceFree (B : EventBackend E) (s : FlowState E) : Prop :=
  s.ops.Pairwise fun o o' => o.Conflict o' → o.Before (Hb B.implied s.log) o'

/-! ## 4. What the protocol forgets -/

/-- What `enforce_stf_deps_before` makes a task wait for that it takes for a reader. -/
def readerWaits (st : LogicalDataState E) : List E :=
  if st.currentMode = .write then
    match st.currentWriter with
    | some w => w.donePrereqs
    | none => []
  else
    match st.previousWriter with
    | some w => w.donePrereqs
    | none => []

/-- What it makes a task wait for that it takes for a writer. -/
def writerWaits (st : LogicalDataState E) : List E :=
  if st.currentMode = .write then
    match st.currentWriter with
    | some w => w.donePrereqs
    | none => []
  else st.currentReaders.donePrereqs

/-- The instance an access is copied from, if it is: an access that needs the old contents of an
instance that does not hold them. -/
def copySource (d : LogicalData E) (id : ℕ) (mode : AccessMode) : Option ℕ :=
  if (d.inst id).msir = .invalid ∧ mode ≠ .write ∧ mode ≠ .reduce then d.findSourceInstanceId
  else none

/-- The events in the lists of the accessed instance and of its source that the access waits for. -/
def instanceWaits (d : LogicalData E) (id : ℕ) (mode : AccessMode) : List E :=
  match copySource d id mode with
  | some src => (d.inst src).readPrereq ++ (d.inst id).readPrereq ++ (d.inst id).writePrereq
  | none =>
    if (d.inst id).msir = .invalid then []
    else (d.inst id).readPrereq ++ (d.inst id).writePrereq

/-- The events in the lists of another instance that an access that is not a read clears. -/
def forgotten (d : LogicalData E) (id : ℕ) (mode : AccessMode) (i : ℕ) : List E :=
  match (d.inst id).msir with
  | .shared => (d.inst i).readPrereq ++ (d.inst i).writePrereq
  | .invalid => if copySource d id mode = some i then [] else (d.inst i).readPrereq
  | _ => []

/-- The events that it leaves there. -/
def remembered (d : LogicalData E) (id i : ℕ) : List E :=
  match (d.inst id).msir with
  | .shared => []
  | .invalid => (d.inst i).writePrereq
  | _ => []

/-- Of the operations on the buffer, those known through `l` in one order are known through `m` in
another, at the same moment or later. -/
def Passes (R S : E → E → Prop) (ops : List (Operation E)) (b : ℕ × ℕ) (l m : List E) : Prop :=
  ∀ o ∈ ops, o.Touches b → ∀ e ∈ o.done, Reaches R e l → Reaches S e m

/-- **Nothing is lost by an access**: of the operations on the memory of another instance, those
known through what is cleared from its lists come before what a writer would wait for here; where
the record takes the task for a reader though it is not, they also come before what is left in the
lists or the writer before the readers; and if the accessed instance is to be overwritten without a
look at its own lists, the operations known through them come before what the task waits for through
the record. -/
structure OrderKept (R : E → E → Prop) (ops : List (Operation E)) (epoch : ℕ → ℕ)
    (d : LogicalData E) (id : ℕ) (mode : AccessMode) : Prop where
  others : ∀ i, i ≠ id → (d.inst i).allocated → Passes R R ops (i, epoch i)
    (forgotten d id mode i) (writerWaits d.state ++ instanceWaits d id mode)
  readers : mode.isWrite = false → ∀ i, i ≠ id → (d.inst i).allocated → Passes R R ops (i, epoch i)
    (forgotten d id mode i) (remembered d id i ++ readerWaits d.state)
  own : (d.inst id).allocated → (d.inst id).msir = .invalid → mode = .write ∨ mode = .reduce →
    Passes R R ops (id, epoch id) ((d.inst id).readPrereq ++ (d.inst id).writePrereq)
      (if mode.isWrite then writerWaits d.state else readerWaits d.state)

/-- Runs in which nothing is lost. -/
def KeptUse (B : EventBackend E) (s : FlowState E) (a : FlowAction E) : Prop :=
  FlowUse s a ∧ match a with
    | .task place _ mode _ _ => mode ≠ .read →
      OrderKept (Hb B.implied s.log) s.ops s.epoch (s.data.findInstanceId place).2
        (s.data.findInstanceId place).1 mode
    | .reclaim _ _ => True

end Cccl.Stf
