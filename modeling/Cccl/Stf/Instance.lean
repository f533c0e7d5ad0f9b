/-
# Logical data and their instances

The data model of the coherency protocol (`msir.cuh`, `task.cuh`, `logical_data.cuh`): a logical
data is a table of instances, each a copy of the data at some data place.  A slot of the table is
in use or free to be handed out again; an instance in use has an MSIR state, may own memory, and
carries the events to wait for before reading it (`readPrereq`) and, on top of those, before
modifying it (`writePrereq`).

The table is a function on slot numbers together with its length.  Slots past the end hold the
instance that `emplace_back` starts from, so a loop over the table is a map over all slots.
-/
import Cccl.Stf.Deps

namespace Cccl.Stf

variable {E : Type*}

/-! ## 1. Places and states -/

/-- The resolved data places.  A `view` is a place of its own on a device's memory (a green
context, say); a `composite` place spreads over several devices. -/
inductive DataPlace where
  | managed
  | host
  | device (ordinal : ℕ)
  | view (ordinal handle : ℕ)
  | composite (handle : ℕ)
  deriving DecidableEq, Repr

/-- `to_index`: 0 for managed memory, 1 for the host, then the devices.  There is none for a
composite place, where the source fails its expectation. -/
def toIndex : DataPlace → Option ℕ
  | .managed => some 0
  | .host => some 1
  | .device n => some (n + 2)
  | .view n _ => some (n + 2)
  | .composite _ => none

def fromIndex : ℕ → DataPlace
  | 0 => .managed
  | 1 => .host
  | n + 2 => .device n

@[simp] theorem toIndex_fromIndex (n : ℕ) : toIndex (fromIndex n) = some n := by
  rcases n with _ | _ | n <;> rfl

/-- `enum class msir_state_id`. -/
inductive MsirStateId where
  | invalid
  | modified
  | shared
  | reduction
  deriving DecidableEq, Repr

/-! ## 2. One instance -/

/-- `class data_instance` with its `per_data_instance_msi_state`. -/
structure DataInstance (E : Type*) where
  used : Bool := false
  dplace : DataPlace := .host
  msir : MsirStateId := .invalid
  allocated : Bool := false
  /-- Size of the memory allocation; only meaningful for allocated instances. -/
  allocatedSize : ℕ := 0
  /-- False for memory that the library does not own. -/
  reclaimable : Bool := false
  /-- Is a reduction operator attached to the instance? -/
  reduxOp : Bool := false
  readPrereq : List E := []
  writePrereq : List E := []

namespace DataInstance

variable [LinearOrder E]

/-- Event lists attached to an instance are only shortened once they exceed 16 entries. -/
def mergePrereq (B : EventBackend E) (l prereq : List E) : List E :=
  if (l ++ prereq).length > 16 then B.optimize (l ++ prereq) else l ++ prereq

def addReadPrereq (B : EventBackend E) (prereq : List E) (i : DataInstance E) : DataInstance E :=
  { i with readPrereq := mergePrereq B i.readPrereq prereq }

def addWritePrereq (B : EventBackend E) (prereq : List E) (i : DataInstance E) : DataInstance E :=
  { i with writePrereq := mergePrereq B i.writePrereq prereq }

theorem mergePrereq_covers {B : EventBackend E} {R : E → E → Prop} [Std.Refl R]
    (himp : ∀ e e', B.implied e e' → R e e') (l prereq : List E) :
    Covered R (l ++ prereq) (mergePrereq B l prereq) := by
  unfold mergePrereq
  split
  · exact B.optimize_covers himp _
  · exact Covered.refl _

end DataInstance

/-! ## 3. The table of instances -/

/-- `class logical_data_untyped_impl`: the instance table, the reference instance if there is one,
the dependency record, the reference count and the frozen flag. -/
structure LogicalData (E : Type*) where
  /-- `used_instances.size()`. -/
  count : ℕ := 0
  /-- `used_instances`. -/
  inst : ℕ → DataInstance E := fun _ => {}
  referenceInstanceId : Option ℕ := Option.none
  state : LogicalDataState E := {}
  refcnt : ℕ := 0
  frozenFlag : Bool := false

namespace LogicalData

/-- Update one slot. -/
def modify (d : LogicalData E) (id : ℕ) (f : DataInstance E → DataInstance E) : LogicalData E :=
  { d with inst := fun i => if i = id then f (d.inst i) else d.inst i }

/-- Update every slot of the table. -/
def modifyAll (d : LogicalData E) (f : ℕ → DataInstance E → DataInstance E) : LogicalData E :=
  { d with inst := fun i => f i (d.inst i) }

section Lemmas

variable (d : LogicalData E) (id : ℕ) (f : DataInstance E → DataInstance E)
  (g : ℕ → DataInstance E → DataInstance E)

@[simp] theorem modify_inst (i : ℕ) :
    (d.modify id f).inst i = if i = id then f (d.inst i) else d.inst i := rfl

@[simp] theorem modify_count : (d.modify id f).count = d.count := rfl

@[simp] theorem modify_referenceInstanceId :
    (d.modify id f).referenceInstanceId = d.referenceInstanceId := rfl

@[simp] theorem modify_state : (d.modify id f).state = d.state := rfl

@[simp] theorem modifyAll_inst (i : ℕ) :
    (d.modifyAll g).inst i = g i (d.inst i) := rfl

@[simp] theorem modifyAll_count : (d.modifyAll g).count = d.count := rfl

@[simp] theorem modifyAll_referenceInstanceId :
    (d.modifyAll g).referenceInstanceId = d.referenceInstanceId := rfl

@[simp] theorem modifyAll_state : (d.modifyAll g).state = d.state := rfl

end Lemmas

/-- `find_unused_instance_id`: the first free slot, or a new one at the end, marked as used. -/
def findUnusedInstanceId (d : LogicalData E) (dplace : DataPlace) : ℕ × LogicalData E :=
  match (List.range d.count).find? fun i => !(d.inst i).used with
  | some i => (i, d.modify i fun n => { n with dplace := dplace, used := true })
  | none =>
    (d.count, { d with
      count := d.count + 1
      inst := fun i => if i = d.count then { used := true, dplace := dplace } else d.inst i })

/-- `find_instance_id`: the first slot in use at this place, or a free one. -/
def findInstanceId (d : LogicalData E) (dplace : DataPlace) : ℕ × LogicalData E :=
  match (List.range d.count).find? fun i => (d.inst i).used && (d.inst i).dplace = dplace with
  | some i => (i, d)
  | none => d.findUnusedInstanceId dplace

/-- `find_source_instance_id`: the first instance that is not invalid, if any; the source aborts
when there is none. -/
def findSourceInstanceId (d : LogicalData E) : Option ℕ :=
  (List.range d.count).find? fun i => (d.inst i).msir ≠ .invalid

theorem findSourceInstanceId_some {d : LogicalData E} {src : ℕ}
    (h : d.findSourceInstanceId = some src) : src < d.count ∧ (d.inst src).msir ≠ .invalid := by
  have hmem := List.mem_of_find?_eq_some h
  have hp := List.find?_some h
  exact ⟨by simpa using hmem, by simpa using hp⟩

theorem exists_findSourceInstanceId {d : LogicalData E} {i : ℕ} (hi : i < d.count)
    (hvalid : (d.inst i).msir ≠ .invalid) : ∃ src, d.findSourceInstanceId = some src := by
  unfold findSourceInstanceId
  cases hfind : (List.range d.count).find? fun i => (d.inst i).msir ≠ .invalid with
  | some src => exact ⟨src, rfl⟩
  | none =>
    rw [List.find?_eq_none] at hfind
    exact absurd (by simpa using hfind i (by simpa using hi)) hvalid

end LogicalData

end Cccl.Stf
