/-
# Acquiring and releasing the dependencies of a task

A task names its dependencies in any order, and the same logical data may be named several times.  `task::acquire`
validates all of them, sorts them by the addresses of the logical data, and then treats each run of dependencies on one
logical data as a single one: their access modes are merged, the last one of the run survives, and the others are
skipped.  The mutex of the logical data is locked, and the data is fetched in the merged mode.  In the end the skipped
dependencies get the instance of the one that survived.  `task::release` goes over those that survived.

What the place machinery and the backend do is given from outside (`Machine`): whether an execution place can be
activated, and what a fetch does to the instances or whether it throws.
-/
import Cccl.Lib.Exits
import Cccl.Stf.Event

namespace Cccl.Stf

/-! ## 1. Merging access modes -/

namespace AccessMode

/-- The values of `enum class access_mode`. -/
def code : AccessMode → ℕ
  | none => 0
  | read => 1
  | write => 2
  | rw => 3
  | relaxed => 4
  | reduce => 9
  | reduceNoInit => 16

/-- `operator|`, where it does not fail its expectations. -/
def merge (lhs rhs : AccessMode) : Option AccessMode :=
  if lhs = relaxed ∨ rhs = relaxed then Option.none
  else [none, read, write, rw, reduce, reduceNoInit].find? fun merged => merged.code == lhs.code ||| rhs.code

/-- `access_mode_string`. -/
def string : AccessMode → String
  | none => "none"
  | read => "read"
  | rw => "rw"
  | write => "write"
  | relaxed => "relaxed"
  | reduceNoInit => "reduce (no init)"
  | reduce => "reduce"

end AccessMode

namespace Acquire

/-! ## 2. Dependencies and tasks -/

/-- A `data_place`, as far as a dependency is concerned.  An ordinary place has one instance (a device, the host, a
composite place); a replicated one has an instance for each of its members.  A deferred one is replicated over the
execution place of the task. -/
inductive Place
  | invalid
  | affine
  | deferred
  | ordinary (place : ℕ)
  | replicated (grid axesMask : ℕ)
  deriving DecidableEq

def Place.isReplicated : Place → Bool
  | deferred => true
  | replicated _ _ => true
  | _ => false

/-- A dependency as the user gives it. -/
structure DepSpec where
  data : ℕ
  mode : AccessMode
  dplace : Place
  deriving DecidableEq

/-- `task_dep_untyped`. -/
structure Dep extends DepSpec where
  dependencyIndex : ℕ
  skipped : Bool
  instanceId : Option ℕ
  deriving DecidableEq

structure ExecPlace where
  id : ℕ
  size : ℕ
  affineDataPlace : ℕ
  deriving DecidableEq

inductive Phase
  | setup
  | running
  | finished
  deriving DecidableEq

structure Task where
  phase : Phase
  context : ℕ
  deps : List DepSpec
  execPlace : ExecPlace
  affineDataPlace : Place

/-- What the checks look at. -/
structure DataInfo where
  symbol : String
  initialized : Bool
  frozen : Option AccessMode
  context : ℕ

/-- An entry of `used_instances`. -/
structure Slot where
  used : Bool
  dplace : Place
  deriving DecidableEq

abbrev Tables := ℕ → List Slot

/-- What is given from outside. -/
structure Machine where
  /-- The data places of the members of a replicated place. -/
  members : (grid axesMask : ℕ) → List ℕ
  /-- `std::sort`, which may put equal elements in any order. -/
  sort : List Dep → List Dep
  sort_perm (l : List Dep) : (sort l).Perm l
  sort_sorted (l : List Dep) : (sort l).Pairwise fun a b => a.data ≤ b.data
  /-- Does the activation of an execution place succeed? -/
  activates : ℕ → Bool
  /-- Does `fetch_data` succeed, and what does it do to the instances? -/
  fetch : (data instanceId : ℕ) → AccessMode → Place → Tables → Bool × Tables

/-- What acquiring and releasing do to the outside world. -/
inductive TaskEvent
  | locked (data : ℕ)
  | unlocked (data : ℕ)
  | fetched (data instanceId : ℕ) (mode : AccessMode) (dplace : Place) (done : Bool)
  /-- `add_write_prereq`: later writes wait for the task. -/
  | guarded (data instanceId : ℕ)
  /-- `set_read_prereq` and `clear_write_prereq`: all later accesses wait for the task. -/
  | published (data instanceId : ℕ)
  /-- `enforce_stf_deps_after`. -/
  | recorded (data : ℕ) (mode : AccessMode)
  deriving DecidableEq

/-- The state that tasks share, and what a task keeps of its own. -/
structure Session where
  info : ℕ → DataInfo
  tables : Tables
  refcnt : ℕ → ℕ
  /-- The mutexes that the task holds. -/
  held : List ℕ
  taskCount : ℕ
  /-- The execution places that are activated. -/
  active : List ℕ
  trace : List TaskEvent
  /-- `unskipped_indexes`. -/
  unskipped : List (ℕ × AccessMode)

namespace Session

variable (s : Session)

def log (e : TaskEvent) : Session := { s with trace := s.trace ++ [e] }

/-- `add_ref` of a logical data. -/
def addRef (data : ℕ) : Session := { s with refcnt := fun d => if d = data then s.refcnt d + 1 else s.refcnt d }

def removeRef (data : ℕ) : Session := { s with refcnt := fun d => if d = data then s.refcnt d - 1 else s.refcnt d }

end Session

/-- What is thrown: by a check, by an `EXPECT`, or by a function that is called. -/
inductive Rejection
  | logicError (what : String)
  | invalidArgument (what : String)
  | expectFailed
  | outside
  deriving DecidableEq

abbrev Acquiring := Program Rejection Session

/-! ## 3. Validation -/

def ensureTaskDepsInitialized : (index : ℕ) → List DepSpec → Acquiring Unit
  | _, [] => pure ()
  | index, dep :: deps => do
    let s ← Program.state
    if (s.info dep.data).initialized then ensureTaskDepsInitialized (index + 1) deps
    else .exit (.invalidArgument ("dependency number " ++ toString index ++ " is an uninitialized logical data"))

/-- The checks of a dependency: frozen data can only be read, and only if it was frozen to be read; and the logical data
is one of the context of the task. -/
def validate (context : ℕ) : List DepSpec → Acquiring Unit
  | [] => pure ()
  | dep :: deps => do
    let s ← Program.state
    match (s.info dep.data).frozen with
    | some frozenMode =>
      if frozenMode = .read ∧ dep.mode = .read then
        if context ≠ (s.info dep.data).context then
          .exit (.invalidArgument ("logical data '" ++ (s.info dep.data).symbol ++
            "' does not belong to the context of the task"))
        else validate context deps
      else
        .exit (.logicError ("illegal access on frozen logical data '" ++ (s.info dep.data).symbol ++
          "': frozen with mode " ++ frozenMode.string ++ ", requested " ++ dep.mode.string))
    | none =>
      if context ≠ (s.info dep.data).context then
        .exit (.invalidArgument ("logical data '" ++ (s.info dep.data).symbol ++
          "' does not belong to the context of the task"))
      else validate context deps

/-! ## 4. Instances -/

variable (M : Machine)

/-- The slot of the first unused instance, or a new one. -/
def findUnused (dplace : Place) : List Slot → ℕ × List Slot
  | [] => (0, [⟨true, dplace⟩])
  | slot :: slots =>
    if slot.used then ((findUnused dplace slots).1 + 1, slot :: (findUnused dplace slots).2)
    else (0, ⟨true, dplace⟩ :: slots)

def findUnusedInstanceId (data : ℕ) (dplace : Place) : Acquiring ℕ := fun s =>
  (.ok (findUnused dplace (s.tables data)).1,
    { s with tables := fun d => if d = data then (findUnused dplace (s.tables data)).2 else s.tables d })

/-- `find_instance_id`: a used instance at the place, or another one. -/
def findInstanceId (data : ℕ) (dplace : Place) : Acquiring ℕ := do
  let s ← Program.state
  match (s.tables data).findIdx? fun slot => slot.used && slot.dplace = dplace with
  | some id => pure id
  | none => findUnusedInstanceId data dplace

def fetchData (data instanceId : ℕ) (mode : AccessMode) (dplace : Place) : Acquiring Unit := fun s =>
  let res := M.fetch data instanceId mode dplace s.tables
  (if res.1 then .ok () else .error .outside,
    ({ s with tables := res.2 } : Session).log (.fetched data instanceId mode dplace res.1))

/-- Fetches an instance that has not been processed yet. -/
def fetchOnce (data instanceId : ℕ) (mode : AccessMode) (dplace : Place) (processed : List ℕ) : Acquiring (List ℕ) :=
  if instanceId ∈ processed then pure processed
  else do
    fetchData M data instanceId mode dplace
    pure (processed ++ [instanceId])

/-- The members of a replicated place, each distinct instance exactly once. -/
def fetchMembers (data : ℕ) (mode : AccessMode) : (processed : List ℕ) → List ℕ → Acquiring (List ℕ)
  | processed, [] => pure processed
  | processed, member :: members => do
    let im ← findInstanceId data (.ordinary member)
    let processed ← fetchOnce M data im mode (.ordinary member) processed
    fetchMembers data mode processed members

/-! ## 5. `acquire` -/

/-- The merged mode of a run. -/
def mergeModes : AccessMode → List AccessMode → Acquiring AccessMode
  | mode, [] => pure mode
  | mode, next :: modes =>
    match mode.merge next with
    | some merged => mergeModes merged modes
    | none => .exit .expectFailed

/-- A replicated place is only for reading, and is not merged with another place. -/
def checkGroup (mode : AccessMode) (survivor : Place) : List Dep → Acquiring Unit
  | [] => pure ()
  | g :: group =>
    if g.dplace.isReplicated then
      if mode ≠ .read then
        .exit (.invalidArgument ("replicated data places only support read access (another dependency on the same " ++
          "logical data upgrades the merged access mode)"))
      else if survivor ≠ g.dplace then
        .exit (.invalidArgument ("conflicting data places for merged dependencies on the same logical data (one of " ++
          "them is replicated)"))
      else checkGroup mode survivor group
    else checkGroup mode survivor group

namespace Task

variable (task : Task)

/-- The place of the task, where the dependency has an affine one. -/
def inherited (dplace : Place) : Place := if dplace = .affine then task.affineDataPlace else dplace

/-- A deferred replicated place binds to the execution place of the task. -/
def materialized : Place :=
  if 1 < task.execPlace.size then .replicated task.execPlace.id 15 else .ordinary task.execPlace.affineDataPlace

/-- The place that a dependency is fetched to. -/
def resolved (dplace : Place) : Place :=
  if task.inherited dplace = .deferred then task.materialized else task.inherited dplace

/-- The place that the dependency has from then on. -/
def written (dplace : Place) : Place :=
  if task.inherited dplace = .deferred then task.materialized else dplace

end Task

/-- The members of a place with more than one instance. -/
def Machine.replicas : Place → List ℕ
  | .replicated grid axesMask => if 1 < (M.members grid axesMask).length then M.members grid axesMask else []
  | _ => []

/-- Fetches the data of the dependency that survives, in the merged mode. -/
def acquireSurvivor (task : Task) (mode : AccessMode) (survivor : Dep) : Acquiring Dep := do
  let dplace := task.resolved survivor.dplace
  match M.replicas dplace with
  | [] => do
    let instanceId ← if mode = .relaxed then findUnusedInstanceId survivor.data dplace
      else findInstanceId survivor.data dplace
    fetchData M survivor.data instanceId mode dplace
    pure { survivor with dplace := task.written survivor.dplace, instanceId := some instanceId }
  | members => do
    let processed ← fetchMembers M survivor.data mode [] members
    pure { survivor with dplace := task.written survivor.dplace, instanceId := processed.head? }

/-- `lock` of the mutex of a logical data. -/
def lock (data : ℕ) (s : Session) : Session := ({ s with held := data :: s.held } : Session).log (.locked data)

/-- One run of dependencies on the same logical data, which starts at the index `base`. -/
def acquireGroup (task : Task) (base : ℕ) (first : Dep) (group : List Dep) : Acquiring (List Dep) := do
  let survivor := (first :: group).getLast (List.cons_ne_nil first group)
  let mode ← mergeModes first.mode (group.map (·.mode))
  checkGroup mode survivor.dplace (first :: group)
  Program.change fun s => { s with unskipped := s.unskipped ++ [(base + group.length, mode)] }
  Program.change (lock survivor.data)
  let survivor ← acquireSurvivor M task mode survivor
  pure (((first :: group).dropLast.map fun dep => { dep with skipped := true }) ++ [survivor])

/-- All runs. -/
def acquireGroups (task : Task) : (base : ℕ) → List (List Dep) → Acquiring (List Dep)
  | _, [] => pure []
  | base, [] :: groups => acquireGroups task base groups
  | base, (first :: group) :: groups => do
    let deps ← acquireGroup M task base first group
    let rest ← acquireGroups task (base + (group.length + 1)) groups
    pure (deps ++ rest)

/-- The runs of dependencies on the same logical data. -/
def groups (deps : List Dep) : List (List Dep) := deps.splitBy fun a b => a.data == b.data

/-- Going backwards, the skipped dependencies get the instance of the one that has survived. -/
def propagate : (previousInstanceId : Option ℕ) → List Dep → List Dep
  | _, [] => []
  | previousInstanceId, dep :: deps =>
    if dep.skipped then { dep with instanceId := previousInstanceId } :: propagate previousInstanceId deps
    else dep :: propagate dep.instanceId deps

/-- The dependencies of a task that has been admitted, with their indexes. -/
def indexed (deps : List DepSpec) : List Dep := deps.zipIdx.map fun (spec, index) => ⟨spec, index, false, none⟩

/-- Activates an execution place. -/
def activate (execPlace : ExecPlace) : Acquiring Unit :=
  if M.activates execPlace.id then Program.change fun s => { s with active := execPlace.id :: s.active }
  else .exit .outside

/-- `task::acquire`: the dependencies as they are when the task runs. -/
def acquire (task : Task) : Acquiring (List Dep) :=
  if task.phase ≠ .setup then .exit .expectFailed
  else do
    ensureTaskDepsInitialized 0 task.deps
    validate task.context task.deps
    Program.change fun s => { s with taskCount := s.taskCount + 1 }
    activate M task.execPlace
    Program.change fun s => task.deps.foldl (fun s dep => s.addRef dep.data) s
    let deps ← acquireGroups M task 0 (groups (M.sort (indexed task.deps)))
    Program.change fun s => deps.foldl (fun s dep => s.removeRef dep.data) s
    pure (propagate none deps.reverse).reverse

/-! ## 6. `release` -/

/-- The other instances of a replicated place, each distinct one once. -/
def guardMembers (data : ℕ) : (guarded : List ℕ) → List ℕ → Acquiring Unit
  | _, [] => pure ()
  | guarded, member :: members => do
    let im ← findInstanceId data (.ordinary member)
    if im ∈ guarded then guardMembers data guarded members
    else do
      Program.change (·.log (.guarded data im))
      guardMembers data (guarded ++ [im]) members

/-- A dependency that has survived, with the merged mode. -/
def releaseDep (task : Task) (dep : Dep) (mode : AccessMode) : Acquiring Unit :=
  if mode = .read then do
    Program.change (·.log (.guarded dep.data (dep.instanceId.getD 0)))
    guardMembers dep.data [dep.instanceId.getD 0] (M.replicas (task.inherited dep.dplace)).tail
    Program.change (·.log (.recorded dep.data mode))
  else do
    Program.change (·.log (.published dep.data (dep.instanceId.getD 0)))
    Program.change (·.log (.recorded dep.data mode))

/-- The first loop of `release`. -/
def releaseDeps (task : Task) (deps : List Dep) : List (ℕ × AccessMode) → Acquiring Unit
  | [] => pure ()
  | (index, mode) :: unskipped =>
    match deps[index]? with
    | some dep => do
      releaseDep M task dep mode
      releaseDeps task deps unskipped
    | none => releaseDeps task deps unskipped

/-- `unlock` of the mutex of a logical data. -/
def unlock (data : ℕ) (s : Session) : Session := ({ s with held := s.held.erase data } : Session).log (.unlocked data)

/-- The second loop of `release`. -/
def unlockDeps (deps : List Dep) (unskipped : List (ℕ × AccessMode)) (s : Session) : Session :=
  (unskipped.filterMap fun (index, _) => deps[index]?).foldl (fun s dep => unlock dep.data s) s

def release (task : Task) (deps : List Dep) : Acquiring Unit := do
  let s ← Program.state
  releaseDeps M task deps s.unskipped
  Program.change fun s => { s with active := s.active.tail }
  Program.change (unlockDeps deps s.unskipped)

end Acquire

end Cccl.Stf
