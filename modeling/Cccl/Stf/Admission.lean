/-
# What a rejected task leaves behind

`task::acquire` checks all dependencies before it touches any of them, and a task that is rejected there leaves nothing
behind.  But three things are found out later: that the access modes of a run cannot be merged, that a replicated place
is merged with another place or with a mode that is not for reading, and that a fetch or an activation fails.  The task
has been counted by then, and nothing takes this back; nor the references, the locks and the active place.  So a task
leaves nothing behind if and only if it is rejected by the first checks, or nothing of the rest happens
(`acquire_leaves_nothing_iff`).
-/
import Cccl.Stf.Acquire

namespace Cccl.Stf.Acquire

/-! ## 1. The first checks -/

/-- One of the first checks fails. -/
def Task.Rejected (task : Task) (s : Session) : Prop :=
  task.phase ≠ .setup ∨ ∃ dep ∈ task.deps, (s.info dep.data).initialized = false ∨
    (∃ mode, (s.info dep.data).frozen = some mode ∧ ¬ (mode = .read ∧ dep.mode = .read)) ∨
    task.context ≠ (s.info dep.data).context

variable {M : Machine} {task : Task} {s : Session} {n : ℕ} {P : Session → Prop}

theorem ensureTaskDepsInitialized_cases (index : ℕ) (deps : List DepSpec) (s : Session) :
    (∀ dep ∈ deps, (s.info dep.data).initialized = true) ∧
      ensureTaskDepsInitialized index deps s = (.ok (), s) ∨
    (∃ dep ∈ deps, (s.info dep.data).initialized = false) ∧
      ∃ e, ensureTaskDepsInitialized index deps s = (.error e, s) := by
  induction deps generalizing index with
  | nil => exact Or.inl ⟨fun _ h => absurd h List.not_mem_nil, rfl⟩
  | cons dep deps ih =>
    have hstep : ensureTaskDepsInitialized index (dep :: deps) s =
        (if (s.info dep.data).initialized then ensureTaskDepsInitialized (index + 1) deps
        else .exit (.invalidArgument ("dependency number " ++ toString index ++ " is an uninitialized logical data")) :
          Acquiring Unit) s := rfl
    rw [hstep]
    cases hinit : (s.info dep.data).initialized with
    | false => exact Or.inr ⟨⟨dep, List.mem_cons_self, hinit⟩, _, rfl⟩
    | true =>
      rw [if_pos rfl]
      rcases ih (index + 1) with ⟨hall, hrun⟩ | ⟨⟨dep', hmem, hdep'⟩, e, hrun⟩
      · refine Or.inl ⟨fun d hd => ?_, hrun⟩
        rcases List.mem_cons.mp hd with rfl | hd
        · exact hinit
        · exact hall d hd
      · exact Or.inr ⟨⟨dep', List.mem_cons_of_mem _ hmem, hdep'⟩, e, hrun⟩

/-- What is wrong with a dependency. -/
def Invalid (context : ℕ) (s : Session) (dep : DepSpec) : Prop :=
  (∃ mode, (s.info dep.data).frozen = some mode ∧ ¬ (mode = .read ∧ dep.mode = .read)) ∨
    context ≠ (s.info dep.data).context

theorem validate_cases (context : ℕ) (deps : List DepSpec) (s : Session) :
    (∀ dep ∈ deps, ¬ Invalid context s dep) ∧ validate context deps s = (.ok (), s) ∨
    (∃ dep ∈ deps, Invalid context s dep) ∧ ∃ e, validate context deps s = (.error e, s) := by
  induction deps with
  | nil => exact Or.inl ⟨fun _ h => absurd h List.not_mem_nil, rfl⟩
  | cons dep deps ih =>
    have hrest : ¬ Invalid context s dep → validate context (dep :: deps) s = validate context deps s →
        (∀ d ∈ dep :: deps, ¬ Invalid context s d) ∧ validate context (dep :: deps) s = (.ok (), s) ∨
        (∃ d ∈ dep :: deps, Invalid context s d) ∧ ∃ e, validate context (dep :: deps) s = (.error e, s) := by
      intro hvalid heq
      rw [heq]
      rcases ih with ⟨hall, hrun⟩ | ⟨⟨d, hmem, hd⟩, hrun⟩
      · refine Or.inl ⟨fun d hd => ?_, hrun⟩
        rcases List.mem_cons.mp hd with rfl | hd
        · exact hvalid
        · exact hall d hd
      · exact Or.inr ⟨⟨d, List.mem_cons_of_mem _ hmem, hd⟩, hrun⟩
    have hfail : Invalid context s dep → (∃ e, validate context (dep :: deps) s = (.error e, s)) →
        (∀ d ∈ dep :: deps, ¬ Invalid context s d) ∧ validate context (dep :: deps) s = (.ok (), s) ∨
        (∃ d ∈ dep :: deps, Invalid context s d) ∧ ∃ e, validate context (dep :: deps) s = (.error e, s) :=
      fun hinvalid hrun => Or.inr ⟨⟨dep, List.mem_cons_self, hinvalid⟩, hrun⟩
    cases hfrozen : (s.info dep.data).frozen with
    | some mode =>
      have hstep : validate context (dep :: deps) s =
          (if mode = .read ∧ dep.mode = .read then
            if context ≠ (s.info dep.data).context then
              .exit (.invalidArgument ("logical data '" ++ (s.info dep.data).symbol ++
                "' does not belong to the context of the task"))
            else validate context deps
          else
            .exit (.logicError ("illegal access on frozen logical data '" ++ (s.info dep.data).symbol ++
              "': frozen with mode " ++ mode.string ++ ", requested " ++ dep.mode.string)) : Acquiring Unit) s := by
        rw [validate]
        simp only [bind, Program.state, hfrozen]
      by_cases hread : mode = .read ∧ dep.mode = .read
      · rw [if_pos hread] at hstep
        by_cases hcontext : context = (s.info dep.data).context
        · rw [if_neg (not_not.mpr hcontext)] at hstep
          refine hrest ?_ hstep
          rintro (⟨mode', hmode', hnot⟩ | hne)
          · rw [hfrozen, Option.some.injEq] at hmode'
            exact hnot (hmode' ▸ hread)
          · exact hne hcontext
        · rw [if_pos hcontext] at hstep
          exact hfail (Or.inr hcontext) ⟨_, hstep⟩
      · rw [if_neg hread] at hstep
        exact hfail (Or.inl ⟨mode, hfrozen, hread⟩) ⟨_, hstep⟩
    | none =>
      have hstep : validate context (dep :: deps) s =
          (if context ≠ (s.info dep.data).context then
            .exit (.invalidArgument ("logical data '" ++ (s.info dep.data).symbol ++
              "' does not belong to the context of the task"))
          else validate context deps : Acquiring Unit) s := by
        rw [validate]
        simp only [bind, Program.state, hfrozen]
      by_cases hcontext : context = (s.info dep.data).context
      · rw [if_neg (not_not.mpr hcontext)] at hstep
        refine hrest ?_ hstep
        rintro (⟨mode', hmode', -⟩ | hne)
        · rw [hfrozen] at hmode'
          exact absurd hmode' (by simp)
        · exact hne hcontext
      · rw [if_pos hcontext] at hstep
        exact hfail (Or.inr hcontext) ⟨_, hstep⟩

/-! ## 2. What comes later -/

/-- The merged mode, where there is one. -/
def mergeAll : AccessMode → List AccessMode → Option AccessMode
  | mode, [] => some mode
  | mode, next :: modes => (mode.merge next).bind fun merged => mergeAll merged modes

/-- A replicated place is only for reading, and not merged with another one. -/
def Replicable (mode : AccessMode) (survivor : Place) (group : List Dep) : Prop :=
  ∀ g ∈ group, g.dplace.isReplicated = true → mode = .read ∧ survivor = g.dplace

/-- A run of dependencies that can be treated as a single one. -/
def Fits : List Dep → Prop
  | [] => True
  | first :: group => ∃ mode, mergeAll first.mode (group.map (·.mode)) = some mode ∧
      Replicable mode ((first :: group).getLast (List.cons_ne_nil first group)).dplace (first :: group)

/-- A new instance at a place: its id, and the tables then. -/
def newInstance (data : ℕ) (dplace : Place) (tables : Tables) : ℕ × Tables :=
  ((findUnused dplace (tables data)).1, fun d => if d = data then (findUnused dplace (tables data)).2 else tables d)

/-- The instance at a place: its id, and the tables then. -/
def instanceAt (data : ℕ) (dplace : Place) (tables : Tables) : ℕ × Tables :=
  match (tables data).findIdx? fun slot => slot.used && slot.dplace = dplace with
  | some id => (id, tables)
  | none => newInstance data dplace tables

/-- The tables after a fetch, unless it throws. -/
def fetched (M : Machine) (data instanceId : ℕ) (mode : AccessMode) (dplace : Place) (tables : Tables) :
    Option Tables :=
  if (M.fetch data instanceId mode dplace tables).1 then some (M.fetch data instanceId mode dplace tables).2 else none

/-- The tables after the members of a replicated place are fetched, unless a fetch throws. -/
def fetchedMembers (M : Machine) (data : ℕ) (mode : AccessMode) : List ℕ → List ℕ → Tables → Option Tables
  | _, [], tables => some tables
  | processed, member :: members, tables =>
    if (instanceAt data (.ordinary member) tables).1 ∈ processed then
      fetchedMembers M data mode processed members (instanceAt data (.ordinary member) tables).2
    else
      (fetched M data (instanceAt data (.ordinary member) tables).1 mode (.ordinary member)
        (instanceAt data (.ordinary member) tables).2).bind
          (fetchedMembers M data mode (processed ++ [(instanceAt data (.ordinary member) tables).1]) members)

/-- The tables after the survivor of a run is fetched, unless a fetch throws. -/
def fetchedSurvivor (M : Machine) (task : Task) (mode : AccessMode) (survivor : Dep) (tables : Tables) :
    Option Tables :=
  match M.replicas (task.resolved survivor.dplace) with
  | [] =>
    let found := if mode = .relaxed then newInstance survivor.data (task.resolved survivor.dplace) tables
      else instanceAt survivor.data (task.resolved survivor.dplace) tables
    fetched M survivor.data found.1 mode (task.resolved survivor.dplace) found.2
  | members => fetchedMembers M survivor.data mode [] members tables

/-- The tables after all runs are fetched, each in its merged mode, unless a fetch throws. -/
def fetchedRuns (M : Machine) (task : Task) : List (List Dep) → Tables → Option Tables
  | [], tables => some tables
  | [] :: groups, tables => fetchedRuns M task groups tables
  | (first :: group) :: groups, tables =>
    (fetchedSurvivor M task ((mergeAll first.mode (group.map (·.mode))).getD .none)
      ((first :: group).getLast (List.cons_ne_nil first group)) tables).bind (fetchedRuns M task groups)

/-- The task has been counted, and these are the tables. -/
def At (n : ℕ) (tables : Tables) (t : Session) : Prop := t.taskCount = n ∧ t.tables = tables

/-- The task has been counted, and the tables are those that are foreseen. -/
def Foreseen (n : ℕ) (foreseen : Option Tables) (t : Session) : Prop :=
  ∃ tables, foreseen = some tables ∧ At n tables t

/-- The task has been counted, and a fetch was to throw. -/
def Failed (n : ℕ) (foreseen : Option Tables) (t : Session) : Prop := t.taskCount = n ∧ foreseen = none

theorem mergeModes_spec (mode : AccessMode) (modes : List AccessMode) :
    Program.Spec P (mergeModes mode modes) (fun merged t => mergeAll mode modes = some merged ∧ P t)
      (fun _ t => mergeAll mode modes = none ∧ P t) := by
  induction modes generalizing mode with
  | nil => exact Program.Spec.pure fun t h => ⟨rfl, h⟩
  | cons next modes ih =>
    unfold mergeModes mergeAll
    cases mode.merge next with
    | some merged => exact ih merged
    | none => exact Program.Spec.exit fun t h => ⟨rfl, h⟩

theorem checkGroup_spec (mode : AccessMode) (survivor : Place) (group : List Dep) :
    Program.Spec P (checkGroup mode survivor group) (fun _ t => Replicable mode survivor group ∧ P t)
      (fun _ t => ¬ Replicable mode survivor group ∧ P t) := by
  induction group with
  | nil => exact Program.Spec.pure fun t h => ⟨fun g hg => absurd hg List.not_mem_nil, h⟩
  | cons g group ih =>
    have hiff : (g.dplace.isReplicated = true → mode = .read ∧ survivor = g.dplace) →
        (Replicable mode survivor (g :: group) ↔ Replicable mode survivor group) := by
      intro hg
      constructor
      · exact fun h g' hg' => h g' (List.mem_cons_of_mem _ hg')
      · intro h g' hg'
        rcases List.mem_cons.mp hg' with rfl | hg'
        · exact hg
        · exact h g' hg'
    have hrest : (g.dplace.isReplicated = true → mode = .read ∧ survivor = g.dplace) →
        Program.Spec P (checkGroup mode survivor group) (fun _ t => Replicable mode survivor (g :: group) ∧ P t)
          (fun _ t => ¬ Replicable mode survivor (g :: group) ∧ P t) := by
      intro hg
      rw [hiff hg]
      exact ih
    unfold checkGroup
    split
    · rename_i hreplicated
      split
      · rename_i hmode
        exact Program.Spec.exit fun t h => ⟨fun hall => hmode (hall g List.mem_cons_self hreplicated).1, h⟩
      split
      · rename_i hplace
        exact Program.Spec.exit fun t h => ⟨fun hall => hplace (hall g List.mem_cons_self hreplicated).2, h⟩
      · rename_i hmode hplace
        exact hrest fun _ => ⟨not_not.mp hmode, not_not.mp hplace⟩
    · rename_i hreplicated
      exact hrest fun h => absurd h hreplicated

variable {tables : Tables} {foreseen : Option Tables} {next : Tables → Option Tables}

theorem Failed.bind {t : Session} (h : Failed n foreseen t) : Failed n (foreseen.bind next) t :=
  ⟨h.1, by rw [h.2, Option.bind_none]⟩

theorem Foreseen.bind {α : Type} {m : Acquiring α}
    (h : ∀ tables, Program.Spec (At n tables) m (fun _ => Foreseen n (next tables)) fun _ => Failed n (next tables)) :
    Program.Spec (Foreseen n foreseen) m (fun _ => Foreseen n (foreseen.bind next))
      fun _ => Failed n (foreseen.bind next) := by
  rintro t ⟨tables, rfl, ht⟩
  exact h tables t ht

theorem newInstance_spec {data : ℕ} {dplace : Place} {r : Rejection → Session → Prop} :
    Program.Spec (At n tables) (findUnusedInstanceId data dplace)
      (fun id t => id = (newInstance data dplace tables).1 ∧ At n (newInstance data dplace tables).2 t) r := by
  rintro t ⟨hcount, rfl⟩
  exact ⟨rfl, hcount, rfl⟩

theorem findInstanceId_spec {data : ℕ} {dplace : Place} {r : Rejection → Session → Prop} :
    Program.Spec (At n tables) (findInstanceId data dplace)
      (fun id t => id = (instanceAt data dplace tables).1 ∧ At n (instanceAt data dplace tables).2 t) r := by
  refine (Program.Spec.state (q := fun s t => s.tables = tables ∧ At n tables t) fun _ h => ⟨h.2, h⟩).bind fun s => ?_
  by_cases htables : s.tables = tables
  swap
  · exact fun t ht => absurd ht.1 htables
  subst htables
  cases hfind : (s.tables data).findIdx? fun slot => slot.used && slot.dplace = dplace with
  | some id =>
    simp only [instanceAt, hfind]
    exact Program.Spec.pure fun _ h => ⟨rfl, h.2⟩
  | none =>
    simp only [instanceAt, hfind]
    exact newInstance_spec.pre fun _ h => h.2

theorem fetchData_spec {data instanceId : ℕ} {mode : AccessMode} {dplace : Place} :
    Program.Spec (At n tables) (fetchData M data instanceId mode dplace)
      (fun _ => Foreseen n (fetched M data instanceId mode dplace tables))
      (fun _ => Failed n (fetched M data instanceId mode dplace tables)) := by
  rintro t ⟨hcount, rfl⟩
  simp only [fetchData, fetched]
  generalize M.fetch data instanceId mode dplace t.tables = out
  obtain ⟨done, tables⟩ := out
  cases done with
  | true => exact ⟨tables, rfl, hcount, rfl⟩
  | false => exact ⟨hcount, rfl⟩

theorem fetchMembers_spec {data : ℕ} {mode : AccessMode} (members processed : List ℕ) (tables : Tables) :
    Program.Spec (At n tables) (fetchMembers M data mode processed members)
      (fun _ => Foreseen n (fetchedMembers M data mode processed members tables))
      (fun _ => Failed n (fetchedMembers M data mode processed members tables)) := by
  induction members generalizing processed tables with
  | nil => exact Program.Spec.pure fun _ h => ⟨tables, rfl, h⟩
  | cons member members ih =>
    refine findInstanceId_spec.bind fun im => ?_
    unfold fetchedMembers
    by_cases him : im = (instanceAt data (.ordinary member) tables).1
    swap
    · exact fun t ht => absurd ht.1 him
    rw [← him]
    refine Program.Spec.pre ?_ fun _ h => h.2
    unfold fetchOnce
    split
    · refine Program.Spec.bind (q := fun processed' t => processed' = processed ∧
        At n (instanceAt data (.ordinary member) tables).2 t) (Program.Spec.pure fun _ h => ⟨rfl, h⟩) ?_
      rintro processed' t ⟨rfl, ht⟩
      exact ih processed' _ t ht
    · refine Program.Spec.bind (q := fun processed' t => processed' = processed ++ [im] ∧ Foreseen n
        (fetched M data im mode (.ordinary member) (instanceAt data (.ordinary member) tables).2) t) ?_ ?_
      · refine (fetchData_spec.weaken (fun _ h => h) (fun _ _ h => h) fun _ _ h => h.bind).bind fun _ => ?_
        exact Program.Spec.pure fun _ h => ⟨rfl, h⟩
      · rintro processed' t ⟨rfl, ht⟩
        exact Foreseen.bind (fun tables => ih (processed ++ [im]) tables) t ht

theorem acquireSurvivor_spec {mode : AccessMode} {survivor : Dep} :
    Program.Spec (At n tables) (acquireSurvivor M task mode survivor)
      (fun _ => Foreseen n (fetchedSurvivor M task mode survivor tables))
      (fun _ => Failed n (fetchedSurvivor M task mode survivor tables)) := by
  unfold acquireSurvivor fetchedSurvivor
  dsimp only
  cases M.replicas (task.resolved survivor.dplace) with
  | nil =>
    dsimp only
    split
    · refine newInstance_spec.bind ?_
      rintro _ t ⟨rfl, ht⟩
      exact fetchData_spec.returning t ht
    · refine findInstanceId_spec.bind ?_
      rintro _ t ⟨rfl, ht⟩
      exact fetchData_spec.returning t ht
  | cons member members =>
    exact (fetchMembers_spec _ _ _).returning

/-- **A run is acquired if it fits** and no fetch throws. -/
theorem acquireGroup_spec {base : ℕ} {first : Dep} {group : List Dep} (groups : List (List Dep)) :
    Program.Spec (At n tables) (acquireGroup M task base first group)
      (fun _ t => Fits (first :: group) ∧
        ∃ tables', fetchedRuns M task ((first :: group) :: groups) tables = fetchedRuns M task groups tables' ∧
          At n tables' t)
      (fun _ t => t.taskCount = n ∧
        (Fits (first :: group) → fetchedRuns M task ((first :: group) :: groups) tables = none)) := by
  refine ((mergeModes_spec _ _).weaken (fun _ h => h) (fun _ _ h => h) ?_).bind fun mode => ?_
  · rintro _ t ⟨hnone, hat⟩
    refine ⟨hat.1, ?_⟩
    rintro ⟨mode, hmode, -⟩
    exact absurd (hnone.symm.trans hmode) (by simp)
  refine ((checkGroup_spec mode _ _).weaken (fun _ h => h) (fun _ _ h => h) ?_).bind fun _ => ?_
  · rintro _ t ⟨hnot, hmode, hat⟩
    refine ⟨hat.1, ?_⟩
    rintro ⟨mode', hmode', hreplicable⟩
    rw [hmode, Option.some.injEq] at hmode'
    exact absurd (hmode' ▸ hreplicable) hnot
  by_cases hmode : mergeAll first.mode (group.map (·.mode)) = some mode
  swap
  · exact fun t ht => absurd ht.2.1 hmode
  by_cases hreplicable : Replicable mode ((first :: group).getLast (List.cons_ne_nil first group)).dplace
      (first :: group)
  swap
  · exact fun t ht => absurd ht.1 hreplicable
  have hfits : Fits (first :: group) := ⟨mode, hmode, hreplicable⟩
  refine (Program.Spec.change (q := fun _ => At n tables) fun t h => h.2.2).bind fun _ => ?_
  refine Program.Spec.bind (q := fun _ => At n tables) (Program.Spec.change fun t h => ⟨h.1, h.2⟩) fun _ => ?_
  simp only [fetchedRuns, hmode, Option.getD_some]
  refine (acquireSurvivor_spec.weaken (fun _ h => h) (fun _ _ h => ?_) fun _ _ h => ?_).returning
  · obtain ⟨tables', hforeseen, hat⟩ := h
    exact ⟨hfits, tables', by rw [hforeseen, Option.bind_some], hat⟩
  · exact ⟨h.1, fun _ => h.bind.2⟩

theorem acquireGroups_spec (groups : List (List Dep)) (base : ℕ) (tables : Tables) :
    Program.Spec (At n tables) (acquireGroups M task base groups)
      (fun _ t => (∀ group ∈ groups, Fits group) ∧ Foreseen n (fetchedRuns M task groups tables) t)
      (fun _ t => t.taskCount = n ∧
        ((∀ group ∈ groups, Fits group) → fetchedRuns M task groups tables = none)) := by
  induction groups generalizing base tables with
  | nil => exact Program.Spec.pure fun _ h => ⟨fun _ hg => absurd hg List.not_mem_nil, tables, rfl, h⟩
  | cons group groups ih =>
    have hcons : (∀ g ∈ group :: groups, Fits g) ↔ Fits group ∧ ∀ g ∈ groups, Fits g := List.forall_mem_cons
    rw [hcons]
    cases group with
    | nil =>
      refine (ih base tables).weaken (fun _ h => h) (fun _ _ h => ⟨⟨trivial, h.1⟩, h.2⟩) fun _ _ h => ⟨h.1, ?_⟩
      exact fun hall => h.2 hall.2
    | cons first group =>
      refine ((acquireGroup_spec groups).weaken (fun _ h => h) (fun _ _ h => h) fun _ _ h =>
        ⟨h.1, fun hall => h.2 hall.1⟩).bind fun deps => ?_
      rintro t ⟨hfits, tables', hforeseen, hat⟩
      rw [hforeseen]
      exact ((ih _ tables').weaken (fun _ h => h) (fun _ _ h => ⟨⟨hfits, h.1⟩, h.2⟩) fun _ _ h =>
        ⟨h.1, fun hall => h.2 hall.2⟩).returning t hat

/-! ## 3. All of it -/

/-- A task begins with nothing of its own. -/
def Session.start (s : Session) : Session := { s with trace := [], unskipped := [] }

/-- No mutex is held, no reference or task is counted, and no place is active that was not before. -/
structure Untouched (s t : Session) : Prop where
  held : t.held = s.held
  refcnt : t.refcnt = s.refcnt
  taskCount : t.taskCount = s.taskCount
  active : t.active = s.active

/-- A task that is rejected leaves nothing behind. -/
def LeavesNothing (M : Machine) (task : Task) (s : Session) : Prop :=
  ∀ e t, acquire M task s.start = (.error e, t) → Untouched s t

/-- The place can be activated, the runs of dependencies fit, and no fetch throws. -/
def Smooth (M : Machine) (task : Task) (s : Session) : Prop :=
  M.activates task.execPlace.id = true ∧ (∀ group ∈ groups (M.sort (indexed task.deps)), Fits group) ∧
    ∃ tables, fetchedRuns M task (groups (M.sort (indexed task.deps))) s.tables = some tables

theorem addRefs_at (deps : List DepSpec) {s : Session} (h : At n tables s) :
    At n tables (deps.foldl (fun s dep => s.addRef dep.data) s) := by
  induction deps generalizing s with
  | nil => exact h
  | cons dep deps ih => exact ih h

/-- What is left of `acquire` for a task that has been admitted. -/
def admitted (M : Machine) (task : Task) : Acquiring (List Dep) := do
  activate M task.execPlace
  Program.change fun s => task.deps.foldl (fun s dep => s.addRef dep.data) s
  let deps ← acquireGroups M task 0 (groups (M.sort (indexed task.deps)))
  Program.change fun s => deps.foldl (fun s dep => s.removeRef dep.data) s
  pure (propagate none deps.reverse).reverse

/-- The task in the count. -/
def counted (s : Session) : Session := { s with taskCount := s.taskCount + 1 }

/-- **The first checks decide** before anything is touched. -/
theorem acquire_cases (M : Machine) (task : Task) (s : Session) :
    task.Rejected s ∧ (∃ e, acquire M task s = (.error e, s)) ∨
    ¬ task.Rejected s ∧ acquire M task s = admitted M task (counted s) := by
  unfold acquire
  by_cases hphase : task.phase = .setup
  swap
  · rw [if_pos hphase]
    exact Or.inl ⟨Or.inl hphase, _, rfl⟩
  rw [if_neg (not_not.mpr hphase)]
  rcases ensureTaskDepsInitialized_cases 0 task.deps s with ⟨hinit, hrun⟩ | ⟨⟨dep, hmem, hdep⟩, e, hrun⟩
  swap
  · refine Or.inl ⟨Or.inr ⟨dep, hmem, Or.inl hdep⟩, e, ?_⟩
    simp only [bind, hrun]
  rcases validate_cases task.context task.deps s with ⟨hvalid, hrun'⟩ | ⟨⟨dep, hmem, hdep⟩, e, hrun'⟩
  swap
  · refine Or.inl ⟨Or.inr ⟨dep, hmem, Or.inr hdep⟩, e, ?_⟩
    simp only [bind, hrun, hrun']
  refine Or.inr ⟨?_, ?_⟩
  · rintro (hnot | ⟨dep, hmem, hdep | hdep⟩)
    · exact hnot hphase
    · rw [hinit dep hmem] at hdep
      exact absurd hdep (by decide)
    · exact hvalid dep hmem hdep
  · simp only [bind, hrun, hrun']
    rfl

/-- **Later, a task is acquired if all goes smoothly.** -/
theorem admitted_spec : Program.Spec (At n tables) (admitted M task)
    (fun _ _ => M.activates task.execPlace.id = true ∧
      (∀ group ∈ groups (M.sort (indexed task.deps)), Fits group) ∧
        ∃ tables', fetchedRuns M task (groups (M.sort (indexed task.deps))) tables = some tables')
    (fun _ t => t.taskCount = n ∧ (M.activates task.execPlace.id = true →
      (∀ group ∈ groups (M.sort (indexed task.deps)), Fits group) →
        fetchedRuns M task (groups (M.sort (indexed task.deps))) tables = none)) := by
  refine Program.Spec.bind (q := fun _ t => M.activates task.execPlace.id = true ∧ At n tables t) ?_ fun _ => ?_
  · unfold activate
    split
    · rename_i hactivates
      exact Program.Spec.change fun t h => ⟨hactivates, h⟩
    · rename_i hactivates
      exact Program.Spec.exit fun t h => ⟨h.1, fun hall => absurd hall hactivates⟩
  by_cases hactivates : M.activates task.execPlace.id = true
  swap
  · exact fun t ht => absurd ht.1 hactivates
  refine (Program.Spec.change (q := fun _ => At n tables) fun t h => addRefs_at task.deps h.2).bind fun _ => ?_
  refine ((acquireGroups_spec _ 0 tables).weaken (fun _ h => h) (fun _ _ h => h) fun _ _ h => ⟨h.1, fun _ => h.2⟩).bind
    fun deps => ?_
  refine (Program.Spec.change (q := fun _ _ => (∀ group ∈ groups (M.sort (indexed task.deps)), Fits group) ∧
    ∃ tables', fetchedRuns M task (groups (M.sort (indexed task.deps))) tables = some tables') fun t h => ?_).bind
      fun _ => Program.Spec.pure fun t h => ⟨hactivates, h⟩
  obtain ⟨hfits, tables', hforeseen, -⟩ := h
  exact ⟨hfits, tables', hforeseen⟩

/-- **When a rejected task leaves nothing behind**: if the first checks reject it, or if it is not rejected. -/
theorem acquire_leaves_nothing_iff (M : Machine) (task : Task) (s : Session) :
    LeavesNothing M task s ↔ task.Rejected s ∨ Smooth M task s := by
  rcases acquire_cases M task s.start with ⟨hrejected, e, hrun⟩ | ⟨hadmitted, hrun⟩
  · refine iff_of_true (fun e' t h => ?_) (Or.inl hrejected)
    rw [hrun] at h
    cases h
    exact ⟨rfl, rfl, rfl, rfl⟩
  have hspec := (admitted_spec : Program.Spec (At (s.taskCount + 1) s.tables) (admitted M task) _ _)
    (counted s.start) ⟨rfl, rfl⟩
  rw [← hrun] at hspec
  revert hspec
  unfold LeavesNothing Smooth
  generalize acquire M task s.start = out
  obtain ⟨res, t⟩ := out
  intro hspec
  cases res with
  | ok deps => exact iff_of_true (fun e t' h => nomatch h) (Or.inr hspec)
  | error e =>
    refine iff_of_false (fun h => ?_) ?_
    · have hcount := (h e t rfl).taskCount
      rw [hspec.1] at hcount
      exact absurd hcount (Nat.succ_ne_self _)
    · rintro (h | ⟨hactivates, hfits, tables, hforeseen⟩)
      · exact hadmitted h
      · rw [hspec.2 hactivates hfits] at hforeseen
        exact absurd hforeseen (by simp)

/-- A machine on which nothing fails. -/
def calm : Machine where
  members _ _ := [0, 1]
  sort deps := deps.insertionSort fun a b => a.data ≤ b.data
  sort_perm := List.perm_insertionSort _
  sort_sorted deps := by
    have : Std.Total fun a b : Dep => a.data ≤ b.data := ⟨fun a b => Nat.le_total a.data b.data⟩
    have : IsTrans Dep fun a b => a.data ≤ b.data := ⟨fun a b c => Nat.le_trans⟩
    exact List.pairwise_insertionSort (fun a b : Dep => a.data ≤ b.data) deps
  activates _ := true
  fetch _ _ _ _ tables := (true, tables)

/-- A task that reads a logical data at a replicated place and writes it too. -/
def upgraded : Task where
  phase := .setup
  context := 0
  deps := [⟨1, .read, .replicated 0 15⟩, ⟨1, .write, .affine⟩]
  execPlace := ⟨0, 2, 0⟩
  affineDataPlace := .ordinary 0

/-- Nothing has happened. -/
def fresh : Session where
  info _ := ⟨"x", true, none, 0⟩
  tables _ := []
  refcnt _ := 0
  held := []
  taskCount := 0
  active := []
  trace := []
  unskipped := []

/-- The task is rejected when its references have been counted and its place is active. -/
theorem upgraded_leaves_something : ¬ LeavesNothing calm upgraded fresh := by
  intro h
  exact absurd (h _ _ rfl).taskCount (by decide)

end Cccl.Stf.Acquire
