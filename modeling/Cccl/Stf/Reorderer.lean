/-
# Reordering tasks by upward rank

`heft_reorderer` computes the upward rank of each task from the ranks of its successors, and then takes the tasks that are
ready in the order of their ranks.  Both loops go through a worklist (`Worklist`): the first one from the tasks without
successors backwards, the second one from those without predecessors on.

The second loop does not depend on the ranks for more than the choice: whatever they are, it leaves the tasks in an order
in which each one comes after its predecessors.  The first loop recognises a rank that was computed by its being different
from `-1`.  No sum of costs is `-1` if no cost is negative, and then each rank is computed, once.
-/
import Cccl.Lib.Worklist
import Mathlib.Algebra.Order.Ring.Rat

namespace Cccl.Stf.Reorderer

/-! ## 1. The functions -/

/-- The numbers that ranks are computed with: `0`, `-1`, the cost of communication, and the sum of two of them. -/
structure Ranks (R : Type) where
  zero : R
  unset : R
  commCost : R
  add : R → R → R

/-- `reorderer_payload`; of the dependencies it has the footprint. -/
structure Payload (R : Type) where
  symbol : String
  mappingId : ℤ
  successors : List ℤ
  predecessors : List ℤ
  footprint : ℕ
  done : Bool
  doneExecution : Bool
  upwardRank : R

/-- How the functions can fail: a key is not in the map, or an assertion does not hold.  A loop can also go on for longer
than is allowed for it. -/
inductive Error where
  | outOfRange
  | assertion
  | outOfFuel
  deriving DecidableEq

abbrev TaskMap (R : Type) : Type := ℤ → Option (Payload R)

/-- `task_map.at`. -/
def TaskMap.at {R : Type} (taskMap : TaskMap R) (id : ℤ) : Except Error (Payload R) :=
  match taskMap id with
  | some t => .ok t
  | none => .error .outOfRange

section

variable {R : Type} [LinearOrder R] (A : Ranks R) (statistics : String → ℕ → R)

/-- The state of `calculate_upward_ranks`. -/
structure RankState (R : Type) where
  taskMap : TaskMap R
  workList : List ℤ
  tasksDone : List ℤ

/-- The tasks without successors. -/
def leaves (taskMap : TaskMap R) : List ℤ → Except Error (List ℤ)
  | [] => .ok []
  | id :: tasks => do
    let t ← taskMap.at id
    let rest ← leaves taskMap tasks
    .ok (if t.successors.length = 0 then t.mappingId :: rest else rest)

/-- The second term of the rank. -/
def secondTerm (taskMap : TaskMap R) : List ℤ → R → Except Error R
  | [], second => .ok second
  | s :: successors, second => do
    let succ ← taskMap.at s
    if succ.upwardRank = A.unset then .error .assertion
    else secondTerm taskMap successors (max second (A.add A.commCost succ.upwardRank))

/-- The cost of a task. -/
def taskCost (t : Payload R) : R :=
  if t.symbol.startsWith "task " then A.zero else statistics t.symbol t.footprint

/-- Whether all the successors have ranks. -/
def addIt (taskMap : TaskMap R) : List ℤ → Except Error Bool
  | [] => .ok true
  | s :: successors => do
    let succ ← taskMap.at s
    if succ.upwardRank = A.unset then .ok false else addIt taskMap successors

/-- The predecessors are pushed if they can have ranks now. -/
def pushPredecessors (taskMap : TaskMap R) (tasksDone : List ℤ) : List ℤ → List ℤ → Except Error (List ℤ)
  | [], workList => .ok workList
  | p :: predecessors, workList => do
    let pred ← taskMap.at p
    if p ∈ tasksDone then pushPredecessors taskMap tasksDone predecessors workList
    else
      let add ← addIt A taskMap pred.successors
      pushPredecessors taskMap tasksDone predecessors (if add then workList ++ [pred.mappingId] else workList)

/-- One round of the loop: the rank of the first task in the queue. -/
def rankStep (taskMap : TaskMap R) (front : ℤ) (workList tasksDone : List ℤ) : Except Error (RankState R) := do
  let current ← taskMap.at front
  let tasksDone := tasksDone ++ [current.mappingId]
  let current := { current with done := true }
  let taskMap := Function.update taskMap front (some current)
  let second ← secondTerm A taskMap current.successors A.zero
  let current := { current with upwardRank := A.add (taskCost A statistics current) second }
  let taskMap := Function.update taskMap front (some current)
  let workList ← pushPredecessors A taskMap tasksDone current.predecessors workList
  .ok ⟨taskMap, workList, tasksDone⟩

def rankLoop (fuel : ℕ) (s : RankState R) : Except Error (RankState R) :=
  match s.workList with
  | [] => .ok s
  | front :: workList =>
    match fuel with
    | 0 => .error .outOfFuel
    | fuel + 1 => do
      let s ← rankStep A statistics s.taskMap front workList s.tasksDone
      rankLoop fuel s

def calculateUpwardRanks (fuel : ℕ) (tasks : List ℤ) (taskMap : TaskMap R) : Except Error (RankState R) := do
  let workList ← leaves taskMap tasks
  rankLoop A statistics fuel ⟨taskMap, workList, []⟩

/-- A priority queue: what is taken out of it is in it, and has no priority below another one. -/
structure PriorityQueue (R : Type) [LinearOrder R] where
  pop : List (ℤ × R) → Option ((ℤ × R) × List (ℤ × R))
  pop_nil : pop [] = none
  pop_cons (p : ℤ × R) (queue : List (ℤ × R)) : ∃ top rest, pop (p :: queue) = some (top, rest) ∧
    (p :: queue).Perm (top :: rest) ∧ ∀ q ∈ rest, q.2 ≤ top.2

/-- The state of `rearrange_tasks`. -/
structure ScheduleState (R : Type) where
  taskMap : TaskMap R
  readyTasks : List (ℤ × R)
  tasksDone : List ℤ
  actualOrder : List ℤ

/-- The tasks without predecessors. -/
def roots (taskMap : TaskMap R) : List ℤ → Except Error (List (ℤ × R))
  | [] => .ok []
  | id :: tasks => do
    let t ← taskMap.at id
    let rest ← roots taskMap tasks
    .ok (if t.predecessors.length = 0 then (t.mappingId, t.upwardRank) :: rest else rest)

/-- Whether all the predecessors are done. -/
def isReadyNow (taskMap : TaskMap R) : List ℤ → Bool → Except Error Bool
  | [], isReady => .ok isReady
  | p :: predecessors, isReady => do
    let pred ← taskMap.at p
    isReadyNow taskMap predecessors (if pred.doneExecution then isReady else false)

/-- The successors are pushed if they are ready now. -/
def pushSuccessors (taskMap : TaskMap R) (tasksDone : List ℤ) :
    List ℤ → List (ℤ × R) → Except Error (List (ℤ × R))
  | [], readyTasks => .ok readyTasks
  | s :: successors, readyTasks =>
    if s ∈ tasksDone then pushSuccessors taskMap tasksDone successors readyTasks
    else do
      let succ ← taskMap.at s
      let isReady ← isReadyNow taskMap succ.predecessors true
      pushSuccessors taskMap tasksDone successors (if isReady then readyTasks ++ [(s, succ.upwardRank)] else readyTasks)

/-- One round of the loop: the task with this id is next. -/
def scheduleStep (taskMap : TaskMap R) (id : ℤ) (readyTasks : List (ℤ × R)) (tasksDone actualOrder : List ℤ) :
    Except Error (ScheduleState R) := do
  let current ← taskMap.at id
  let current := { current with doneExecution := true }
  let taskMap := Function.update taskMap id (some current)
  let tasksDone := tasksDone ++ [id]
  let readyTasks ← pushSuccessors taskMap tasksDone current.successors readyTasks
  .ok ⟨taskMap, readyTasks, tasksDone, actualOrder ++ [id]⟩

def scheduleLoop (Q : PriorityQueue R) (fuel : ℕ) (s : ScheduleState R) : Except Error (ScheduleState R) :=
  match Q.pop s.readyTasks with
  | none => .ok s
  | some ((id, _), readyTasks) =>
    match fuel with
    | 0 => .error .outOfFuel
    | fuel + 1 => do
      let s ← scheduleStep s.taskMap id readyTasks s.tasksDone s.actualOrder
      scheduleLoop Q fuel s

def rearrangeTasks (Q : PriorityQueue R) (fuel : ℕ) (tasks : List ℤ) (taskMap : TaskMap R) :
    Except Error (List ℤ × TaskMap R) := do
  let readyTasks ← roots taskMap tasks
  let s ← scheduleLoop Q fuel ⟨taskMap, readyTasks, [], []⟩
  .ok (s.actualOrder, s.taskMap)

def reorderTasks (Q : PriorityQueue R) (fuel : ℕ) (tasks : List ℤ) (taskMap : TaskMap R) :
    Except Error (List ℤ × TaskMap R) := do
  let s ← calculateUpwardRanks A statistics fuel tasks taskMap
  rearrangeTasks Q fuel tasks s.taskMap

end

/-! ## 2. Graphs of tasks -/

section

variable {R : Type}

def successorsOf (taskMap : TaskMap R) (id : ℤ) : List ℤ :=
  match taskMap id with
  | some t => t.successors
  | none => []

def predecessorsOf (taskMap : TaskMap R) (id : ℤ) : List ℤ :=
  match taskMap id with
  | some t => t.predecessors
  | none => []

/-- The map has the tasks of a finite graph without cycles, none of which was looked at yet. -/
structure TaskGraph (A : Ranks R) (tasks : List ℤ) (taskMap : TaskMap R) : Prop where
  nodup : tasks.Nodup
  mem (id : ℤ) : id ∈ tasks ↔ ∃ t, taskMap id = some t
  fresh (id : ℤ) (t : Payload R) : taskMap id = some t →
    t.mappingId = id ∧ t.upwardRank = A.unset ∧ t.doneExecution = false
  sets (id : ℤ) (t : Payload R) : taskMap id = some t → t.successors.Nodup ∧ t.predecessors.Nodup
  closed (id : ℤ) (t : Payload R) : taskMap id = some t →
    (∀ s ∈ t.successors, s ∈ tasks) ∧ ∀ p ∈ t.predecessors, p ∈ tasks
  inverse (a b : ℤ) : b ∈ successorsOf taskMap a ↔ a ∈ predecessorsOf taskMap b
  acyclic (id : ℤ) : ¬ Relation.TransGen (fun a b => b ∈ successorsOf taskMap a) id id

variable {A : Ranks R} {tasks : List ℤ} {m taskMap : TaskMap R}

theorem successorsOf_some {id : ℤ} {t : Payload R} (h : taskMap id = some t) : successorsOf taskMap id = t.successors := by
  rw [successorsOf, h]

theorem predecessorsOf_some {id : ℤ} {t : Payload R} (h : taskMap id = some t) :
    predecessorsOf taskMap id = t.predecessors := by
  rw [predecessorsOf, h]

theorem at_some {id : ℤ} {t : Payload R} (h : taskMap id = some t) : taskMap.at id = .ok t := by
  rw [TaskMap.at, h]

theorem TaskGraph.matched_successors (h : TaskGraph A tasks m) :
    Worklist.Matched (successorsOf m) (predecessorsOf m) tasks := by
  constructor
  · intro id hid
    obtain ⟨t, ht⟩ := (h.mem id).mp hid
    rw [predecessorsOf_some ht]
    exact (h.sets id t ht).2
  · intro id hid p
    obtain ⟨t, ht⟩ := (h.mem id).mp hid
    rw [← h.inverse]
    refine ⟨fun hp => ⟨(h.closed id t ht).2 p ?_, hp⟩, fun hp => hp.2⟩
    rw [← predecessorsOf_some ht]
    exact (h.inverse p id).mp hp

theorem TaskGraph.matched_predecessors (h : TaskGraph A tasks m) :
    Worklist.Matched (predecessorsOf m) (successorsOf m) tasks := by
  constructor
  · intro id hid
    obtain ⟨t, ht⟩ := (h.mem id).mp hid
    rw [successorsOf_some ht]
    exact (h.sets id t ht).1
  · intro id hid s
    obtain ⟨t, ht⟩ := (h.mem id).mp hid
    rw [h.inverse]
    refine ⟨fun hs => ⟨(h.closed id t ht).1 s ?_, hs⟩, fun hs => hs.2⟩
    rw [← successorsOf_some ht]
    exact (h.inverse id s).mpr hs

/-- The fields of a task that say what it is. -/
structure Alike (t t' : Payload R) : Prop where
  symbol : t'.symbol = t.symbol
  mappingId : t'.mappingId = t.mappingId
  successors : t'.successors = t.successors
  predecessors : t'.predecessors = t.predecessors
  footprint : t'.footprint = t.footprint

/-- The map has the same tasks. -/
def Keeps (m taskMap : TaskMap R) : Prop := ∀ id t, m id = some t → ∃ t', taskMap id = some t' ∧ Alike t t'

theorem Keeps.refl (m : TaskMap R) : Keeps m m := fun _ t ht => ⟨t, ht, ⟨rfl, rfl, rfl, rfl, rfl⟩⟩

theorem Keeps.update (h : Keeps m taskMap) {id : ℤ} {t t' : Payload R} (ht : m id = some t) (halike : Alike t t') :
    Keeps m (Function.update taskMap id (some t')) := by
  intro id' u hu
  rcases eq_or_ne id' id with rfl | hne
  · obtain rfl : u = t := Option.some.inj (hu.symm.trans ht)
    exact ⟨t', Function.update_self _ _ _, halike⟩
  · rw [Function.update_of_ne hne]
    exact h id' u hu

theorem Keeps.successorsOf (h : Keeps m taskMap) {id : ℤ} {t : Payload R} (ht : m id = some t) :
    successorsOf taskMap id = successorsOf m id := by
  obtain ⟨t', ht', halike⟩ := h id t ht
  rw [successorsOf_some ht', halike.successors, successorsOf_some ht]

theorem Keeps.predecessorsOf (h : Keeps m taskMap) {id : ℤ} {t : Payload R} (ht : m id = some t) :
    predecessorsOf taskMap id = predecessorsOf m id := by
  obtain ⟨t', ht', halike⟩ := h id t ht
  rw [predecessorsOf_some ht', halike.predecessors, predecessorsOf_some ht]

theorem leaves_eq (h : ∀ id t, taskMap id = some t → t.mappingId = id) :
    ∀ {ids : List ℤ}, (∀ id ∈ ids, ∃ t, taskMap id = some t) →
      leaves taskMap ids = .ok (ids.filter fun id => (successorsOf taskMap id).length = 0)
  | [], _ => rfl
  | id :: ids, hids => by
    obtain ⟨⟨t, ht⟩, hrest⟩ := List.forall_mem_cons.mp hids
    rw [leaves, at_some ht, leaves_eq h hrest, List.filter_cons, successorsOf_some ht]
    change Except.ok (if t.successors.length = 0 then t.mappingId :: _ else _) = _
    rw [h id t ht]
    simp only [decide_eq_true_eq]

theorem roots_spec (h : ∀ id t, m id = some t → t.mappingId = id) (hkeeps : Keeps m taskMap) :
    ∀ {ids : List ℤ}, (∀ id ∈ ids, ∃ t, m id = some t) →
      ∃ queue, roots taskMap ids = .ok queue ∧
        queue.map Prod.fst = ids.filter fun id => (predecessorsOf m id).length = 0
  | [], _ => ⟨[], rfl, rfl⟩
  | id :: ids, hids => by
    obtain ⟨⟨t, ht⟩, hrest⟩ := List.forall_mem_cons.mp hids
    obtain ⟨t', ht', halike⟩ := hkeeps id t ht
    obtain ⟨queue, hqueue, hmap⟩ := roots_spec h hkeeps hrest
    refine ⟨if t'.predecessors.length = 0 then (t'.mappingId, t'.upwardRank) :: queue else queue, ?_, ?_⟩
    · rw [roots, at_some ht', hqueue]
      rfl
    · rw [List.filter_cons, predecessorsOf_some ht, ← hmap, ← halike.predecessors]
      simp only [decide_eq_true_eq]
      split
      · rw [List.map_cons, halike.mappingId, h id t ht]
      · rfl

/-- The task was executed. -/
def Executed (taskMap : TaskMap R) (id : ℤ) : Prop := ∃ t, taskMap id = some t ∧ t.doneExecution = true

theorem isReadyNow_spec (predecessors : List ℤ) (isReady : Bool) (h : ∀ p ∈ predecessors, ∃ t, taskMap p = some t) :
    ∃ b, isReadyNow taskMap predecessors isReady = .ok b ∧
      (b = true ↔ isReady = true ∧ ∀ p ∈ predecessors, Executed taskMap p) := by
  induction predecessors generalizing isReady with
  | nil => exact ⟨isReady, rfl, by simp⟩
  | cons p predecessors ih =>
    obtain ⟨⟨t, ht⟩, hrest⟩ := List.forall_mem_cons.mp h
    obtain ⟨b, hb, hiff⟩ := ih (if t.doneExecution then isReady else false) hrest
    refine ⟨b, ?_, hiff.trans ?_⟩
    · rw [isReadyNow, at_some ht]
      exact hb
    · have hexecuted : Executed taskMap p ↔ t.doneExecution = true := by
        constructor
        · rintro ⟨u, hu, hdone⟩
          obtain rfl : u = t := Option.some.inj (hu.symm.trans ht)
          exact hdone
        · exact fun hdone => ⟨t, ht, hdone⟩
      rw [List.forall_mem_cons, hexecuted, ← and_assoc]
      refine and_congr_left' ?_
      cases t.doneExecution <;> simp

def rankOf (A : Ranks R) (taskMap : TaskMap R) (id : ℤ) : R :=
  match taskMap id with
  | some t => t.upwardRank
  | none => A.unset

theorem rankOf_update {id : ℤ} {t : Payload R} {s : ℤ} (hne : s ≠ id) :
    rankOf A (Function.update taskMap id (some t)) s = rankOf A taskMap s := by
  rw [rankOf, Function.update_of_ne hne, rankOf]

end

/-! ## 3. The ranks -/

section

variable {R : Type} [LinearOrder R] {A : Ranks R} {statistics : String → ℕ → R} {tasks : List ℤ} {m taskMap : TaskMap R}

/-- The task has a rank. -/
def Ranked (A : Ranks R) (taskMap : TaskMap R) (id : ℤ) : Prop := ∃ t, taskMap id = some t ∧ t.upwardRank ≠ A.unset

/-- The second term, from the ranks of the successors. -/
def secondOf (A : Ranks R) (taskMap : TaskMap R) (successors : List ℤ) (second : R) : R :=
  successors.foldl (fun second s => max second (A.add A.commCost (rankOf A taskMap s))) second

theorem secondTerm_eq (successors : List ℤ) (second : R) (h : ∀ s ∈ successors, Ranked A taskMap s) :
    secondTerm A taskMap successors second = .ok (secondOf A taskMap successors second) := by
  induction successors generalizing second with
  | nil => rfl
  | cons s successors ih =>
    obtain ⟨⟨t, ht, hrank⟩, hrest⟩ := List.forall_mem_cons.mp h
    have hrankOf : rankOf A taskMap s = t.upwardRank := by rw [rankOf, ht]
    rw [secondTerm, at_some ht]
    change (if t.upwardRank = A.unset then _ else _) = _
    rw [if_neg hrank, ih _ hrest, secondOf, secondOf, List.foldl_cons, hrankOf]

theorem addIt_spec (successors : List ℤ) (h : ∀ s ∈ successors, ∃ t, taskMap s = some t) :
    ∃ b, addIt A taskMap successors = .ok b ∧ (b = true ↔ ∀ s ∈ successors, Ranked A taskMap s) := by
  induction successors with
  | nil => exact ⟨true, rfl, iff_of_true rfl fun _ hs => absurd hs List.not_mem_nil⟩
  | cons s successors ih =>
    obtain ⟨⟨t, ht⟩, hrest⟩ := List.forall_mem_cons.mp h
    obtain ⟨b, hb, hiff⟩ := ih hrest
    rw [addIt, at_some ht]
    change ∃ b, (if t.upwardRank = A.unset then _ else _) = _ ∧ _
    by_cases hrank : t.upwardRank = A.unset
    · rw [if_pos hrank]
      refine ⟨false, rfl, iff_of_false Bool.false_ne_true fun hall => ?_⟩
      obtain ⟨u, hu, hne⟩ := hall s List.mem_cons_self
      obtain rfl : u = t := Option.some.inj (hu.symm.trans ht)
      exact hne hrank
    · rw [if_neg hrank]
      refine ⟨b, hb, hiff.trans ?_⟩
      rw [List.forall_mem_cons]
      exact ⟨fun hall => ⟨⟨t, ht, hrank⟩, hall⟩, fun hall => hall.2⟩

theorem pushPredecessors_spec {tasksDone : List ℤ} (predecessors workList : List ℤ)
    (h : ∀ p ∈ predecessors, ∃ t, taskMap p = some t ∧ t.mappingId = p ∧ ∀ s ∈ t.successors, ∃ u, taskMap s = some u) :
    ∃ new, pushPredecessors A taskMap tasksDone predecessors workList = .ok (workList ++ new) ∧
      new.Sublist predecessors ∧
      ∀ p, p ∈ new ↔ p ∈ predecessors ∧ p ∉ tasksDone ∧ ∀ s ∈ successorsOf taskMap p, Ranked A taskMap s := by
  induction predecessors generalizing workList with
  | nil =>
    refine ⟨[], ?_, List.Sublist.refl [], fun p => ?_⟩
    · rw [pushPredecessors, List.append_nil]
    · exact iff_of_false List.not_mem_nil fun hp => absurd hp.1 List.not_mem_nil
  | cons p predecessors ih =>
    obtain ⟨⟨t, ht, hid, hsucc⟩, hrest⟩ := List.forall_mem_cons.mp h
    obtain ⟨b, hb, hiff⟩ := addIt_spec (A := A) t.successors hsucc
    rw [← successorsOf_some ht] at hiff
    rw [pushPredecessors, at_some ht]
    change ∃ new, (if p ∈ tasksDone then _ else _) = _ ∧ _
    -- the first predecessor is added, or it is not
    by_cases hadd : p ∉ tasksDone ∧ b = true
    · obtain ⟨new, hnew, hsub, hmem⟩ := ih (workList ++ [t.mappingId]) hrest
      refine ⟨p :: new, ?_, hsub.cons_cons p, fun q => ?_⟩
      · rw [if_neg hadd.1, hb]
        change pushPredecessors A taskMap tasksDone predecessors (if b = true then _ else _) = _
        rw [if_pos hadd.2, hnew, hid, List.append_assoc, List.singleton_append]
      · rw [List.mem_cons, List.mem_cons, hmem, or_and_right]
        refine or_congr ⟨fun hq => ⟨hq, ?_⟩, fun hq => hq.1⟩ Iff.rfl
        rw [hq]
        exact ⟨hadd.1, hiff.mp hadd.2⟩
    · obtain ⟨new, hnew, hsub, hmem⟩ := ih workList hrest
      refine ⟨new, ?_, hsub.cons p, fun q => ?_⟩
      · by_cases hdone : p ∈ tasksDone
        · rw [if_pos hdone, hnew]
        · rw [if_neg hdone, hb]
          change pushPredecessors A taskMap tasksDone predecessors (if b = true then _ else _) = _
          rw [if_neg fun hb => hadd ⟨hdone, hb⟩, hnew]
      · rw [List.mem_cons, hmem, or_and_right]
        refine ⟨Or.inr, fun hq => hq.resolve_left ?_⟩
        rintro ⟨rfl, hdone, hall⟩
        exact hadd ⟨hdone, hiff.mpr hall⟩

theorem secondOf_congr {taskMap' : TaskMap R} {successors : List ℤ}
    (h : ∀ s ∈ successors, rankOf A taskMap s = rankOf A taskMap' s) (second : R) :
    secondOf A taskMap successors second = secondOf A taskMap' successors second := by
  induction successors generalizing second with
  | nil => rfl
  | cons s successors ih =>
    obtain ⟨hs, hrest⟩ := List.forall_mem_cons.mp h
    rw [secondOf, List.foldl_cons, hs]
    exact ih hrest _

/-- What holds in every round of the loop. -/
structure RankInv (A : Ranks R) (statistics : String → ℕ → R) (tasks : List ℤ) (m : TaskMap R) (s : RankState R) :
    Prop where
  keeps : Keeps m s.taskMap
  waiting (id : ℤ) (t : Payload R) : s.taskMap id = some t → t.doneExecution = false
  work : Worklist.Inv (successorsOf m) tasks s.workList s.tasksDone (Ranked A s.taskMap)
  value (id : ℤ) : id ∈ s.tasksDone → ∃ t, s.taskMap id = some t ∧
    rankOf A s.taskMap id = A.add (taskCost A statistics t) (secondOf A s.taskMap (successorsOf m id) A.zero)

/-- **A round of the loop** gives its rank to the first task in the queue. -/
theorem RankInv.step (h : TaskGraph A tasks m) {front : ℤ} {workList tasksDone : List ℤ}
    (hinv : RankInv A statistics tasks m ⟨taskMap, front :: workList, tasksDone⟩) :
    ∃ s, rankStep A statistics taskMap front workList tasksDone = .ok s ∧ RankInv A statistics tasks m s ∧
      s.tasksDone = tasksDone ++ [front] := by
  obtain ⟨hkeeps, hwaiting, hwork, hvalue⟩ := hinv
  dsimp only at hkeeps hwaiting hwork hvalue
  obtain ⟨hitem, hnot, hranked⟩ := (hwork.ready front).mp List.mem_cons_self
  obtain ⟨t, ht⟩ := (h.mem front).mp hitem
  obtain ⟨t', ht', halike⟩ := hkeeps front t ht
  have hid : t'.mappingId = front := halike.mappingId.trans (h.fresh front t ht).1
  have hother : ∀ s ∈ successorsOf m front, s ≠ front := by
    rintro s hs rfl
    exact hnot (hwork.marked s (hranked s hs))
  rw [successorsOf_some ht, ← halike.successors] at hranked hother
  -- the rank
  let marked : Payload R := { t' with done := true }
  let before := Function.update taskMap front (some marked)
  have hbefore : ∀ s ∈ t'.successors, Ranked A before s := by
    intro s hs
    obtain ⟨u, hu, hne⟩ := hranked s hs
    exact ⟨u, (Function.update_of_ne (hother s hs) _ _).trans hu, hne⟩
  have hsecond := secondTerm_eq t'.successors A.zero hbefore
  let ranked : Payload R := { marked with
    upwardRank := A.add (taskCost A statistics marked) (secondOf A before t'.successors A.zero) }
  let after := Function.update before front (some ranked)
  have hranked_alike : Alike t ranked := ⟨halike.1, halike.2, halike.3, halike.4, halike.5⟩
  have hmarked_alike : Alike t marked := ⟨halike.1, halike.2, halike.3, halike.4, halike.5⟩
  have hafter : Keeps m after := (hkeeps.update ht hmarked_alike).update ht hranked_alike
  have hsame : ∀ s, s ≠ front → after s = taskMap s := by
    intro s hs
    exact (Function.update_of_ne hs _ _).trans (Function.update_of_ne hs _ _)
  have hself : after front = some ranked := Function.update_self _ _ _
  -- the predecessors
  have hpreds : ∀ p ∈ t'.predecessors, ∃ u, after p = some u ∧ u.mappingId = p ∧
      ∀ s ∈ u.successors, ∃ w, after s = some w := by
    intro p hp
    rw [halike.predecessors] at hp
    obtain ⟨u, hu⟩ := (h.mem p).mp ((h.closed front t ht).2 p hp)
    obtain ⟨u', hu', hualike⟩ := hafter p u hu
    refine ⟨u', hu', hualike.mappingId.trans (h.fresh p u hu).1, fun s hs => ?_⟩
    rw [hualike.successors] at hs
    obtain ⟨w, hw⟩ := (h.mem s).mp ((h.closed p u hu).1 s hs)
    obtain ⟨w', hw', -⟩ := hafter s w hw
    exact ⟨w', hw'⟩
  obtain ⟨new, hnew, hsub, hmem⟩ := @pushPredecessors_spec _ _ A _ (tasksDone ++ [front]) t'.predecessors
    workList hpreds
  have hstep : rankStep A statistics taskMap front workList tasksDone =
      .ok ⟨after, workList ++ new, tasksDone ++ [front]⟩ := by
    rw [rankStep, at_some ht']
    change (secondTerm A before t'.successors A.zero).bind _ = _
    rw [hsecond]
    change (pushPredecessors A after (tasksDone ++ [t'.mappingId]) t'.predecessors workList).bind _ = _
    have hpushed : tasksDone ++ [t'.mappingId] = tasksDone ++ [front] := by rw [hid]
    rw [hpushed, hnew]
    rfl
  refine ⟨_, hstep, ⟨hafter, ?_, ?_, ?_⟩, rfl⟩
  · intro id u hu
    rcases eq_or_ne id front with rfl | hne
    · obtain rfl := Option.some.inj (hself.symm.trans hu)
      exact hwaiting id t' ht'
    · exact hwaiting id u ((hsame id hne).symm.trans hu)
  · have hmarked : ∀ z, Ranked A after z ↔ Ranked A taskMap z ∨ z = front ∧ ranked.upwardRank ≠ A.unset := by
      intro z
      rcases eq_or_ne z front with rfl | hne
      · constructor
        · rintro ⟨u, hu, hrank⟩
          obtain rfl := Option.some.inj (hself.symm.trans hu)
          exact Or.inr ⟨rfl, hrank⟩
        · rintro (hold | ⟨-, hrank⟩)
          · exact absurd (hwork.marked z hold) hnot
          · exact ⟨ranked, hself, hrank⟩
      · refine ⟨fun hz => Or.inl ?_, fun hz => ?_⟩
        · obtain ⟨u, hu, hrank⟩ := hz
          exact ⟨u, (hsame z hne).symm.trans hu, hrank⟩
        · obtain ⟨u, hu, hrank⟩ := hz.resolve_right fun hz => hne hz.1
          exact ⟨u, (hsame z hne).trans hu, hrank⟩
    refine hwork.step h.matched_successors (List.Perm.refl _) hmarked (hsub.nodup ?_) (fun y => ?_) (List.Perm.refl _)
    · rw [halike.predecessors]
      exact (h.sets front t ht).2
    · rw [hmem, predecessorsOf_some ht, halike.predecessors, List.mem_append, List.mem_singleton, not_or, and_assoc]
      refine and_congr_right fun hy => ?_
      obtain ⟨u, hu⟩ := (h.mem y).mp ((h.closed front t ht).2 y hy)
      rw [hafter.successorsOf hu]
  · intro id hdone
    have hsuccs : ∀ s ∈ successorsOf m id, s ≠ front := by
      rcases List.mem_append.mp hdone with hold | hfront
      · rintro s hs rfl
        obtain ⟨first, rest, rfl⟩ := List.append_of_mem hold
        have hin := hwork.ordered first id rest rfl s hs
        exact hnot (List.mem_append_left _ hin)
      · obtain rfl := List.mem_singleton.mp hfront
        rw [successorsOf_some ht, ← halike.successors]
        exact hother
    have hsecond' : secondOf A after (successorsOf m id) A.zero = secondOf A taskMap (successorsOf m id) A.zero := by
      refine secondOf_congr (fun s hs => ?_) _
      rw [rankOf, hsame s (hsuccs s hs), rankOf]
    rcases eq_or_ne id front with rfl | hne
    · refine ⟨ranked, hself, ?_⟩
      have hsecond'' : secondOf A before t'.successors A.zero = secondOf A taskMap t'.successors A.zero :=
        secondOf_congr (fun s hs => rankOf_update (hother s hs)) _
      have hrank : rankOf A after id = ranked.upwardRank := by rw [rankOf, hself]
      rw [hrank, hsecond', successorsOf_some ht, ← halike.successors, ← hsecond'']
      rfl
    · obtain ⟨u, hu, hrank⟩ := hvalue id ((List.mem_append.mp hdone).resolve_right fun hin => hne (List.mem_singleton.mp hin))
      have hrank' : rankOf A after id = rankOf A taskMap id := by rw [rankOf, hsame id hne, rankOf]
      refine ⟨u, (hsame id hne).trans hu, hrank'.trans ?_⟩
      rw [hsecond', ← hrank]

/-- **The loop ends**, and what holds in every round holds then. -/
theorem RankInv.loop (h : TaskGraph A tasks m) : ∀ {fuel : ℕ} {s : RankState R}, RankInv A statistics tasks m s →
    tasks.length ≤ fuel + s.tasksDone.length →
    ∃ s', rankLoop A statistics fuel s = .ok s' ∧ RankInv A statistics tasks m s' ∧ s'.workList = []
  | fuel, ⟨taskMap, [], tasksDone⟩, hinv, _ => ⟨_, by rw [rankLoop.eq_def], hinv, rfl⟩
  | 0, ⟨taskMap, front :: workList, tasksDone⟩, hinv, hfuel => by
    have := hinv.work.length_le
    simp only [List.length_cons] at this hfuel
    omega
  | fuel + 1, ⟨taskMap, front :: workList, tasksDone⟩, hinv, hfuel => by
    obtain ⟨s, hstep, hinv', hdone⟩ := hinv.step h
    have hleft : tasks.length ≤ fuel + s.tasksDone.length := by
      rw [hdone, List.length_append, List.length_singleton]
      dsimp only at hfuel
      omega
    obtain ⟨s', hloop, hinv'', hempty⟩ := hinv'.loop h hleft
    refine ⟨s', ?_, hinv'', hempty⟩
    rw [rankLoop.eq_def]
    change (rankStep A statistics taskMap front workList tasksDone).bind _ = _
    rw [hstep]
    exact hloop

/-- No cost is negative, and no sum of numbers that are not negative is. -/
structure NonNegative (A : Ranks R) (statistics : String → ℕ → R) : Prop where
  unset_lt : A.unset < A.zero
  add_nonneg (a b : R) : A.zero ≤ a → A.zero ≤ b → A.zero ≤ A.add a b
  cost (symbol : String) (footprint : ℕ) : A.zero ≤ statistics symbol footprint

theorem zero_le_secondOf (successors : List ℤ) {second : R} (h : A.zero ≤ second) :
    A.zero ≤ secondOf A taskMap successors second := by
  induction successors generalizing second with
  | nil => exact h
  | cons s successors ih => exact ih (h.trans (le_max_left _ _))

/-- A rank that was computed is not taken for one that was not. -/
theorem RankInv.ranked {s : RankState R} (hinv : RankInv A statistics tasks m s) (hpos : NonNegative A statistics) :
    ∀ id ∈ s.tasksDone, Ranked A s.taskMap id := by
  intro id hid
  obtain ⟨t, ht, hrank⟩ := hinv.value id hid
  rw [rankOf, ht] at hrank
  refine ⟨t, ht, (hpos.unset_lt.trans_le ?_).ne'⟩
  dsimp only at hrank
  rw [hrank]
  refine hpos.add_nonneg _ _ ?_ (zero_le_secondOf _ (le_refl _))
  unfold taskCost
  split
  · exact le_refl _
  · exact hpos.cost _ _

theorem calculateUpwardRanks_spec (h : TaskGraph A tasks m) {fuel : ℕ} (hfuel : tasks.length ≤ fuel) :
    ∃ s, calculateUpwardRanks A statistics fuel tasks m = .ok s ∧ RankInv A statistics tasks m s ∧ s.workList = [] := by
  have hleaves := leaves_eq (fun id t ht => (h.fresh id t ht).1) fun id hid => (h.mem id).mp hid
  have hinit : RankInv A statistics tasks m ⟨m, tasks.filter fun id => (successorsOf m id).length = 0, []⟩ := by
    refine ⟨Keeps.refl m, fun id t ht => (h.fresh id t ht).2.2, ?_, fun id hid => absurd hid List.not_mem_nil⟩
    refine Worklist.Inv.init (fun id hid => ?_) (h.nodup.filter _) fun id => ?_
    · obtain ⟨t, ht, hne⟩ := hid
      exact hne (h.fresh id t ht).2.1
    · rw [List.mem_filter, decide_eq_true_eq, List.length_eq_zero_iff]
  obtain ⟨s, hloop, hinv, hempty⟩ := RankInv.loop h hinit hfuel
  refine ⟨s, ?_, hinv, hempty⟩
  rw [calculateUpwardRanks, hleaves]
  exact hloop

/-! ## 4. The order -/

theorem pushSuccessors_spec {tasksDone : List ℤ} (successors : List ℤ) (readyTasks : List (ℤ × R))
    (h : ∀ s ∈ successors, ∃ t, taskMap s = some t ∧ ∀ p ∈ t.predecessors, ∃ u, taskMap p = some u) :
    ∃ new, pushSuccessors taskMap tasksDone successors readyTasks = .ok (readyTasks ++ new) ∧
      (new.map Prod.fst).Sublist successors ∧
      ∀ s, s ∈ new.map Prod.fst ↔
        s ∈ successors ∧ s ∉ tasksDone ∧ ∀ p ∈ predecessorsOf taskMap s, Executed taskMap p := by
  induction successors generalizing readyTasks with
  | nil =>
    refine ⟨[], ?_, List.Sublist.refl [], fun s => ?_⟩
    · rw [pushSuccessors, List.append_nil]
    · exact iff_of_false List.not_mem_nil fun hs => absurd hs.1 List.not_mem_nil
  | cons s successors ih =>
    obtain ⟨⟨t, ht, hpred⟩, hrest⟩ := List.forall_mem_cons.mp h
    obtain ⟨b, hb, hiff⟩ := isReadyNow_spec t.predecessors true hpred
    rw [← predecessorsOf_some ht] at hiff
    rw [pushSuccessors]
    -- the first successor is added, or it is not
    by_cases hadd : s ∉ tasksDone ∧ b = true
    · obtain ⟨new, hnew, hsub, hmem⟩ := ih (readyTasks ++ [(s, t.upwardRank)]) hrest
      refine ⟨(s, t.upwardRank) :: new, ?_, hsub.cons_cons s, fun q => ?_⟩
      · rw [if_neg hadd.1, at_some ht]
        change (isReadyNow taskMap t.predecessors true).bind _ = _
        rw [hb]
        change pushSuccessors taskMap tasksDone successors (if b = true then _ else _) = _
        rw [if_pos hadd.2, hnew, List.append_assoc, List.singleton_append]
      · rw [List.map_cons, List.mem_cons, List.mem_cons, hmem, or_and_right]
        refine or_congr ⟨fun hq => ⟨hq, ?_⟩, fun hq => hq.1⟩ Iff.rfl
        rw [hq]
        exact ⟨hadd.1, (hiff.mp hadd.2).2⟩
    · obtain ⟨new, hnew, hsub, hmem⟩ := ih readyTasks hrest
      refine ⟨new, ?_, hsub.cons s, fun q => ?_⟩
      · by_cases hdone : s ∈ tasksDone
        · rw [if_pos hdone, hnew]
        · rw [if_neg hdone, at_some ht]
          change (isReadyNow taskMap t.predecessors true).bind _ = _
          rw [hb]
          change pushSuccessors taskMap tasksDone successors (if b = true then _ else _) = _
          rw [if_neg fun hb => hadd ⟨hdone, hb⟩, hnew]
      · rw [List.mem_cons, hmem, or_and_right]
        refine ⟨Or.inr, fun hq => hq.resolve_left ?_⟩
        rintro ⟨rfl, hdone, hall⟩
        exact hadd ⟨hdone, hiff.mpr ⟨rfl, hall⟩⟩

/-- What holds in every round of the loop. -/
structure ScheduleInv (tasks : List ℤ) (m : TaskMap R) (s : ScheduleState R) : Prop where
  keeps : Keeps m s.taskMap
  work : Worklist.Inv (predecessorsOf m) tasks (s.readyTasks.map Prod.fst) s.actualOrder (Executed s.taskMap)
  executed : ∀ id ∈ s.actualOrder, Executed s.taskMap id
  done : s.tasksDone = s.actualOrder

/-- **A round of the loop** executes the task that was taken out of the queue. -/
theorem ScheduleInv.step (h : TaskGraph A tasks m) {s : ScheduleState R} (hinv : ScheduleInv tasks m s)
    {top : ℤ × R} {rest : List (ℤ × R)} (htake : s.readyTasks.Perm (top :: rest)) :
    ∃ s', scheduleStep s.taskMap top.1 rest s.tasksDone s.actualOrder = .ok s' ∧ ScheduleInv tasks m s' ∧
      s'.actualOrder = s.actualOrder ++ [top.1] := by
  obtain ⟨hkeeps, hwork, hexecuted, hdone⟩ := hinv
  obtain ⟨id, priority⟩ := top
  have htake' : (s.readyTasks.map Prod.fst).Perm (id :: rest.map Prod.fst) := htake.map Prod.fst
  obtain ⟨hitem, hnot, -⟩ := (hwork.ready id).mp (htake'.mem_iff.mpr List.mem_cons_self)
  obtain ⟨t, ht⟩ := (h.mem id).mp hitem
  obtain ⟨t', ht', halike⟩ := hkeeps id t ht
  let current : Payload R := { t' with doneExecution := true }
  let after := Function.update s.taskMap id (some current)
  have hafter : Keeps m after := hkeeps.update ht ⟨halike.1, halike.2, halike.3, halike.4, halike.5⟩
  have hself : after id = some current := Function.update_self _ _ _
  have hsame : ∀ z, z ≠ id → after z = s.taskMap z := fun z hz => Function.update_of_ne hz _ _
  have hsuccs : ∀ z ∈ t'.successors, ∃ u, after z = some u ∧ ∀ p ∈ u.predecessors, ∃ w, after p = some w := by
    intro z hz
    rw [halike.successors] at hz
    obtain ⟨u, hu⟩ := (h.mem z).mp ((h.closed id t ht).1 z hz)
    obtain ⟨u', hu', hualike⟩ := hafter z u hu
    refine ⟨u', hu', fun p hp => ?_⟩
    rw [hualike.predecessors] at hp
    obtain ⟨w, hw⟩ := (h.mem p).mp ((h.closed z u hu).2 p hp)
    obtain ⟨w', hw', -⟩ := hafter p w hw
    exact ⟨w', hw'⟩
  obtain ⟨new, hnew, hsub, hmem⟩ := @pushSuccessors_spec _ _ _ (s.tasksDone ++ [id]) t'.successors rest hsuccs
  have hmarked : ∀ z, Executed after z ↔ Executed s.taskMap z ∨ z = id ∧ True := by
    intro z
    rcases eq_or_ne z id with rfl | hne
    · exact iff_of_true ⟨current, hself, rfl⟩ (Or.inr ⟨rfl, trivial⟩)
    · unfold Executed
      rw [hsame z hne]
      exact ⟨Or.inl, fun hz => hz.resolve_right fun hz => hne hz.1⟩
  refine ⟨⟨after, rest ++ new, s.tasksDone ++ [id], s.actualOrder ++ [id]⟩, ?_, ⟨hafter, ?_, ?_, ?_⟩, rfl⟩
  · rw [scheduleStep, at_some ht']
    change (pushSuccessors after (s.tasksDone ++ [id]) t'.successors rest).bind _ = _
    rw [hnew]
    rfl
  · refine hwork.step h.matched_predecessors htake' hmarked (hsub.nodup ?_) (fun y => ?_) ?_
    · rw [halike.successors]
      exact (h.sets id t ht).1
    · rw [hmem, successorsOf_some ht, halike.successors, hdone, List.mem_append, List.mem_singleton, not_or, and_assoc]
      refine and_congr_right fun hy => ?_
      obtain ⟨u, hu⟩ := (h.mem y).mp ((h.closed id t ht).1 y hy)
      rw [hafter.predecessorsOf hu]
    · rw [List.map_append]
  · intro z hz
    refine (hmarked z).mpr ((List.mem_append.mp hz).imp (hexecuted z) fun hz => ?_)
    exact ⟨List.mem_singleton.mp hz, trivial⟩
  · dsimp only
    rw [hdone]

theorem ScheduleInv.loop (h : TaskGraph A tasks m) (Q : PriorityQueue R) {fuel : ℕ} {s : ScheduleState R}
    (hinv : ScheduleInv tasks m s) (hfuel : tasks.length ≤ fuel + s.actualOrder.length) :
    ∃ s', scheduleLoop Q fuel s = .ok s' ∧ ScheduleInv tasks m s' ∧ s'.readyTasks = [] := by
  induction fuel generalizing s with
  | zero =>
    cases hq : s.readyTasks with
    | nil =>
      refine ⟨s, ?_, hinv, hq⟩
      rw [scheduleLoop.eq_def, hq, Q.pop_nil]
    | cons p queue =>
      have hlength := hinv.work.length_le
      rw [hq, List.map_cons, List.length_cons] at hlength
      omega
  | succ fuel ih =>
    cases hq : s.readyTasks with
    | nil =>
      refine ⟨s, ?_, hinv, hq⟩
      rw [scheduleLoop.eq_def, hq, Q.pop_nil]
    | cons p queue =>
      obtain ⟨top, rest, hpop, hperm, -⟩ := Q.pop_cons p queue
      obtain ⟨s', hstep, hinv', horder⟩ := hinv.step h (hq ▸ hperm)
      obtain ⟨s'', hloop, hinv'', hempty⟩ := ih hinv' (by
        rw [horder, List.length_append, List.length_singleton]
        omega)
      refine ⟨s'', ?_, hinv'', hempty⟩
      rw [scheduleLoop.eq_def, hq, hpop]
      change (scheduleStep s.taskMap top.1 rest s.tasksDone s.actualOrder).bind _ = _
      rw [hstep]
      exact hloop

/-- Any order of the tasks will do for the second loop, whatever the ranks are. -/
theorem rearrangeTasks_spec (h : TaskGraph A tasks m) (Q : PriorityQueue R) (hkeeps : Keeps m taskMap)
    (hwaiting : ∀ id t, taskMap id = some t → t.doneExecution = false) {fuel : ℕ} (hfuel : tasks.length ≤ fuel) :
    ∃ order taskMap', rearrangeTasks Q fuel tasks taskMap = .ok (order, taskMap') ∧ order.Perm tasks ∧
      Worklist.Ordered (predecessorsOf m) order := by
  obtain ⟨queue, hqueue, hmap⟩ := roots_spec (fun id t ht => (h.fresh id t ht).1) hkeeps fun id hid => (h.mem id).mp hid
  have hinit : ScheduleInv tasks m ⟨taskMap, queue, [], []⟩ := by
    refine ⟨hkeeps, ?_, fun id hid => absurd hid List.not_mem_nil, rfl⟩
    refine Worklist.Inv.init (fun id hid => ?_) ?_ fun id => ?_
    · obtain ⟨t, ht, hdone⟩ := hid
      rw [hwaiting id t ht] at hdone
      exact Bool.false_ne_true hdone
    · rw [hmap]
      exact h.nodup.filter _
    · rw [hmap, List.mem_filter, decide_eq_true_eq, List.length_eq_zero_iff]
  obtain ⟨s, hloop, hinv, hempty⟩ := ScheduleInv.loop h Q hinit hfuel
  refine ⟨s.actualOrder, s.taskMap, ?_, ?_, hinv.work.ordered⟩
  · rw [rearrangeTasks, hqueue]
    change (scheduleLoop Q fuel ⟨taskMap, queue, [], []⟩).bind _ = _
    rw [hloop]
    rfl
  · have hwork := hinv.work
    rw [hempty, List.map_nil] at hwork
    refine hwork.perm h.nodup (fun id hid p hp => ?_) (fun id hcycle => ?_) hinv.executed
    · obtain ⟨t, ht⟩ := (h.mem id).mp hid
      rw [predecessorsOf_some ht] at hp
      exact (h.closed id t ht).2 p hp
    · refine h.acyclic id ?_
      have hsame : (fun y z => y ∈ predecessorsOf m z) = fun a b => b ∈ successorsOf m a := by
        funext a b
        exact propext (h.inverse a b).symm
      rwa [hsame] at hcycle

/-- **Tasks are reordered** so that each one comes after its predecessors.  No rank is computed twice, or before those of
the successors; and if no cost is negative, each rank is computed. -/
theorem reorderTasks_topological (h : TaskGraph A tasks m) (Q : PriorityQueue R) {fuel : ℕ}
    (hfuel : tasks.length ≤ fuel) :
    ∃ s order taskMap, calculateUpwardRanks A statistics fuel tasks m = .ok s ∧
      reorderTasks A statistics Q fuel tasks m = .ok (order, taskMap) ∧
      (s.tasksDone.Nodup ∧ Worklist.Ordered (successorsOf m) s.tasksDone ∧
        ∀ id ∈ s.tasksDone, ∃ t, s.taskMap id = some t ∧
          t.upwardRank = A.add (taskCost A statistics t) (secondOf A s.taskMap (successorsOf m id) A.zero)) ∧
      (NonNegative A statistics → s.tasksDone.Perm tasks) ∧
      order.Perm tasks ∧ Worklist.Ordered (predecessorsOf m) order := by
  obtain ⟨s, hranks, hinv, hempty⟩ := @calculateUpwardRanks_spec _ _ _ statistics _ _ h _ hfuel
  obtain ⟨order, taskMap, hrearrange, hperm, hordered⟩ := rearrangeTasks_spec h Q hinv.keeps hinv.waiting hfuel
  have hwork := hinv.work
  rw [hempty] at hwork
  refine ⟨s, order, taskMap, hranks, ?_, ⟨hwork.nodup, hwork.ordered, fun id hid => ?_⟩, fun hpos => ?_, hperm, hordered⟩
  · rw [reorderTasks, hranks]
    exact hrearrange
  · obtain ⟨t, ht, hrank⟩ := hinv.value id hid
    rw [rankOf, ht] at hrank
    exact ⟨t, ht, hrank⟩
  · refine hwork.perm h.nodup (fun id hid z hz => ?_) (fun id hcycle => ?_) (hinv.ranked hpos)
    · obtain ⟨t, ht⟩ := (h.mem id).mp hid
      rw [successorsOf_some ht] at hz
      exact (h.closed id t ht).1 z hz
    · exact h.acyclic id (Relation.transGen_swap.mp hcycle)

end

/-! ## 5. Two tasks -/

section

variable {R : Type} [LinearOrder R]

/-- Takes the first one of the greatest. -/
def popMax : List (ℤ × R) → Option ((ℤ × R) × List (ℤ × R))
  | [] => none
  | p :: queue =>
    match popMax queue with
    | none => some (p, [])
    | some (top, rest) => if top.2 ≤ p.2 then some (p, top :: rest) else some (top, p :: rest)

theorem popMax_cons (p : ℤ × R) (queue : List (ℤ × R)) : ∃ top rest, popMax (p :: queue) = some (top, rest) ∧
    (p :: queue).Perm (top :: rest) ∧ ∀ q ∈ rest, q.2 ≤ top.2 := by
  induction queue generalizing p with
  | nil => exact ⟨p, [], rfl, List.Perm.refl _, fun q hq => absurd hq List.not_mem_nil⟩
  | cons q queue ih =>
    obtain ⟨top, rest, hpop, hperm, hle⟩ := ih q
    rw [popMax, hpop]
    dsimp only
    split
    · rename_i hp
      refine ⟨p, top :: rest, rfl, hperm.cons p, List.forall_mem_cons.mpr ⟨hp, fun r hr => (hle r hr).trans hp⟩⟩
    · rename_i hp
      refine ⟨top, p :: rest, rfl, (hperm.cons p).trans (List.Perm.swap _ _ _), ?_⟩
      exact List.forall_mem_cons.mpr ⟨(lt_of_not_ge hp).le, hle⟩

def firstOfGreatest : PriorityQueue R := ⟨popMax, rfl, popMax_cons⟩

end

/-- Exact arithmetic. -/
def exact : Ranks ℚ := ⟨0, -1, 1 / 5, (· + ·)⟩

/-- The task `2` needs the task `1`. -/
def twoTasks : TaskMap ℚ := fun id =>
  if id = 1 then some ⟨"first", 1, [2], [], 0, false, false, -1⟩
  else if id = 2 then some ⟨"second", 2, [], [1], 0, false, false, -1⟩
  else none

theorem twoTasks_eq_some {id : ℤ} {t : Payload ℚ} (h : twoTasks id = some t) :
    id = 1 ∧ t = ⟨"first", 1, [2], [], 0, false, false, -1⟩ ∨ id = 2 ∧ t = ⟨"second", 2, [], [1], 0, false, false, -1⟩ := by
  unfold twoTasks at h
  split at h
  · rename_i hid
    exact Or.inl ⟨hid, (Option.some.inj h).symm⟩
  · split at h
    · rename_i hid
      exact Or.inr ⟨hid, (Option.some.inj h).symm⟩
    · exact absurd h (Option.some_ne_none _).symm

theorem twoTasks_graph : TaskGraph exact [2, 1] twoTasks := by
  have hedge : ∀ a b, b ∈ successorsOf twoTasks a → a = 1 ∧ b = 2 := by
    intro a b hb
    unfold successorsOf at hb
    split at hb
    · rename_i t ht
      obtain ⟨rfl, rfl⟩ | ⟨rfl, rfl⟩ := twoTasks_eq_some ht
      · exact ⟨rfl, List.mem_singleton.mp hb⟩
      · exact absurd hb List.not_mem_nil
    · exact absurd hb List.not_mem_nil
  constructor
  · decide
  · intro id
    constructor
    · intro hid
      obtain rfl | hid := List.mem_cons.mp hid
      · exact ⟨_, rfl⟩
      · obtain rfl := List.mem_singleton.mp hid
        exact ⟨_, rfl⟩
    · rintro ⟨t, ht⟩
      obtain ⟨rfl, -⟩ | ⟨rfl, -⟩ := twoTasks_eq_some ht <;> decide
  · intro id t ht
    obtain ⟨rfl, rfl⟩ | ⟨rfl, rfl⟩ := twoTasks_eq_some ht <;> exact ⟨rfl, rfl, rfl⟩
  · intro id t ht
    obtain ⟨rfl, rfl⟩ | ⟨rfl, rfl⟩ := twoTasks_eq_some ht <;> decide
  · intro id t ht
    obtain ⟨rfl, rfl⟩ | ⟨rfl, rfl⟩ := twoTasks_eq_some ht <;> decide
  · intro a b
    constructor
    · intro hb
      obtain ⟨rfl, rfl⟩ := hedge a b hb
      decide
    · intro ha
      unfold predecessorsOf at ha
      split at ha
      · rename_i t ht
        obtain ⟨rfl, rfl⟩ | ⟨rfl, rfl⟩ := twoTasks_eq_some ht
        · exact absurd ha List.not_mem_nil
        · obtain rfl := List.mem_singleton.mp ha
          decide
      · exact absurd ha List.not_mem_nil
  · intro id hcycle
    have hlt : ∀ a b, Relation.TransGen (fun a b => b ∈ successorsOf twoTasks a) a b → a < b := by
      intro a b hab
      induction hab with
      | single h =>
        obtain ⟨rfl, rfl⟩ := hedge _ _ h
        decide
      | tail _ h ih =>
        obtain ⟨rfl, rfl⟩ := hedge _ _ h
        exact ih.trans (by decide)
    exact lt_irrefl id (hlt id id hcycle)

theorem reorderTasks_two : ∃ s order taskMap,
    calculateUpwardRanks exact (fun _ _ => 3) 2 [2, 1] twoTasks = .ok s ∧
      reorderTasks exact (fun _ _ => 3) firstOfGreatest 2 [2, 1] twoTasks = .ok (order, taskMap) ∧
      s.tasksDone.Perm [2, 1] ∧ order.Perm [2, 1] := by
  obtain ⟨s, order, taskMap, hranks, hreorder, -, hall, hperm, -⟩ :=
    @reorderTasks_topological _ _ _ (fun _ _ => 3) _ _ twoTasks_graph firstOfGreatest 2 (le_refl 2)
  refine ⟨s, order, taskMap, hranks, hreorder, hall ⟨by decide, fun a b ha hb => ?_, fun _ _ => ?_⟩, hperm⟩
  · exact add_nonneg ha hb
  · change (0 : ℚ) ≤ 3
    decide

/-- A cost of `-1`: the rank of the second task is taken for one that was not computed. -/
theorem not_all_ranked : ¬ ∀ s, calculateUpwardRanks exact (fun _ _ => -1) 2 [2, 1] twoTasks = .ok s →
    s.tasksDone.Perm [2, 1] := by
  intro h
  have hrun : (calculateUpwardRanks exact (fun _ _ => -1) 2 [2, 1] twoTasks).map RankState.tasksDone = .ok [2] := by
    decide +kernel
  cases hs : calculateUpwardRanks exact (fun _ _ => -1) 2 [2, 1] twoTasks with
  | error e =>
    rw [hs] at hrun
    exact nomatch hrun
  | ok s =>
    rw [hs] at hrun
    have hdone : s.tasksDone = [2] := Except.ok.inj hrun
    have hperm := h s hs
    rw [hdone] at hperm
    exact absurd hperm.length_eq (by decide)

end Cccl.Stf.Reorderer
