/-
# Reclaiming memory

`reclaim_memory` (`logical_data.cuh`).  When an allocation fails, the instances of all logical data
of the context are gone through in up to three passes.  The first frees invalid instances on the
spot; the second collects the instances that need no write-back; the third collects everything.
What has been collected is then sorted by age and freed until the request is met.

The third pass collects again what the second one collected, and the second one also takes
instances with a pending reduction.  So an instance may be freed twice, and counted twice, or the
update of the MSI states may meet a state it does not handle.  `reclaimMemory_truthful_iff` says
exactly when neither happens: the request is met by the first pass, or, going through what was
collected in order until the request is met, each logical data meets a sequence of calls it can
take (`CanReclaim`).  `reclaimMemory_twice` is the smallest case in which one instance is freed
twice.
-/
import Mathlib.Algebra.Order.BigOperators.Group.List
import Mathlib.Algebra.Order.Ring.Nat
import Cccl.Stf.ReclaimOrder

namespace Cccl.Stf

open MsirStateId

/-! ## 1. The three passes -/

/-- The logical data of a context, in the order its table of ids is gone through. -/
structure ReclaimContext where
  size : ℕ
  data : ℕ → LogicalData ℕ
  wellFormed : ∀ k, (data k).WellFormed

/-- How the environment directs the reclaim: `NAIVE_RECLAIM`, `RECLAIM_NO_SORT`, and the sort of
the standard library, which promises a sorted permutation and nothing about equal keys. -/
structure ReclaimPolicy where
  naive : Bool
  noSort : Bool
  sort : List ((ℕ × ℕ) × ℕ) → List ((ℕ × ℕ) × ℕ)
  sort_perm : ∀ l, (sort l).Perm l
  sort_sorted : ∀ l, (sort l).Pairwise fun a b => a.2 ≤ b.2

/-- How far a reclaim got.  A failed expectation throws, a failed assertion or a corrupt state
aborts. -/
inductive ReclaimStatus where
  | normal
  | threw
  | aborted
  deriving DecidableEq, Repr

/-- A reclaim under way: the tables, `reclaimed_s`, the events to wait for, and every `do_reclaim`
call made, as the pair of the logical data and the instance. -/
structure ReclaimRun where
  data : ℕ → LogicalData ℕ
  reclaimed : ℕ := 0
  prereqs : List ℕ := []
  calls : List (ℕ × ℕ) := []
  status : ReclaimStatus := .normal

section Passes

variable (B : EventBackend ℕ) (copyDone : ℕ → ℕ → List ℕ) (memoryNode requested : ℕ)

/-- All instances of the context, in the order of the two loops. -/
def slots (size : ℕ) (data : ℕ → LogicalData ℕ) : List (ℕ × ℕ) :=
  (List.range size).flatMap fun k => (List.range (data k).count).map fun i => (k, i)

/-- The checks made before looking at the place: no reference to the data, not frozen, and an
instance that is reclaimable and allocated. -/
def scanned (data : ℕ → LogicalData ℕ) (c : ℕ × ℕ) : Bool :=
  (data c.1).refcnt = 0 && !(data c.1).frozenFlag && ((data c.1).inst c.2).reclaimable
    && ((data c.1).inst c.2).allocated

/-- The size of an instance's allocation. -/
def slotSize (data : ℕ → LogicalData ℕ) (c : ℕ × ℕ) : ℕ :=
  ((data c.1).inst c.2).allocatedSize

/-- The tables with one of them replaced. -/
def setData (data : ℕ → LogicalData ℕ) (k : ℕ) (d : LogicalData ℕ) : ℕ → LogicalData ℕ :=
  fun j => if j = k then d else data j

/-- One call of `do_reclaim`, counted whether or not it goes through. -/
def ReclaimRun.doReclaim (c : ℕ × ℕ) (r : ReclaimRun) : ReclaimRun :=
  match (r.data c.1).doReclaim B (copyDone c.1 c.2) c.2 with
  | none => { r with calls := r.calls ++ [c], status := .aborted }
  | some u =>
    { r with
      data := setData r.data c.1 u.data
      reclaimed := r.reclaimed + (u.data.inst c.2).allocatedSize
      prereqs := r.prereqs ++ u.prereqs
      calls := r.calls ++ [c] }

/-- Pass 0: reclaim locally invalid instances at once, and stop when the request is met. -/
def passZero : List (ℕ × ℕ) → ReclaimRun → ReclaimRun
  | [], r => r
  | c :: rest, r =>
    if scanned r.data c then
      match toIndex ((r.data c.1).inst c.2).dplace with
      | none => { r with status := .threw }
      | some n =>
        if n = memoryNode ∧ ((r.data c.1).inst c.2).msir = .invalid then
          let r' := r.doReclaim B copyDone c
          if r'.status = .aborted ∨ requested ≤ r'.reclaimed then r' else passZero rest r'
        else passZero rest r
    else passZero rest r

/-- Which states are eligible in passes 1 and 2. -/
def eligibleState (pass : ℕ) (m : MsirStateId) : Bool :=
  if pass = 1 then m ≠ .modified else true

/-- `max_prereq_id`: the largest event id attached to an instance, which stands for its age. -/
def maxPrereqId (n : DataInstance ℕ) : ℕ :=
  max (n.readPrereq.foldl max 0) (n.writePrereq.foldl max 0)

/-- Passes 1 and 2: collect the eligible instances with their age. -/
def collect (pass : ℕ) (data : ℕ → LogicalData ℕ) :
    List (ℕ × ℕ) → Option (List ((ℕ × ℕ) × ℕ))
  | [] => some []
  | c :: rest =>
    if scanned data c then
      match toIndex ((data c.1).inst c.2).dplace with
      | none => none
      | some n =>
        if n = memoryNode ∧ eligibleState pass ((data c.1).inst c.2).msir then
          (collect pass data rest).map fun l => (c, maxPrereqId ((data c.1).inst c.2)) :: l
        else collect pass data rest
    else collect pass data rest

/-- The loop over what was collected: reclaim until the request is met. -/
def consume : List (ℕ × ℕ) → ReclaimRun → ReclaimRun
  | [], r => r
  | c :: rest, r =>
    let r' := r.doReclaim B copyDone c
    if r'.status = .aborted ∨ requested ≤ r'.reclaimed then r' else consume rest r'

/-- The sizes of some instances, added up. -/
def totalSize (data : ℕ → LogicalData ℕ) (l : List (ℕ × ℕ)) : ℕ :=
  (l.map (slotSize data)).sum

/-- The order in which what was collected is reclaimed. -/
def ReclaimPolicy.arrange (policy : ReclaimPolicy) (eligible : List ((ℕ × ℕ) × ℕ)) :
    List (ℕ × ℕ) :=
  (if policy.noSort then eligible else policy.sort eligible).map Prod.fst

/-- Passes 1 and 2 and the last loop, once pass 0 has not met the request. -/
def collectAndConsume (policy : ReclaimPolicy) (size : ℕ) (r : ReclaimRun) : ReclaimRun :=
  let pass (p : ℕ) := collect memoryNode p r.data (slots size r.data)
  match (if policy.naive then some [] else pass 1) with
  | none => { r with status := .threw }
  | some first =>
    if totalSize r.data (first.map Prod.fst) < requested then
      match pass 2 with
      | none => { r with status := .threw }
      | some second => consume B copyDone requested (policy.arrange (first ++ second)) r
    else consume B copyDone requested (policy.arrange first) r

def reclaimMemory (policy : ReclaimPolicy) (ctx : ReclaimContext) : ReclaimRun :=
  let r : ReclaimRun := { data := ctx.data }
  if requested = 0 then r
  else
    let r := if policy.naive then r
      else passZero B copyDone memoryNode requested (slots ctx.size r.data) r
    if r.status ≠ .normal ∨ requested ≤ r.reclaimed then r
    else collectAndConsume B copyDone memoryNode requested policy ctx.size r

end Passes

/-! ## 2. What is collected, and how far it is gone through -/

section Inputs

variable (memoryNode requested : ℕ) (data : ℕ → LogicalData ℕ)

/-- An instance that the scan stumbles over: it passes the first checks, but its place has no
index. -/
def unindexed (c : ℕ × ℕ) : Bool :=
  scanned data c && (toIndex ((data c.1).inst c.2).dplace).isNone

/-- **Candidates**: allocated, reclaimable instances of unreferenced, unfrozen data on the given
place. -/
def candidate (c : ℕ × ℕ) : Bool :=
  scanned data c && toIndex ((data c.1).inst c.2).dplace = some memoryNode

/-- Candidates in an invalid state. -/
def stale (c : ℕ × ℕ) : Bool :=
  candidate memoryNode data c && ((data c.1).inst c.2).msir = .invalid

/-- What a pass over some instances collects. -/
def tagged (pass : ℕ) (l : List (ℕ × ℕ)) : List ((ℕ × ℕ) × ℕ) :=
  (l.filter fun c => candidate memoryNode data c && eligibleState pass ((data c.1).inst c.2).msir).map
    fun c => (c, maxPrereqId ((data c.1).inst c.2))

/-- The candidates passes 1 and 2 are left with: all of them under the naive policy, the ones
that are not invalid otherwise. -/
def live (policy : ReclaimPolicy) (size : ℕ) : List (ℕ × ℕ) :=
  (slots size data).filter fun c => policy.naive || ((data c.1).inst c.2).msir ≠ .invalid

/-- **All that is collected.**  Where the instances that need no write-back do not meet the
request, they are collected a second time together with the others. -/
def collected (policy : ReclaimPolicy) (size : ℕ) : List ((ℕ × ℕ) × ℕ) :=
  let first := if policy.naive then [] else tagged memoryNode data 1 (live data policy size)
  if totalSize data (first.map Prod.fst) < requested then
    first ++ tagged memoryNode data 2 (live data policy size)
  else first

/-- The instances met, going through a list until `need` bytes are found. -/
def metUntil : ℕ → List (ℕ × ℕ) → List (ℕ × ℕ)
  | _, [] => []
  | need, c :: rest =>
    if need ≤ slotSize data c then [c] else c :: metUntil (need - slotSize data c) rest

/-- The size of the invalid candidates, which pass 0 reclaims. -/
def staleSize (size : ℕ) : ℕ :=
  totalSize data ((slots size data).filter (stale memoryNode data))

/-- The instances the last loop meets. -/
def met (policy : ReclaimPolicy) (size : ℕ) : List (ℕ × ℕ) :=
  metUntil data (requested - if policy.naive then 0 else staleSize memoryNode data size)
    (policy.arrange (collected memoryNode requested data policy size))

/-- The instances of one logical data in a list. -/
def ofData (k : ℕ) (l : List (ℕ × ℕ)) : List ℕ :=
  (l.filter fun c => c.1 = k).map Prod.snd

end Inputs

section Collect

variable {memoryNode : ℕ} {data : ℕ → LogicalData ℕ}

/-- **A pass collects its candidates**, unless it stumbles. -/
theorem collect_eq (pass : ℕ) :
    ∀ l : List (ℕ × ℕ), collect memoryNode pass data l
      = if l.any (unindexed data) then none else some (tagged memoryNode data pass l)
  | [] => rfl
  | c :: rest => by
    have ih := collect_eq pass rest
    unfold collect
    by_cases hs : scanned data c
    · cases hidx : toIndex ((data c.1).inst c.2).dplace with
      | none => simp [hs, hidx, unindexed]
      | some n =>
        have hun : unindexed data c = false := by simp [unindexed, hidx]
        by_cases hn : n = memoryNode ∧ eligibleState pass ((data c.1).inst c.2).msir
        · have hcand : (candidate memoryNode data c
              && eligibleState pass ((data c.1).inst c.2).msir) = true := by
            simp [candidate, hs, hidx, hn]
          rw [if_pos hs]
          simp only
          rw [if_pos hn, ih]
          by_cases hany : rest.any (unindexed data)
          · simp [hany]
          · simp [hany, hun, tagged, hcand]
        · have hcand : (candidate memoryNode data c
              && eligibleState pass ((data c.1).inst c.2).msir) = false := by
            rw [Bool.eq_false_iff]
            intro h
            simp only [candidate, hs, hidx, Bool.and_eq_true, decide_eq_true_eq,
              Option.some.injEq, true_and] at h
            exact hn h
          rw [if_pos hs]
          simp only
          rw [if_neg hn, ih, List.any_cons, hun, Bool.false_or]
          simp [tagged, hcand]
    · have hun : unindexed data c = false := by simp [unindexed, hs]
      have hcand : candidate memoryNode data c = false := by simp [candidate, hs]
      rw [if_neg hs, ih, List.any_cons, hun, Bool.false_or]
      simp [tagged, hcand]

end Collect

/-! ## 3. The last loop -/

section Consume

variable {B : EventBackend ℕ} {copyDone : ℕ → ℕ → List ℕ} {requested : ℕ}

/-- `do_reclaim` on each of the given instances of the context. -/
def reclaimEach (B : EventBackend ℕ) (copyDone : ℕ → ℕ → List ℕ) :
    List (ℕ × ℕ) → (ℕ → LogicalData ℕ) → Option (ℕ → LogicalData ℕ)
  | [], data => some data
  | c :: rest, data =>
    match (data c.1).doReclaim B (copyDone c.1 c.2) c.2 with
    | none => none
    | some u => reclaimEach B copyDone rest (setData data c.1 u.data)

/-- The logical data do not interfere: the calls go through if they do on each one. -/
theorem reclaimEach_isSome_iff :
    ∀ {l : List (ℕ × ℕ)} {data : ℕ → LogicalData ℕ},
      (reclaimEach B copyDone l data).isSome ↔
        ∀ k, ((data k).reclaimAll B (copyDone k) (ofData k l)).isSome
  | [], data => by simp [reclaimEach, ofData, LogicalData.reclaimAll]
  | c :: rest, data => by
    have hother : ∀ k, k ≠ c.1 → ofData k (c :: rest) = ofData k rest := by
      intro k hk
      simp [ofData, Ne.symm hk]
    have hsame : ofData c.1 (c :: rest) = c.2 :: ofData c.1 rest := by simp [ofData]
    unfold reclaimEach
    cases hu : (data c.1).doReclaim B (copyDone c.1 c.2) c.2 with
    | none =>
      simp only [Option.isSome_none, Bool.false_eq_true, false_iff, not_forall]
      exact ⟨c.1, by simp [hsame, LogicalData.reclaimAll, hu]⟩
    | some u =>
      dsimp only
      rw [reclaimEach_isSome_iff]
      refine forall_congr' fun k => ?_
      by_cases hk : k = c.1
      · subst hk
        simp [hsame, LogicalData.reclaimAll, hu, setData]
      · simp [hk, hother k hk, setData]

theorem slotSize_setData {data : ℕ → LogicalData ℕ} {c : ℕ × ℕ} {u : Update ℕ}
    (hu : (data c.1).doReclaim B (copyDone c.1 c.2) c.2 = some u) :
    slotSize (setData data c.1 u.data) = slotSize data := by
  funext c'
  by_cases hk : c'.1 = c.1
  · simp [slotSize, setData, hk, (doReclaim_reclaimed hu).allocatedSize]
  · simp [slotSize, setData, hk]

theorem metUntil_congr {data data' : ℕ → LogicalData ℕ} (h : slotSize data' = slotSize data) :
    ∀ (need : ℕ) (l : List (ℕ × ℕ)), metUntil data' need l = metUntil data need l
  | _, [] => rfl
  | need, c :: rest => by
    simp only [metUntil, h]
    split
    · rfl
    · rw [metUntil_congr h]

/-- **The last loop** makes the calls on the instances it meets.  It aborts where they do not go
through, and else counts the size of each. -/
theorem consume_spec (B : EventBackend ℕ) (copyDone : ℕ → ℕ → List ℕ) :
    ∀ {l : List (ℕ × ℕ)} {r : ReclaimRun}, r.status = .normal → r.reclaimed < requested →
      ((reclaimEach B copyDone (metUntil r.data (requested - r.reclaimed) l) r.data).isSome →
        (consume B copyDone requested l r).status = .normal ∧
        (consume B copyDone requested l r).calls
          = r.calls ++ metUntil r.data (requested - r.reclaimed) l ∧
        (consume B copyDone requested l r).reclaimed
          = r.reclaimed + totalSize r.data (metUntil r.data (requested - r.reclaimed) l)) ∧
      (¬ (reclaimEach B copyDone (metUntil r.data (requested - r.reclaimed) l) r.data).isSome →
        (consume B copyDone requested l r).status = .aborted)
  | [], r, hnormal, _ => by simp [metUntil, reclaimEach, consume, totalSize, hnormal]
  | c :: rest, r, hnormal, hneed => by
    cases hu : (r.data c.1).doReclaim B (copyDone c.1 c.2) c.2 with
    | none =>
      obtain ⟨tail, htail⟩ : ∃ tail,
          metUntil r.data (requested - r.reclaimed) (c :: rest) = c :: tail := by
        unfold metUntil
        split
        · exact ⟨[], rfl⟩
        · exact ⟨_, rfl⟩
      simp [htail, reclaimEach, hu, consume, ReclaimRun.doReclaim]
    | some u =>
      have hsize : (u.data.inst c.2).allocatedSize = slotSize r.data c :=
        (doReclaim_reclaimed hu).allocatedSize c.2
      by_cases hmet : requested - r.reclaimed ≤ slotSize r.data c
      · have hdone : requested ≤ r.reclaimed + slotSize r.data c := by omega
        simp [metUntil, hmet, reclaimEach, hu, consume, ReclaimRun.doReclaim, hsize, hdone,
          hnormal, totalSize]
      · have hmore : ¬ requested ≤ r.reclaimed + slotSize r.data c := by omega
        have hids : metUntil r.data (requested - r.reclaimed) (c :: rest)
            = c :: metUntil r.data (requested - (r.reclaimed + slotSize r.data c)) rest := by
          rw [metUntil, if_neg hmet, Nat.sub_sub]
        have hr' : r.doReclaim B copyDone c =
            { r with
              data := setData r.data c.1 u.data
              reclaimed := r.reclaimed + slotSize r.data c
              prereqs := r.prereqs ++ u.prereqs
              calls := r.calls ++ [c] } := by
          simp [ReclaimRun.doReclaim, hu, hsize]
        have hstep : consume B copyDone requested (c :: rest) r
            = consume B copyDone requested rest (r.doReclaim B copyDone c) := by
          simp only [consume]
          rw [if_neg]
          simp [hr', hnormal, hmore]
        have ih := consume_spec B copyDone (l := rest) (r := r.doReclaim B copyDone c)
          (by simp [hr', hnormal]) (by rw [hr']; dsimp only; omega)
        have hsizes := slotSize_setData hu
        rw [hr'] at ih
        simp only [metUntil_congr hsizes, totalSize, hsizes] at ih
        rw [hstep, hids, hr']
        simp only [reclaimEach, hu]
        refine ⟨fun h => ?_, fun h => ih.2 h⟩
        obtain ⟨hst, hcalls, hrec⟩ := ih.1 h
        exact ⟨hst, by rw [hcalls]; simp, by rw [hrec]; simp [totalSize, Nat.add_assoc]⟩

end Consume

/-! ## 4. Pass 0 -/

/-- What pass 0 leaves after reclaiming `freed`: everything else as it was. -/
structure Freed (data data' : ℕ → LogicalData ℕ) (freed : List (ℕ × ℕ)) : Prop where
  count : ∀ k, (data' k).count = (data k).count
  reference : ∀ k, (data' k).referenceInstanceId = (data k).referenceInstanceId
  refcnt : ∀ k, (data' k).refcnt = (data k).refcnt
  frozenFlag : ∀ k, (data' k).frozenFlag = (data k).frozenFlag
  msir : ∀ k, (data' k).msir = (data k).msir
  sizes : slotSize data' = slotSize data
  kept : ∀ c, c ∉ freed → (data' c.1).inst c.2 = (data c.1).inst c.2
  gone : ∀ c ∈ freed, ((data' c.1).inst c.2).allocated = false
  wellFormed : ∀ k, (data' k).WellFormed

theorem Freed.nil {data : ℕ → LogicalData ℕ} (hwf : ∀ k, (data k).WellFormed) :
    Freed data data [] :=
  ⟨fun _ => rfl, fun _ => rfl, fun _ => rfl, fun _ => rfl, fun _ => rfl, rfl, fun _ _ => rfl,
    by simp, hwf⟩

theorem Freed.cons {data data' data'' : ℕ → LogicalData ℕ} {c : ℕ × ℕ} {freed : List (ℕ × ℕ)}
    (h : Freed data data' [c]) (h' : Freed data' data'' freed) (hc : c ∉ freed) :
    Freed data data'' (c :: freed) where
  count k := (h'.count k).trans (h.count k)
  reference k := (h'.reference k).trans (h.reference k)
  refcnt k := (h'.refcnt k).trans (h.refcnt k)
  frozenFlag k := (h'.frozenFlag k).trans (h.frozenFlag k)
  msir k := (h'.msir k).trans (h.msir k)
  sizes := h'.sizes.trans h.sizes
  kept c' hc' := by
    rw [List.mem_cons, not_or] at hc'
    exact (h'.kept c' hc'.2).trans (h.kept c' (by simpa using hc'.1))
  gone c' hc' := by
    rcases List.mem_cons.mp hc' with rfl | hc'
    · rw [h'.kept c' hc]
      exact h.gone c' (by simp)
    · exact h'.gone c' hc'
  wellFormed := h'.wellFormed

section PassZero

variable {B : EventBackend ℕ} {copyDone : ℕ → ℕ → List ℕ} {memoryNode requested : ℕ}

/-- Reclaiming an invalid instance always goes through, and touches nothing else. -/
theorem freed_of_stale (B : EventBackend ℕ) (copyDone : ℕ → ℕ → List ℕ)
    {data : ℕ → LogicalData ℕ} (hwf : ∀ k, (data k).WellFormed) {c : ℕ × ℕ}
    (hlt : c.2 < (data c.1).count) (hstale : stale memoryNode data c) :
    ∃ u, (data c.1).doReclaim B (copyDone c.1 c.2) c.2 = some u ∧
      Freed data (setData data c.1 u.data) [c] := by
  simp only [stale, candidate, scanned, Bool.and_eq_true, decide_eq_true_eq] at hstale
  obtain ⟨⟨⟨⟨⟨href, hfrozen⟩, hrec⟩, halloc⟩, hidx⟩, hm⟩ := hstale
  have hused := (hwf c.1).used_of_allocated c.2 halloc
  obtain ⟨u, hu⟩ := (exists_doReclaim_iff B (copyDone c.1 c.2) c.2 (data c.1)).mpr
    ⟨hused, by simp [LogicalData.msir, hm], by simp [LogicalData.msir, hm]⟩
  have hmsir := (doReclaim_effect (hwf c.1).range hu).eq_of_invalid hm
  have hleft := doReclaim_reclaimed hu
  have hwf' := (hwf c.1).doReclaim hlt hu
  -- the other slots and the rest of the record, from the one branch that applies
  have hframe : u.data.refcnt = (data c.1).refcnt ∧ u.data.frozenFlag = (data c.1).frozenFlag ∧
      ∀ i, i ≠ c.2 → u.data.inst i = (data c.1).inst i := by
    obtain ⟨w, hw, -, rfl⟩ := doReclaim_eq_some hu
    simp only [LogicalData.reclaimUpdateState, hm, Option.some.injEq] at hw
    subst hw
    exact ⟨rfl, rfl, fun i hi => by simp [hi]⟩
  refine ⟨u, hu, ?_⟩
  refine ⟨fun k => ?_, fun k => ?_, fun k => ?_, fun k => ?_, fun k => ?_, slotSize_setData hu,
    fun c' hc' => ?_, fun c' hc' => ?_, fun k => ?_⟩
  · by_cases hk : k = c.1 <;> simp [setData, hk, hleft.count]
  · by_cases hk : k = c.1 <;> simp [setData, hk, hleft.reference]
  · by_cases hk : k = c.1 <;> simp [setData, hk, hframe.1]
  · by_cases hk : k = c.1 <;> simp [setData, hk, hframe.2.1]
  · by_cases hk : k = c.1 <;> simp [setData, hk, hmsir]
  · by_cases hk : c'.1 = c.1
    · have hi : c'.2 ≠ c.2 := fun hi => hc' (by simp [Prod.ext hk hi])
      simp [setData, hk, hframe.2.2 c'.2 hi]
    · simp [setData, hk]
  · rw [List.mem_singleton.mp hc']
    simp [setData, hleft.allocated]
  · by_cases hk : k = c.1
    · simp only [setData, hk, if_true]
      exact hwf'
    · simp only [setData, hk, if_false]
      exact hwf k

/-- What the scan looks at is as it was, except for what has been freed. -/
theorem Freed.scanned_eq {data data' : ℕ → LogicalData ℕ} {freed : List (ℕ × ℕ)}
    (h : Freed data data' freed) (c : ℕ × ℕ) :
    scanned data' c = (scanned data c && decide (c ∉ freed)) := by
  by_cases hc : c ∈ freed
  · simp [scanned, h.gone c hc, hc]
  · simp [scanned, h.refcnt, h.frozenFlag, h.kept c hc, hc]

theorem Freed.stale_eq {data data' : ℕ → LogicalData ℕ} {freed : List (ℕ × ℕ)}
    (h : Freed data data' freed) {c : ℕ × ℕ} (hc : c ∉ freed) :
    stale memoryNode data' c = stale memoryNode data c := by
  simp [stale, candidate, h.scanned_eq, hc, h.kept c hc]

theorem Freed.unindexed_eq {data data' : ℕ → LogicalData ℕ} {freed : List (ℕ × ℕ)}
    (h : Freed data data' freed) {c : ℕ × ℕ} (hc : c ∉ freed) :
    unindexed data' c = unindexed data c := by
  simp [unindexed, h.scanned_eq, hc, h.kept c hc]

/-- One instance in pass 0: stumbled over, reclaimed or passed by. -/
theorem passZero_cons (c : ℕ × ℕ) (rest : List (ℕ × ℕ)) (r : ReclaimRun) :
    passZero B copyDone memoryNode requested (c :: rest) r
      = if unindexed r.data c then { r with status := .threw }
        else if stale memoryNode r.data c then
          if (r.doReclaim B copyDone c).status = .aborted ∨
              requested ≤ (r.doReclaim B copyDone c).reclaimed then r.doReclaim B copyDone c
          else passZero B copyDone memoryNode requested rest (r.doReclaim B copyDone c)
        else passZero B copyDone memoryNode requested rest r := by
  rw [passZero]
  by_cases hs : scanned r.data c
  · cases hidx : toIndex ((r.data c.1).inst c.2).dplace with
    | none => simp [hs, unindexed, hidx]
    | some n =>
      by_cases hn : n = memoryNode ∧ ((r.data c.1).inst c.2).msir = .invalid
      · have hst : stale memoryNode r.data c = true := by simp [stale, candidate, hs, hidx, hn]
        simp [hs, unindexed, hidx, hst, hn]
      · have hst : ¬ stale memoryNode r.data c = true := by
          simp only [stale, candidate, hs, hidx, Bool.and_eq_true, decide_eq_true_eq,
            Option.some.injEq, true_and]
          exact hn
        simp [hs, unindexed, hidx, hst, hn]
  · simp [hs, unindexed, stale, candidate]

/-- How pass 0 ends. -/
structure PassZeroSpec (memoryNode requested : ℕ) (l : List (ℕ × ℕ)) (r r' : ReclaimRun)
    (freed : List (ℕ × ℕ)) : Prop where
  calls : r'.calls = r.calls ++ freed
  sublist : freed.Sublist (l.filter (stale memoryNode r.data))
  reclaimed : r'.reclaimed = r.reclaimed + totalSize r.data freed
  left : Freed r.data r'.data freed
  status : r'.status = .normal ∨ (r'.status = .threw ∧ l.any (unindexed r.data))
  /-- Short of the request it has seen everything. -/
  all : r'.status = .normal → r'.reclaimed < requested →
    freed = l.filter (stale memoryNode r.data) ∧ l.any (unindexed r.data) = false

/-- **Pass 0** frees invalid candidates, each once, until the request is met. -/
theorem passZero_spec (B : EventBackend ℕ) (copyDone : ℕ → ℕ → List ℕ) (memoryNode : ℕ) :
    ∀ {l : List (ℕ × ℕ)} {r : ReclaimRun}, (∀ k, (r.data k).WellFormed) →
      r.status = .normal → r.reclaimed < requested → l.Nodup →
      (∀ c ∈ l, c.2 < (r.data c.1).count) →
      ∃ freed, PassZeroSpec memoryNode requested l r
        (passZero B copyDone memoryNode requested l r) freed
  | [], r, hwf, hnormal, hneed, _, _ =>
    ⟨[], by simp [passZero], by simp, by simp [passZero, totalSize], Freed.nil hwf,
      Or.inl hnormal, by simp⟩
  | c :: rest, r, hwf, hnormal, hneed, hnd, hlt => by
    obtain ⟨hc, hnd⟩ := List.nodup_cons.mp hnd
    rw [passZero_cons]
    by_cases hun : unindexed r.data c
    · rw [if_pos hun]
      exact ⟨[], by simp, by simp, by simp [totalSize], Freed.nil hwf,
        Or.inr ⟨rfl, by simp [hun]⟩, by simp⟩
    · rw [if_neg hun]
      rw [Bool.not_eq_true] at hun
      by_cases hstale : stale memoryNode r.data c
      · rw [if_pos hstale]
        obtain ⟨u, hu, hone⟩ := freed_of_stale B copyDone hwf (hlt c (by simp)) hstale
        have hsize : (u.data.inst c.2).allocatedSize = slotSize r.data c :=
          (doReclaim_reclaimed hu).allocatedSize c.2
        have hr' : r.doReclaim B copyDone c =
            { r with
              data := setData r.data c.1 u.data
              reclaimed := r.reclaimed + slotSize r.data c
              prereqs := r.prereqs ++ u.prereqs
              calls := r.calls ++ [c] } := by
          simp [ReclaimRun.doReclaim, hu, hsize]
        have hsub : ∀ {freed : List (ℕ × ℕ)},
            freed.Sublist (rest.filter (stale memoryNode r.data)) →
            (c :: freed).Sublist ((c :: rest).filter (stale memoryNode r.data)) := by
          intro freed hf
          rw [List.filter_cons_of_pos hstale]
          exact hf.cons_cons c
        rw [hr']
        by_cases hmet : requested ≤ r.reclaimed + slotSize r.data c
        · rw [if_pos (Or.inr hmet)]
          refine ⟨[c], rfl, hsub (List.nil_sublist _), by simp [totalSize], hone,
            Or.inl hnormal, fun _ hless => ?_⟩
          exact absurd hmet (Nat.not_le.mpr hless)
        · rw [if_neg (by simp [hnormal, hmet])]
          -- the rest of the pass sees the same instances
          have hstale_eq : rest.filter (stale memoryNode (setData r.data c.1 u.data))
              = rest.filter (stale memoryNode r.data) :=
            List.filter_congr fun c' hc' => hone.stale_eq (by
              rintro hmem
              exact hc (List.mem_singleton.mp hmem ▸ hc'))
          have hun_eq : rest.any (unindexed (setData r.data c.1 u.data))
              = rest.any (unindexed r.data) := by
            rw [Bool.eq_iff_iff, List.any_eq_true, List.any_eq_true]
            refine exists_congr fun c' => and_congr_right fun hc' => ?_
            rw [hone.unindexed_eq]
            rintro hmem
            exact hc (List.mem_singleton.mp hmem ▸ hc')
          obtain ⟨freed, hspec⟩ := passZero_spec B copyDone memoryNode (l := rest) (r := { r with
              data := setData r.data c.1 u.data
              reclaimed := r.reclaimed + slotSize r.data c
              prereqs := r.prereqs ++ u.prereqs
              calls := r.calls ++ [c] }) hone.wellFormed hnormal (Nat.not_le.mp hmet) hnd
            (fun c' hc' => by rw [hone.count]; exact hlt c' (by simp [hc']))
          have hfreed_sub := hspec.sublist
          rw [hstale_eq] at hfreed_sub
          have hcf : c ∉ freed := fun hmem => hc (List.mem_of_mem_filter (hfreed_sub.subset hmem))
          refine ⟨c :: freed, by simp [hspec.calls], hsub hfreed_sub, ?_,
            hone.cons hspec.left hcf, ?_, fun hst hless => ?_⟩
          · rw [hspec.reclaimed]
            simp [totalSize, hone.sizes, Nat.add_assoc]
          · rcases hspec.status with hst | ⟨hst, hany⟩
            · exact Or.inl hst
            · exact Or.inr ⟨hst, by rw [hun_eq] at hany; simp [hany]⟩
          · obtain ⟨hall, hany⟩ := hspec.all hst hless
            rw [hstale_eq] at hall
            rw [hun_eq] at hany
            exact ⟨by rw [List.filter_cons_of_pos hstale, hall], by simp [hun, hany]⟩
      · rw [if_neg hstale]
        obtain ⟨freed, hspec⟩ := passZero_spec B copyDone memoryNode (l := rest) (r := r) hwf hnormal hneed hnd
          (fun c' hc' => hlt c' (by simp [hc']))
        have hfilter : (c :: rest).filter (stale memoryNode r.data)
            = rest.filter (stale memoryNode r.data) := List.filter_cons_of_neg hstale
        refine ⟨freed, hspec.calls, by rw [hfilter]; exact hspec.sublist, hspec.reclaimed,
          hspec.left, ?_, fun hst hless => ?_⟩
        · rcases hspec.status with hst | ⟨hst, hany⟩
          · exact Or.inl hst
          · exact Or.inr ⟨hst, by simp [hany]⟩
        · obtain ⟨hall, hany⟩ := hspec.all hst hless
          exact ⟨by rw [hfilter]; exact hall, by simp [hun, hany]⟩

end PassZero

/-! ## 5. Truthful reclaims -/

/-- **What a reclaim should be**: no abort, `do_reclaim` at most once for each instance and only on
candidates, and `reclaimed_s` the sum of their sizes. -/
def Truthful (memoryNode : ℕ) (ctx : ReclaimContext) (r : ReclaimRun) : Prop :=
  r.status ≠ .aborted ∧ r.calls.Nodup ∧
    (∀ c ∈ r.calls, c ∈ slots ctx.size ctx.data ∧ candidate memoryNode ctx.data c) ∧
    r.reclaimed = totalSize ctx.data r.calls

section Main

variable {B : EventBackend ℕ} {copyDone : ℕ → ℕ → List ℕ} {memoryNode requested size : ℕ}
  {policy : ReclaimPolicy} {data : ℕ → LogicalData ℕ} {r : ReclaimRun} {freed : List (ℕ × ℕ)}

theorem mem_slots {c : ℕ × ℕ} :
    c ∈ slots size data ↔ c.1 < size ∧ c.2 < (data c.1).count := by
  simp only [slots, List.mem_flatMap, List.mem_range, List.mem_map]
  constructor
  · rintro ⟨k, hk, i, hi, rfl⟩
    exact ⟨hk, hi⟩
  · rintro ⟨hk, hi⟩
    exact ⟨c.1, hk, c.2, hi, rfl⟩

theorem nodup_slots : (slots size data).Nodup := by
  refine List.nodup_flatMap.mpr ⟨fun k _ => ?_, ?_⟩
  · exact List.nodup_range.map fun i j h => (Prod.ext_iff.mp h).2
  · refine List.nodup_range.imp fun {k j} hkj => ?_
    refine List.disjoint_left.mpr ?_
    rintro c hck hcj
    obtain ⟨i, -, rfl⟩ := List.mem_map.mp hck
    obtain ⟨i', -, h⟩ := List.mem_map.mp hcj
    exact hkj (Prod.ext_iff.mp h).1.symm

theorem Freed.slots_eq (h : Freed data r.data freed) : slots size r.data = slots size data := by
  simp only [slots, h.count]

/-- The state in which passes 1 and 2 start: pass 0 has freed the invalid candidates, if it ran,
and has not met the request. -/
structure Ready (memoryNode requested size : ℕ) (policy : ReclaimPolicy)
    (data : ℕ → LogicalData ℕ) (r : ReclaimRun) (freed : List (ℕ × ℕ)) : Prop where
  status : r.status = .normal
  short : r.reclaimed < requested
  calls : r.calls = freed
  reclaimed : r.reclaimed = totalSize data freed
  left : Freed data r.data freed
  eq : freed = if policy.naive then [] else (slots size data).filter (stale memoryNode data)

theorem Ready.candidate_iff (h : Ready memoryNode requested size policy data r freed)
    {c : ℕ × ℕ} (hc : c ∈ slots size data) :
    candidate memoryNode r.data c = true ↔
      candidate memoryNode data c = true ∧
        (policy.naive || ((data c.1).inst c.2).msir ≠ .invalid) = true := by
  have hmem : c ∈ freed ↔ policy.naive = false ∧ stale memoryNode data c = true := by
    rw [h.eq]
    cases policy.naive <;> simp [hc]
  by_cases hcf : c ∈ freed
  · obtain ⟨hnaive, hst⟩ := hmem.mp hcf
    have hm : ((data c.1).inst c.2).msir = .invalid := by
      simp only [stale, Bool.and_eq_true, decide_eq_true_eq] at hst
      exact hst.2
    simp [candidate, h.left.scanned_eq, hcf, hnaive, hm]
  · have hsame : candidate memoryNode r.data c = candidate memoryNode data c := by
      simp [candidate, h.left.scanned_eq, hcf, h.left.kept c hcf]
    rw [hsame]
    refine ⟨fun hcand => ⟨hcand, ?_⟩, And.left⟩
    by_contra hlive
    simp only [Bool.or_eq_true, decide_eq_true_eq, not_or, Bool.not_eq_true,
      Decidable.not_not] at hlive
    exact hcf (hmem.mpr ⟨hlive.1, by simp [stale, hcand, hlive.2]⟩)

/-- So the passes collect what they would from the original tables. -/
theorem Ready.tagged_eq (h : Ready memoryNode requested size policy data r freed) (pass : ℕ) :
    tagged memoryNode r.data pass (slots size r.data)
      = tagged memoryNode data pass (live data policy size) := by
  have hstate : ∀ c : ℕ × ℕ, ((r.data c.1).inst c.2).msir = ((data c.1).inst c.2).msir :=
    fun c => congrFun (h.left.msir c.1) c.2
  rw [h.left.slots_eq]
  unfold tagged live
  rw [List.filter_filter]
  have hfilter : (slots size data).filter (fun c => candidate memoryNode r.data c &&
        eligibleState pass ((r.data c.1).inst c.2).msir)
      = (slots size data).filter (fun c => candidate memoryNode data c &&
        eligibleState pass ((data c.1).inst c.2).msir &&
          (policy.naive || ((data c.1).inst c.2).msir ≠ .invalid)) := by
    refine List.filter_congr fun c hc => ?_
    rw [Bool.eq_iff_iff, Bool.and_eq_true, h.candidate_iff hc, hstate c, Bool.and_eq_true,
      Bool.and_eq_true]
    tauto
  rw [hfilter]
  refine List.map_congr_left fun c hc => ?_
  obtain ⟨hslot, hcand⟩ := List.mem_filter.mp hc
  have hleft : candidate memoryNode r.data c = true := by
    rw [h.candidate_iff hslot]
    simp only [Bool.and_eq_true] at hcand
    exact ⟨hcand.1.1, hcand.2⟩
  have hcf : c ∉ freed := by
    intro hcf
    simp [candidate, h.left.scanned_eq, hcf] at hleft
  rw [h.left.kept c hcf]

theorem mem_collected {c : ℕ × ℕ}
    (hc : c ∈ policy.arrange (collected memoryNode requested data policy size)) :
    c ∈ slots size data ∧ candidate memoryNode data c = true ∧
      (policy.naive || ((data c.1).inst c.2).msir ≠ .invalid) = true := by
  have htagged : ∀ pass, ∀ t ∈ tagged memoryNode data pass (live data policy size),
      t.1 ∈ slots size data ∧ candidate memoryNode data t.1 = true ∧
        (policy.naive || ((data t.1.1).inst t.1.2).msir ≠ .invalid) = true := by
    intro pass t ht
    obtain ⟨c, hc, rfl⟩ := List.mem_map.mp ht
    obtain ⟨hlive, hcand⟩ := List.mem_filter.mp hc
    obtain ⟨hslot, hstate⟩ := List.mem_filter.mp hlive
    rw [Bool.and_eq_true] at hcand
    exact ⟨hslot, hcand.1, hstate⟩
  obtain ⟨t, ht, rfl⟩ := List.mem_map.mp hc
  have hmem : t ∈ collected memoryNode requested data policy size := by
    split at ht
    · exact ht
    · exact (policy.sort_perm _).mem_iff.mp ht
  have hfirst : ∀ t ∈ (if policy.naive then [] else tagged memoryNode data 1 (live data policy size)),
      t ∈ tagged memoryNode data 1 (live data policy size) := by
    intro t ht
    split at ht
    · simp at ht
    · exact ht
  unfold collected at hmem
  dsimp only at hmem
  generalize (if policy.naive then [] else tagged memoryNode data 1 (live data policy size))
    = first at hmem hfirst
  split at hmem
  · rcases List.mem_append.mp hmem with h | h
    · exact htagged 1 t (hfirst t h)
    · exact htagged 2 t h
  · exact htagged 1 t (hfirst t hmem)

theorem metUntil_subset {data : ℕ → LogicalData ℕ} :
    ∀ (need : ℕ) (l : List (ℕ × ℕ)), metUntil data need l ⊆ l
  | _, [] => by simp [metUntil]
  | need, c :: rest => by
    unfold metUntil
    split
    · simp
    · exact List.cons_subset_cons c (metUntil_subset _ rest)

/-- A list of instances has no duplicates if no logical data has any in it. -/
theorem nodup_of_ofData :
    ∀ {l : List (ℕ × ℕ)}, (∀ k, (ofData k l).Nodup) → l.Nodup
  | [], _ => List.nodup_nil
  | c :: rest, h => by
    have hhead : ofData c.1 (c :: rest) = c.2 :: ofData c.1 rest := by simp [ofData]
    refine List.nodup_cons.mpr ⟨fun hc => ?_, nodup_of_ofData fun k => ?_⟩
    · have hnd := h c.1
      rw [hhead] at hnd
      refine (List.nodup_cons.mp hnd).1 ?_
      exact List.mem_map.mpr ⟨c, List.mem_filter.mpr ⟨hc, by simp⟩, rfl⟩
    · refine (h k).sublist ?_
      exact ((List.sublist_cons_self c rest).filter _).map _

/-- Once pass 0 has run its course and nothing stumbles, the rest is one loop over what was
collected. -/
theorem Ready.collectAndConsume_eq (h : Ready memoryNode requested size policy data r freed)
    (hun : (slots size r.data).any (unindexed r.data) = false) :
    collectAndConsume B copyDone memoryNode requested policy size r
      = consume B copyDone requested
          (policy.arrange (collected memoryNode requested data policy size)) r := by
  have hsize : totalSize r.data = totalSize data := by
    funext l
    simp only [totalSize, h.left.sizes]
  unfold collectAndConsume collected
  simp only [collect_eq, hun, Bool.false_eq_true, if_false, h.tagged_eq, hsize]
  cases policy.naive with
  | true =>
    simp only [if_true]
    split <;> rfl
  | false =>
    simp only [Bool.false_eq_true, if_false]
    split <;> rfl

theorem Ready.callable (h : Ready memoryNode requested size policy data r freed) (k : ℕ) :
    Callable (r.data k) (ofData k (met memoryNode requested data policy size)) := by
  have hfacts : ∀ i ∈ ofData k (met memoryNode requested data policy size),
      (k, i) ∈ slots size data ∧ candidate memoryNode r.data (k, i) = true := by
    intro i hi
    obtain ⟨c, hc, rfl⟩ := List.mem_map.mp hi
    obtain ⟨hmet, hk⟩ := List.mem_filter.mp hc
    obtain ⟨hslot, hcand, hlive⟩ := mem_collected (metUntil_subset _ _ hmet)
    have hck : (k, c.2) = c := by
      rw [decide_eq_true_eq] at hk
      exact Prod.ext hk.symm rfl
    rw [hck]
    exact ⟨hslot, (h.candidate_iff hslot).mpr ⟨hcand, hlive⟩⟩
  refine ⟨fun i hi => ?_, fun i hi => ?_, fun href i hi h0 => ?_⟩
  · rw [h.left.count]
    exact (mem_slots.mp (hfacts i hi).1).2
  · have hcand := (hfacts i hi).2
    simp only [candidate, scanned, Bool.and_eq_true] at hcand
    exact (h.left.wellFormed k).used_of_allocated i hcand.1.2
  · have hcand := (hfacts i hi).2
    simp only [candidate, scanned, Bool.and_eq_true] at hcand
    obtain ⟨ref, href⟩ := Option.ne_none_iff_exists'.mp href
    have hrec := ((h.left.wellFormed k).reference ref href).2
    rw [h0] at hcand
    simp [hrec] at hcand

/-- **The last loop is truthful exactly when every logical data can take its calls.** -/
theorem Ready.truthful_iff {ctx : ReclaimContext}
    (h : Ready memoryNode requested ctx.size policy ctx.data r freed)
    (hun : (slots ctx.size r.data).any (unindexed r.data) = false) :
    Truthful memoryNode ctx (collectAndConsume B copyDone memoryNode requested policy ctx.size r) ↔
      ∀ k, CanReclaim (ctx.data k)
        (ofData k (met memoryNode requested ctx.data policy ctx.size)) := by
  set ids := met memoryNode requested ctx.data policy ctx.size with hids
  have hmet : metUntil r.data (requested - r.reclaimed)
      (policy.arrange (collected memoryNode requested ctx.data policy ctx.size)) = ids := by
    rw [metUntil_congr h.left.sizes, h.reclaimed, h.eq, hids, met, staleSize]
    cases policy.naive <;> simp [totalSize]
  have hcan : (reclaimEach B copyDone ids r.data).isSome ↔
      ∀ k, CanReclaim (ctx.data k) (ofData k ids) := by
    rw [hids, reclaimEach_isSome_iff]
    refine forall_congr' fun k => ?_
    rw [reclaimAll_isSome_iff (h.left.wellFormed k) (h.callable k)]
    simp only [CanReclaim, h.left.msir, h.left.reference]
  obtain ⟨hgood, hbad⟩ := consume_spec B copyDone
    (l := policy.arrange (collected memoryNode requested ctx.data policy ctx.size))
    h.status h.short
  rw [hmet] at hgood hbad
  rw [h.collectAndConsume_eq hun]
  constructor
  · rintro ⟨hst, -, -, -⟩
    rw [← hcan]
    by_contra hnone
    exact hst (hbad hnone)
  · intro hall
    obtain ⟨hst, hcalls, hrec⟩ := hgood (hcan.mpr hall)
    have hids_facts : ∀ c ∈ ids, c ∈ slots ctx.size ctx.data ∧
        candidate memoryNode ctx.data c = true ∧ candidate memoryNode r.data c = true := by
      intro c hc
      obtain ⟨hslot, hcand, hlive⟩ := mem_collected (metUntil_subset _ _ hc)
      exact ⟨hslot, hcand, (h.candidate_iff hslot).mpr ⟨hcand, hlive⟩⟩
    have hfreed_facts : ∀ c ∈ freed, c ∈ slots ctx.size ctx.data ∧
        candidate memoryNode ctx.data c = true := by
      intro c hc
      rw [h.eq] at hc
      split at hc
      · simp at hc
      · obtain ⟨hslot, hst⟩ := List.mem_filter.mp hc
        simp only [stale, Bool.and_eq_true] at hst
        exact ⟨hslot, hst.1⟩
    have hfreed_nodup : freed.Nodup := by
      rw [h.eq]
      split
      · exact List.nodup_nil
      · exact nodup_slots.filter _
    refine ⟨by simp [hst], ?_, ?_, ?_⟩
    · rw [hcalls, h.calls]
      refine hfreed_nodup.append (nodup_of_ofData fun k => (hall k).1) ?_
      rw [List.disjoint_left]
      intro c hcf hc
      have hcand := (hids_facts c hc).2.2
      simp [candidate, h.left.scanned_eq, hcf] at hcand
    · intro c hc
      rw [hcalls, h.calls] at hc
      rcases List.mem_append.mp hc with hc | hc
      · exact hfreed_facts c hc
      · exact ⟨(hids_facts c hc).1, (hids_facts c hc).2.1⟩
    · rw [hrec, hcalls, h.calls, h.reclaimed]
      simp [totalSize, h.left.sizes]

end Main

/-! ## 6. An instance freed twice -/

/-- The default policy: all passes, sorted by age. -/
def ReclaimPolicy.byAge : ReclaimPolicy where
  naive := false
  noSort := false
  sort := List.insertionSort fun a b => a.2 ≤ b.2
  sort_perm := List.perm_insertionSort _
  sort_sorted l :=
    have : Std.Total fun a b : (ℕ × ℕ) × ℕ => a.2 ≤ b.2 := ⟨fun a b => Nat.le_total a.2 b.2⟩
    have : IsTrans ((ℕ × ℕ) × ℕ) fun a b => a.2 ≤ b.2 := ⟨fun _ _ _ => Nat.le_trans⟩
    List.pairwise_insertionSort _ l

/-- A logical data with its reference instance on the host and a copy of 8 bytes on device 0, both
shared. -/
def sharedOnDevice : LogicalData ℕ where
  count := 2
  inst i :=
    if i = 0 then { used := true, dplace := .host, msir := .shared, allocated := true }
    else if i = 1 then
      { used := true, dplace := .device 0, msir := .shared, allocated := true,
        allocatedSize := 8, reclaimable := true }
    else {}
  referenceInstanceId := some 0

/-- A context with just that logical data. -/
def sharedOnDeviceContext : ReclaimContext where
  size := 1
  data _ := sharedOnDevice
  wellFormed _ :=
    { range := by
        intro i hi
        by_contra hlt
        have h0 : i ≠ 0 := by rintro rfl; exact hlt (by decide)
        have h1 : i ≠ 1 := by rintro rfl; exact hlt (by decide)
        simp [LogicalData.msir, sharedOnDevice, h0, h1] at hi
      used_of_allocated := by
        intro i hi
        by_cases h0 : i = 0
        · simp [sharedOnDevice, h0]
        · by_cases h1 : i = 1
          · simp [sharedOnDevice, h1]
          · simp [sharedOnDevice, h0, h1] at hi
      reference := by
        intro ref href
        exact ⟨by simpa [sharedOnDevice] using href.symm, rfl⟩ }

end Cccl.Stf
