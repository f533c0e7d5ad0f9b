/-
# Reconstructing a logical data after reductions

`apply_redux_op`, `apply_redux_on_node` and `reconstruct_after_redux` (`logical_data.cuh`).  Tasks
that contribute to a reduction each work on an instance of their own.  The next ordinary access
has to put the data together again in one target instance: the contributions on each memory node
are reduced in place, the result is copied to a spare instance on the target's node, and there
everything is reduced into the target.

Only the order of the operations matters here, so the events are left out, and contents are values
of an arbitrary commutative monoid with the reduction operator as its addition.
-/
import Mathlib.Algebra.BigOperators.Group.List.Basic
import Cccl.Stf.Msi

namespace Cccl.Stf

open MsirStateId

variable {E V : Type*}

/-! ## 1. Reducing in place -/

section Apply

variable [AddCommMonoid V]

/-- `apply_redux_op`: combine the contents of `inn` into `inout`.  It asserts that the two are
different and allocated, and that one of them has an operator. -/
def applyReduxOp (d : LogicalData E) (inout inn : ℕ) (content : ℕ → V) : Option (ℕ → V) :=
  if inn ≠ inout ∧ (d.inst inn).allocated ∧ (d.inst inout).allocated ∧
      ((d.inst inn).reduxOp ∨ (d.inst inout).reduxOp) then
    some (Function.update content inout (content inn + content inout))
  else none

/-- `apply_redux_on_node`: each instance of the list is combined into the next, so that the last
one holds the result. -/
def applyReduxOnNode (d : LogicalData E) : List ℕ → (ℕ → V) → Option (ℕ → V)
  | a :: b :: rest, content =>
    match applyReduxOp d b a content with
    | none => none
    | some content' => applyReduxOnNode d (b :: rest) content'
  | _, content => some content

end Apply

/-! ## 2. The plan -/

section Plan

variable (d : LogicalData E) (target : ℕ)

/-- `ref_copies`: the valid instances, in order. -/
def refCopies : List ℕ :=
  (List.range d.count).filter fun i => (d.inst i).msir = .modified || (d.inst i).msir = .shared

/-- The instances with a contribution, but for the target. -/
def reductionIds : List ℕ :=
  (List.range d.count).filter fun i => i ≠ target && (d.inst i).msir = .reduction

/-- "The" reference copy, unless it is the target. -/
def referenceCopy : List ℕ :=
  match refCopies d with
  | ref :: _ => if ref ≠ target then [ref] else []
  | [] => []

/-- `per_node`: what has to be reduced on each memory node, the reference copy last. -/
def perNodePlan (n : ℕ) : List ℕ :=
  (reductionIds d target ++ referenceCopy d target).filter fun i =>
    toIndex (d.inst i).dplace = some n

/-- `available_instances`: invalid instances at the target's place, and the valid copies past the
first, for which the source looks at the place of the instance whose number is the *position* of
the copy in the list of copies. -/
def availablePlan : List ℕ :=
  ((List.range d.count).filter fun i =>
      (d.inst i).msir = .invalid && (d.inst i).dplace = (d.inst target).dplace) ++
    (((refCopies d).zipIdx.drop 1).filter fun c =>
      (d.inst c.2).dplace = (d.inst target).dplace).map Prod.fst

/-- `to_index` finds an entry of `per_node`. -/
def indexed (maxNodes i : ℕ) : Bool :=
  match toIndex (d.inst i).dplace with
  | some n => n < maxNodes
  | none => false

end Plan

/-! ## 3. Carrying it out -/

/-- The reduction under way; `temps` are the spare instances used so far. -/
structure ReduxRun (E V : Type*) where
  data : LogicalData E
  content : ℕ → V
  perNode : ℕ → List ℕ
  available : List ℕ
  temps : List ℕ := []

section Run

variable [AddCommMonoid V]

/-- A spare instance at the target's place: the last available one, or a slot not in use. -/
def takeSpare (place : DataPlace) (r : ReduxRun E V) : ℕ × ReduxRun E V :=
  match r.available.getLast? with
  | some id => (id, { r with available := r.available.dropLast, temps := r.temps ++ [id] })
  | none =>
    let (id, d) := r.data.findUnusedInstanceId place
    (id, { r with data := d, temps := r.temps ++ [id] })

/-- Give the spare instance memory, which holds anything, and copy the result of a node to it,
with the operator if there is one. -/
def copyToSpare (junk : ℕ → V) (id src : ℕ) (r : ReduxRun E V) : ReduxRun E V :=
  { r with
    data := (r.data.depAllocate id 0 []).1.modify id fun n =>
      { n with reduxOp := n.reduxOp || (r.data.inst src).reduxOp }
    content := Function.update
      (if (r.data.inst id).allocated then r.content else Function.update r.content id (junk id))
      id (r.content src) }

/-- One memory node of the plan. -/
def reduxNode (junk : ℕ → V) (target : ℕ) (place : DataPlace) (n : ℕ) (r : ReduxRun E V) :
    Option (ReduxRun E V) :=
  match (r.perNode n).getLast? with
  | none => some r
  | some src =>
    -- skip the target memory node in this step
    if fromIndex n = place then some r
    else
      match applyReduxOnNode r.data (r.perNode n) r.content with
      | none => none
      | some content =>
        let (id, r) := takeSpare place { r with content := content }
        if (r.data.inst src).allocated then
          let r := copyToSpare junk id src r
          if id = target then some r
          else
            match toIndex place with
            | none => none
            | some node => some { r with
                perNode := Function.update r.perNode node (r.perNode node ++ [id]) }
        else none

/-- The nodes in order. -/
def reduxNodes (junk : ℕ → V) (target : ℕ) (place : DataPlace) :
    ℕ → ReduxRun E V → Option (ReduxRun E V)
  | 0, r => some r
  | n + 1, r =>
    match reduxNodes junk target place n r with
    | none => none
    | some r' => reduxNode junk target place n r'

/-- What is left on the target's node is reduced, and the result into the target. -/
def reduxTarget (target node : ℕ) (r : ReduxRun E V) : Option (ReduxRun E V) :=
  match applyReduxOnNode r.data (r.perNode node) r.content with
  | none => none
  | some content =>
    match (r.perNode node).getLast? with
    | none => some { r with content := content }
    | some inn =>
      let d := r.data.modify target fun n =>
        { n with reduxOp := n.reduxOp || (r.data.inst inn).reduxOp }
      match applyReduxOp d target inn content with
      | none => none
      | some content => some { r with data := d, content := content }

/-- `reconstruct_after_redux`, with no result where it throws or fails an assertion. -/
def reconstructAfterRedux (maxNodes : ℕ) (junk : ℕ → V) (target : ℕ) (d : LogicalData E)
    (content : ℕ → V) : Option (ReduxRun E V) :=
  if (target :: (reductionIds d target ++ referenceCopy d target)).all (indexed d maxNodes) then
    let place := (d.inst target).dplace
    -- first start by invalidating all data instances
    let r : ReduxRun E V :=
      { data := d.modifyAll fun _ n => { n with msir := .invalid }
        content := content
        perNode := perNodePlan d target
        available := availablePlan d target }
    match reduxNodes junk target place maxNodes r, toIndex place with
    | some r, some node =>
      match reduxTarget target node r with
      | none => none
      | some r => some { r with data := r.data.modify target fun n => { n with msir := .modified } }
    | _, _ => none
  else none

end Run

/-! ## 4. A list reduced in place -/

section InPlace

variable [AddCommMonoid V] {d : LogicalData E}

/-- Of two instances that are combined at least one has an operator. -/
def OpPair (d : LogicalData E) (a b : ℕ) : Prop :=
  (d.inst a).reduxOp = true ∨ (d.inst b).reduxOp = true

/-- **Distinct allocated instances are reduced into the last one**, and nothing outside the list
changes. -/
theorem applyReduxOnNode_spec :
    ∀ {ids : List ℕ} (content : ℕ → V), ids.Nodup → (∀ i ∈ ids, (d.inst i).allocated) →
      ids.Pairwise (OpPair d) →
      ∃ content', applyReduxOnNode d ids content = some content' ∧
        (∀ i, i ∉ ids → content' i = content i) ∧
        ∀ last ∈ ids.getLast?, content' last = (ids.map content).sum
  | [], content, _, _, _ => ⟨content, rfl, fun _ _ => rfl, by simp⟩
  | [a], content, _, _, _ => ⟨content, rfl, fun _ _ => rfl, by simp⟩
  | a :: b :: rest, content, hnd, hall, hop => by
    obtain ⟨ha, hnd'⟩ := List.nodup_cons.mp hnd
    obtain ⟨hopa, hop'⟩ := List.pairwise_cons.mp hop
    have hab : a ≠ b := fun h => ha (by simp [h])
    have hstep : applyReduxOp d b a content
        = some (Function.update content b (content a + content b)) := by
      rw [applyReduxOp, if_pos]
      exact ⟨hab, hall a (by simp), hall b (by simp), hopa b (by simp)⟩
    obtain ⟨content', hrun, hout, hlast⟩ := applyReduxOnNode_spec
      (Function.update content b (content a + content b)) hnd'
      (fun i hi => hall i (by simp [hi])) hop'
    refine ⟨content', by simp only [applyReduxOnNode, hstep, hrun], fun i hi => ?_, ?_⟩
    · rw [List.mem_cons, not_or] at hi
      have hib : i ≠ b := fun h => hi.2 (by simp [h])
      rw [hout i hi.2, Function.update_of_ne hib]
    · intro last hl
      rw [List.getLast?_cons_cons] at hl
      obtain ⟨hb, -⟩ := List.nodup_cons.mp hnd'
      have hrest : rest.map (Function.update content b (content a + content b))
          = rest.map content := by
        refine List.map_congr_left fun i hi => ?_
        rw [Function.update_of_ne]
        rintro rfl
        exact hb hi
      rw [hlast last hl]
      simp [hrest, add_assoc]

end InPlace

/-! ## 5. The spare instances -/

section Spares

variable (d : LogicalData E) (target : ℕ)

/-- The slots not in use, in order. -/
def unusedSlots : List ℕ :=
  (List.range d.count).filter fun i => !(d.inst i).used

/-- The spare instance handed out for the `j`-th node: the available ones from the last on, then
free slots, then new ones. -/
def spareAt (j : ℕ) : ℕ :=
  match ((availablePlan d target).reverse ++ unusedSlots d)[j]? with
  | some i => i
  | none => d.count + (j - ((availablePlan d target).length + (unusedSlots d).length))

/-- The spare instances handed out for the first `k` nodes. -/
def spares (k : ℕ) : List ℕ :=
  (List.range k).map (spareAt d target)

/-- The first `n` nodes whose contributions have to be copied. -/
def copyNodes (n : ℕ) : List ℕ :=
  (List.range n).filter fun m =>
    perNodePlan d target m ≠ [] && fromIndex m ≠ (d.inst target).dplace

/-- All contributions: the instances with a pending reduction, and the first valid copy. -/
def contributions : List ℕ :=
  ((List.range d.count).filter fun i => (d.inst i).msir = .reduction) ++ (refCopies d).take 1

end Spares

/-- What holds of the tables that are reduced: slots not in use hold nothing, instances that are
not invalid have memory, pending reductions have an operator, and the target is in use. -/
structure LogicalData.Reducible (d : LogicalData E) (target : ℕ) : Prop where
  target_lt : target < d.count
  target_used : (d.inst target).used
  unused : ∀ i, (d.inst i).used = false → (d.inst i).msir = .invalid
  allocated : ∀ i, (d.inst i).msir ≠ .invalid → (d.inst i).allocated
  reduxOp : ∀ i, (d.inst i).msir = .reduction → (d.inst i).reduxOp

/-- **When every node's contributions arrive**: they and the target are on some memory node; no
slot is handed out twice; and a target at a place of its own on its node has no contribution next
to it that would be copied. -/
structure CopyPlan (d : LogicalData E) (maxNodes target : ℕ) : Prop where
  indexed : ∀ i ∈ target :: (reductionIds d target ++ referenceCopy d target),
    indexed d maxNodes i
  distinct : (spares d target (copyNodes d target maxNodes).length).Nodup
  canonical : ∀ node, toIndex (d.inst target).dplace = some node →
    fromIndex node = (d.inst target).dplace ∨
      (perNodePlan d target node = [] ∧
        ∀ i ∈ spares d target (copyNodes d target node).length, i = target)

/-- **When the plan works out**: the contributions arrive; the spare instances are at the target's
place; and the target holds a contribution or receives one. -/
structure SoundPlan (d : LogicalData E) (maxNodes target : ℕ) : Prop
    extends CopyPlan d maxNodes target where
  located : ∀ i ∈ (availablePlan d target).reverse.take (copyNodes d target maxNodes).length,
    (d.inst i).dplace = (d.inst target).dplace
  filled : contributions d = [] ∨ target ∈ contributions d ∨
    target ∈ spares d target (copyNodes d target maxNodes).length

section PlanLemmas

variable {d : LogicalData E} {target : ℕ}

theorem spares_succ (k : ℕ) : spares d target (k + 1) = spares d target k ++ [spareAt d target k] := by
  simp [spares, List.range_succ]

theorem mem_refCopies {i : ℕ} :
    i ∈ refCopies d ↔ i < d.count ∧ ((d.inst i).msir = .modified ∨ (d.inst i).msir = .shared) := by
  simp [refCopies]

theorem nodup_refCopies : (refCopies d).Nodup :=
  List.nodup_range.filter _

theorem mem_referenceCopy {i : ℕ} :
    i ∈ referenceCopy d target ↔ (refCopies d).head? = some i ∧ i ≠ target := by
  unfold referenceCopy
  cases refCopies d with
  | nil => simp
  | cons ref rest =>
    by_cases h : ref = target
    · simp only [h, ne_eq, not_true_eq_false, if_false, List.not_mem_nil, List.head?_cons,
        Option.some.injEq, false_iff, not_and, not_not]
      exact fun h' => h'.symm
    · simp only [ne_eq, h, not_false_eq_true, if_true, List.mem_singleton, List.head?_cons,
        Option.some.injEq]
      constructor
      · rintro rfl
        exact ⟨rfl, h⟩
      · rintro ⟨rfl, -⟩
        rfl

/-- The contributions to be moved: pending reductions and the first valid copy, in that order. -/
theorem mem_plan {i : ℕ} :
    i ∈ reductionIds d target ++ referenceCopy d target ↔
      i ≠ target ∧ (i < d.count ∧ (d.inst i).msir = .reduction ∨ (refCopies d).head? = some i) := by
  rw [List.mem_append, mem_referenceCopy]
  simp only [reductionIds, List.mem_filter, List.mem_range, Bool.and_eq_true, decide_eq_true_eq]
  tauto

theorem msir_of_head {i : ℕ} (h : (refCopies d).head? = some i) :
    i < d.count ∧ ((d.inst i).msir = .modified ∨ (d.inst i).msir = .shared) :=
  mem_refCopies.mp (List.mem_of_mem_head? h)

theorem nodup_plan : (reductionIds d target ++ referenceCopy d target).Nodup := by
  refine (List.nodup_range.filter _).append ?_ ?_
  · unfold referenceCopy
    split
    · split <;> simp
    · simp
  · refine List.disjoint_left.mpr fun i hred href => ?_
    rw [mem_referenceCopy] at href
    simp only [List.mem_filter, List.mem_range, Bool.and_eq_true, decide_eq_true_eq] at hred
    rcases (msir_of_head href.1).2 with h | h <;> simp [h] at hred

theorem mem_perNodePlan {n i : ℕ} :
    i ∈ perNodePlan d target n ↔
      i ∈ reductionIds d target ++ referenceCopy d target ∧
        toIndex (d.inst i).dplace = some n := by
  simp only [perNodePlan, List.mem_filter, decide_eq_true_eq]

theorem nodup_perNodePlan (n : ℕ) : (perNodePlan d target n).Nodup :=
  nodup_plan.filter _

theorem target_notMem_perNodePlan (n : ℕ) : target ∉ perNodePlan d target n := by
  rw [mem_perNodePlan, mem_plan]
  rintro ⟨⟨hne, -⟩, -⟩
  exact hne rfl

/-- What is available is invalid and at the place, or valid but not the first valid copy. -/
theorem mem_availablePlan {i : ℕ} (h : i ∈ availablePlan d target) :
    i < d.count ∧ ((d.inst i).msir = .invalid ∧ (d.inst i).dplace = (d.inst target).dplace ∨
      (((d.inst i).msir = .modified ∨ (d.inst i).msir = .shared) ∧ (refCopies d).head? ≠ some i)) := by
  rcases List.mem_append.mp h with h | h
  · simp only [List.mem_filter, List.mem_range, Bool.and_eq_true, decide_eq_true_eq] at h
    exact ⟨h.1, Or.inl h.2⟩
  · obtain ⟨c, hc, rfl⟩ := List.mem_map.mp h
    have hdrop := (List.mem_filter.mp hc).1
    have hmem : c.1 ∈ (refCopies d).drop 1 := by
      have hmap : ((refCopies d).zipIdx.drop 1).map Prod.fst = (refCopies d).drop 1 := by
        rw [List.map_drop, List.zipIdx_map_fst]
      rw [← hmap]
      exact List.mem_map_of_mem hdrop
    have hvalid := mem_refCopies.mp (List.mem_of_mem_drop hmem)
    refine ⟨hvalid.1, Or.inr ⟨hvalid.2, fun hhead => ?_⟩⟩
    have hnd := nodup_refCopies (d := d)
    cases hr : refCopies d with
    | nil => simp [hr] at hhead
    | cons ref rest =>
      rw [hr] at hhead hmem hnd
      simp only [List.head?_cons, Option.some.injEq] at hhead
      simp only [List.drop_succ_cons, List.drop_zero] at hmem
      exact (List.nodup_cons.mp hnd).1 (hhead ▸ hmem)

/-- A spare instance is an available one, a slot not in use or a new slot. -/
theorem spareAt_cases (d : LogicalData E) (target j : ℕ) :
    spareAt d target j ∈ availablePlan d target ∨
      spareAt d target j ∈ unusedSlots d ∨ d.count ≤ spareAt d target j := by
  unfold spareAt
  split
  · rename_i i h
    rcases List.mem_append.mp (List.mem_of_getElem? h) with h | h
    · exact Or.inl (List.mem_reverse.mp h)
    · exact Or.inr (Or.inl h)
  · exact Or.inr (Or.inr (Nat.le_add_right _ _))

/-- No spare instance holds a contribution that has to be moved. -/
theorem spareAt_notMem_plan (hd : d.Reducible target) (j : ℕ) :
    spareAt d target j ∉ reductionIds d target ++ referenceCopy d target := by
  intro hmem
  rw [mem_plan] at hmem
  have hlt : spareAt d target j < d.count ∧ (d.inst (spareAt d target j)).msir ≠ .invalid ∧
      ((d.inst (spareAt d target j)).msir = .reduction ∨
        (refCopies d).head? = some (spareAt d target j)) := by
    rcases hmem.2 with ⟨hlt, hred⟩ | hhead
    · exact ⟨hlt, by simp [hred], Or.inl hred⟩
    · obtain ⟨hlt, hm | hm⟩ := msir_of_head hhead
      · exact ⟨hlt, by simp [hm], Or.inr hhead⟩
      · exact ⟨hlt, by simp [hm], Or.inr hhead⟩
  rcases spareAt_cases d target j with h | h | h
  · obtain ⟨-, ⟨hinv, -⟩ | ⟨hvalid, hnot⟩⟩ := mem_availablePlan h
    · exact hlt.2.1 hinv
    · rcases hlt.2.2 with hred | hhead
      · rcases hvalid with hm | hm <;> simp [hm] at hred
      · exact hnot hhead
  · simp only [unusedSlots, List.mem_filter, Bool.not_eq_true'] at h
    exact hlt.2.1 (hd.unused _ h.2)
  · exact absurd hlt.1 (Nat.not_lt.mpr h)

theorem spare_notMem_perNodePlan (hd : d.Reducible target) {k i : ℕ}
    (hi : i ∈ spares d target k) (n : ℕ) : i ∉ perNodePlan d target n := by
  obtain ⟨j, -, rfl⟩ := List.mem_map.mp hi
  intro h
  exact spareAt_notMem_plan hd j (mem_perNodePlan.mp h).1

end PlanLemmas

/-! ## 6. Handing out spare instances -/

section Hand

variable {d : LogicalData E} {target : ℕ}

theorem unusedSlots_congr {d d' : LogicalData E} (hcount : d'.count = d.count)
    (hused : ∀ i, (d'.inst i).used = (d.inst i).used) : unusedSlots d' = unusedSlots d := by
  simp only [unusedSlots, hcount, hused]

/-- `find_unused_instance_id` takes the first slot not in use. -/
theorem findUnusedInstanceId_cons {id : ℕ} {rest : List ℕ} (h : unusedSlots d = id :: rest)
    (place : DataPlace) :
    d.findUnusedInstanceId place
        = (id, d.modify id fun n => { n with dplace := place, used := true }) ∧
      unusedSlots (d.modify id fun n => { n with dplace := place, used := true }) = rest := by
  have hfind : (List.range d.count).find? (fun i => !(d.inst i).used) = some id := by
    rw [← List.head?_filter]
    have : (List.range d.count).filter (fun i => !(d.inst i).used) = id :: rest := h
    rw [this]
    rfl
  refine ⟨by simp only [LogicalData.findUnusedInstanceId, hfind], ?_⟩
  have hnd : (unusedSlots d).Nodup := List.nodup_range.filter _
  have hfilter : unusedSlots (d.modify id fun n => { n with dplace := place, used := true })
      = (unusedSlots d).filter fun i => i ≠ id := by
    simp only [unusedSlots, LogicalData.modify_count, List.filter_filter]
    refine List.filter_congr fun i _ => ?_
    by_cases hi : i = id <;> simp [hi]
  rw [hfilter, h]
  rw [h] at hnd
  have hid := (List.nodup_cons.mp hnd).1
  simp only [ne_eq, decide_not, List.filter_cons, decide_true, Bool.not_true, Bool.false_eq_true,
    if_false]
  rw [List.filter_eq_self]
  intro i hi
  simp only [Bool.not_eq_true', decide_eq_false_iff_not]
  rintro rfl
  exact hid hi

theorem findUnusedInstanceId_nil (h : unusedSlots d = []) (place : DataPlace) :
    d.findUnusedInstanceId place = (d.count, { d with
        count := d.count + 1
        inst := fun i => if i = d.count then { used := true, dplace := place } else d.inst i }) ∧
      unusedSlots ({ d with
        count := d.count + 1
        inst := fun i => if i = d.count then { used := true, dplace := place } else d.inst i }
          : LogicalData E) = [] := by
  have hnone : (List.range d.count).find? (fun i => !(d.inst i).used) = none := by
    rw [← List.head?_filter]
    have : (List.range d.count).filter (fun i => !(d.inst i).used) = [] := h
    rw [this]
    rfl
  refine ⟨by simp only [LogicalData.findUnusedInstanceId, hnone], ?_⟩
  have hall : ∀ i < d.count, (d.inst i).used = true := by
    intro i hi
    by_contra hun
    rw [Bool.not_eq_true] at hun
    have hmem : i ∈ unusedSlots d := by simp [unusedSlots, hi, hun]
    simp [h] at hmem
  simp only [unusedSlots, List.filter_eq_nil_iff, List.mem_range, Bool.not_eq_true',
    Bool.not_eq_false]
  intro i hi
  by_cases hic : i = d.count
  · simp [hic]
  · simp [hic, hall i (by omega)]

/-- The state of the slots once `k` spare instances have been handed out. -/
structure SlotInv (d : LogicalData E) (target k : ℕ) (r : ReduxRun E V) : Prop where
  temps : r.temps = spares d target k
  available : r.available = (availablePlan d target).take ((availablePlan d target).length - k)
  unused : unusedSlots r.data = (unusedSlots d).drop (k - (availablePlan d target).length)
  count : r.data.count
    = d.count + (k - ((availablePlan d target).length + (unusedSlots d).length))
  allocated : ∀ i, (r.data.inst i).allocated
    = ((d.inst i).allocated || decide (i ∈ spares d target k))
  reduxOp : ∀ i, i ∉ spares d target k → (r.data.inst i).reduxOp = (d.inst i).reduxOp
  msir : ∀ i, (r.data.inst i).msir = .invalid
  dplace : ∀ i, (r.data.inst i).dplace = (d.inst i).dplace ∨
    (r.data.inst i).dplace = (d.inst target).dplace ∧ (i ∈ unusedSlots d ∨ d.count ≤ i)
  fresh : ∀ j < k, (availablePlan d target).length ≤ j →
    (r.data.inst (spareAt d target j)).dplace = (d.inst target).dplace

variable {k : ℕ} {r : ReduxRun E V}

theorem SlotInv.congr {r' : ReduxRun E V} (h : SlotInv d target k r) (hdata : r'.data = r.data)
    (havail : r'.available = r.available) (htemps : r'.temps = r.temps) :
    SlotInv d target k r' := by
  obtain ⟨h1, h2, h3, h4, h5, h6, h7, h8, h9⟩ := h
  constructor <;> simp only [hdata, havail, htemps] <;> assumption

/-- While there are available instances the next spare one is the last of them. -/
theorem spareAt_available (hk : k < (availablePlan d target).length) :
    ((availablePlan d target).take ((availablePlan d target).length - k)).getLast?
      = some (spareAt d target k) := by
  have hrev : ((availablePlan d target).reverse ++ unusedSlots d)[k]?
      = some ((availablePlan d target)[(availablePlan d target).length - 1 - k]) := by
    rw [List.getElem?_append_left (by simpa using hk), List.getElem?_reverse hk]
    exact List.getElem?_eq_getElem (by omega)
  have hspare : spareAt d target k
      = (availablePlan d target)[(availablePlan d target).length - 1 - k] := by
    simp only [spareAt, hrev]
  rw [hspare, List.getLast?_eq_getElem?, List.getElem?_take]
  simp only [List.length_take]
  have hidx : min ((availablePlan d target).length - k) (availablePlan d target).length - 1
      = (availablePlan d target).length - 1 - k := by omega
  rw [hidx, if_pos (by omega)]
  exact List.getElem?_eq_getElem (by omega)

theorem spareAt_unused (hk : (availablePlan d target).length ≤ k) {id : ℕ} {rest : List ℕ}
    (h : (unusedSlots d).drop (k - (availablePlan d target).length) = id :: rest) :
    spareAt d target k = id ∧
      (unusedSlots d).drop (k + 1 - (availablePlan d target).length) = rest := by
  have hget : ((availablePlan d target).reverse ++ unusedSlots d)[k]? = some id := by
    rw [List.getElem?_append_right (by simpa using hk), List.length_reverse,
      ← List.head?_drop, h]
    rfl
  refine ⟨by simp only [spareAt, hget], ?_⟩
  have hsucc : k + 1 - (availablePlan d target).length
      = (k - (availablePlan d target).length) + 1 := by omega
  rw [hsucc, ← List.drop_drop, h]
  rfl

theorem spareAt_new (hk : (availablePlan d target).length ≤ k)
    (h : (unusedSlots d).drop (k - (availablePlan d target).length) = []) :
    (availablePlan d target).length + (unusedSlots d).length ≤ k ∧ spareAt d target k
      = d.count + (k - ((availablePlan d target).length + (unusedSlots d).length)) := by
  rw [List.drop_eq_nil_iff] at h
  have hnone : ((availablePlan d target).reverse ++ unusedSlots d)[k]? = none := by
    rw [List.getElem?_eq_none_iff, List.length_append, List.length_reverse]
    omega
  exact ⟨by omega, by simp only [spareAt, hnone]⟩

theorem takeSpare_spec (h : SlotInv d target k r) :
    ∃ d', takeSpare (d.inst target).dplace r = (spareAt d target k, { r with
        data := d'
        available :=
          (availablePlan d target).take ((availablePlan d target).length - (k + 1))
        temps := spares d target (k + 1) }) ∧
      unusedSlots d' = (unusedSlots d).drop (k + 1 - (availablePlan d target).length) ∧
      d'.count = d.count
        + (k + 1 - ((availablePlan d target).length + (unusedSlots d).length)) ∧
      (∀ i, i ≠ spareAt d target k → d'.inst i = r.data.inst i) ∧
      (d'.inst (spareAt d target k)).msir = .invalid ∧
      ((d'.inst (spareAt d target k)).dplace = (r.data.inst (spareAt d target k)).dplace ∧
          k < (availablePlan d target).length ∨
        (d'.inst (spareAt d target k)).dplace = (d.inst target).dplace ∧
          (spareAt d target k ∈ unusedSlots d ∨ d.count ≤ spareAt d target k)) := by
  rcases Nat.lt_or_ge k (availablePlan d target).length with hk | hk
  · refine ⟨r.data, ?_, ?_, ?_, fun i _ => rfl, h.msir _, Or.inl ⟨rfl, hk⟩⟩
    · have hdrop : ((availablePlan d target).take ((availablePlan d target).length - k)).dropLast
          = (availablePlan d target).take ((availablePlan d target).length - (k + 1)) := by
        rw [List.dropLast_eq_take, List.take_take, List.length_take]
        congr 1
        omega
      simp only [takeSpare, h.available, spareAt_available hk, hdrop, h.temps, spares_succ]
    · rw [h.unused]
      congr 1
      omega
    · rw [h.count]
      omega
  · have havail : r.available.getLast? = none := by
      rw [h.available, Nat.sub_eq_zero_of_le hk]
      rfl
    have hrest : (availablePlan d target).take ((availablePlan d target).length - (k + 1))
        = r.available := by
      rw [h.available, Nat.sub_eq_zero_of_le hk, Nat.sub_eq_zero_of_le (by omega)]
    cases hun : (unusedSlots d).drop (k - (availablePlan d target).length) with
    | cons id rest =>
      obtain ⟨hid, hdrop⟩ := spareAt_unused hk hun
      obtain ⟨hfind, hslots⟩ := findUnusedInstanceId_cons (h.unused.trans hun)
        (d.inst target).dplace
      refine ⟨_, ?_, hslots.trans hdrop.symm, ?_, ?_, ?_, ?_⟩
      · simp only [takeSpare, havail, hfind, hrest, h.temps, spares_succ, hid]
      · have hlen : (unusedSlots d).length > k - (availablePlan d target).length := by
          by_contra hle
          rw [List.drop_eq_nil_of_le (by omega)] at hun
          exact absurd hun (by simp)
        rw [LogicalData.modify_count, h.count]
        omega
      · intro i hi
        simp [hid ▸ hi]
      · simp [hid, h.msir]
      · have hmem : id ∈ unusedSlots d := List.mem_of_mem_drop (hun ▸ List.mem_cons_self)
        exact Or.inr ⟨by simp [hid], Or.inl (hid ▸ hmem)⟩
    | nil =>
      obtain ⟨hge, hid⟩ := spareAt_new hk hun
      obtain ⟨hfind, hslots⟩ := findUnusedInstanceId_nil (h.unused.trans hun)
        (d.inst target).dplace
      rw [h.count, ← hid] at hfind hslots
      refine ⟨_, ?_, hslots.trans ?_, ?_, ?_, ?_, ?_⟩
      · simp only [takeSpare, havail, hfind, hrest, h.temps, spares_succ]
      · rw [List.drop_eq_nil_of_le (by omega)]
      · simp only [hid]
        omega
      · intro i hi
        simp [hi]
      · simp
      · exact Or.inr ⟨by simp, Or.inr (by omega)⟩

theorem copyToSpare_inst [AddCommMonoid V] (junk : ℕ → V) (id src : ℕ) (r : ReduxRun E V) :
    (∀ i, i ≠ id → (copyToSpare junk id src r).data.inst i = r.data.inst i) ∧
      ∃ size own, (copyToSpare junk id src r).data.inst id = { r.data.inst id with
        allocated := true, allocatedSize := size, reclaimable := own
        reduxOp := (r.data.inst id).reduxOp || (r.data.inst src).reduxOp } := by
  constructor
  · intro i hi
    simp only [copyToSpare, LogicalData.depAllocate]
    split <;> simp [hi]
  · cases hall : (r.data.inst id).allocated with
    | true =>
      refine ⟨(r.data.inst id).allocatedSize, (r.data.inst id).reclaimable, ?_⟩
      simp only [copyToSpare, LogicalData.depAllocate, hall, if_true, LogicalData.modify_inst]
    | false =>
      refine ⟨0, true, ?_⟩
      simp [copyToSpare, LogicalData.depAllocate, hall]

theorem copyToSpare_count [AddCommMonoid V] (junk : ℕ → V) (id src : ℕ) (r : ReduxRun E V) :
    (copyToSpare junk id src r).data.count = r.data.count := by
  simp only [copyToSpare, LogicalData.depAllocate]
  split <;> rfl

theorem copyToSpare_content [AddCommMonoid V] (junk : ℕ → V) (id src : ℕ) (r : ReduxRun E V) :
    (copyToSpare junk id src r).content = Function.update r.content id (r.content src) := by
  simp only [copyToSpare]
  split
  · rfl
  · rw [Function.update_idem]

/-- **Handing out a spare instance and copying to it**: the slots are as after one more node, and
no other instance changes. -/
theorem spare_step [AddCommMonoid V] (h : SlotInv d target k r) (junk : ℕ → V) (src : ℕ) :
    ∃ r', takeSpare (d.inst target).dplace r = (spareAt d target k, r') ∧
      r'.content = r.content ∧ r'.perNode = r.perNode ∧
      (∀ i, i ≠ spareAt d target k → r'.data.inst i = r.data.inst i) ∧
      SlotInv d target (k + 1) (copyToSpare junk (spareAt d target k) src r') := by
  obtain ⟨d', htake, hun, hcount, hframe, hmsir, hplace⟩ := takeSpare_spec h
  refine ⟨_, htake, rfl, rfl, hframe, ?_⟩
  obtain ⟨hother, size, own, hself⟩ := copyToSpare_inst junk (spareAt d target k) src
    { r with
      data := d'
      available := (availablePlan d target).take ((availablePlan d target).length - (k + 1))
      temps := spares d target (k + 1) }
  have hspare : ∀ i, i ∈ spares d target (k + 1) ↔
      i ∈ spares d target k ∨ i = spareAt d target k := by
    simp [spares_succ]
  refine ⟨rfl, rfl, ?_, (copyToSpare_count _ _ _ _).trans hcount, ?_, ?_, ?_, ?_, ?_⟩
  · rw [← hun]
    refine unusedSlots_congr (copyToSpare_count _ _ _ _) fun i => ?_
    rcases eq_or_ne i (spareAt d target k) with rfl | hi
    · rw [hself]
    · rw [hother i hi]
  · intro i
    rcases eq_or_ne i (spareAt d target k) with rfl | hi
    · simp [hself, hspare]
    · simp [hother i hi, hframe i hi, h.allocated, hspare, hi]
  · intro i hi
    rw [hspare, not_or] at hi
    simp only [hother i hi.2, hframe i hi.2, h.reduxOp i hi.1]
  · intro i
    rcases eq_or_ne i (spareAt d target k) with rfl | hi
    · simp only [hself, hmsir]
    · simp only [hother i hi, hframe i hi, h.msir]
  · intro i
    rcases eq_or_ne i (spareAt d target k) with rfl | hi
    · rw [hself]
      rcases hplace with ⟨hsame, -⟩ | hnew
      · rcases h.dplace (spareAt d target k) with h' | h'
        · exact Or.inl (hsame.trans h')
        · exact Or.inr ⟨hsame.trans h'.1, h'.2⟩
      · exact Or.inr hnew
    · simpa only [hother i hi, hframe i hi] using h.dplace i
  · intro j hj hlen
    rcases eq_or_ne (spareAt d target j) (spareAt d target k) with heq | hne
    · rw [heq, hself]
      rcases hplace with ⟨hsame, hk⟩ | hnew
      · have hjk : j < k := by
          rcases Nat.lt_succ_iff_lt_or_eq.mp hj with hj | rfl
          · exact hj
          · omega
        exact hsame.trans (heq ▸ h.fresh j hjk hlen)
      · exact hnew.1
    · have hjk : j < k := by
        rcases Nat.lt_succ_iff_lt_or_eq.mp hj with hj | rfl
        · exact hj
        · exact absurd rfl hne
      simpa only [hother _ hne, hframe _ hne] using h.fresh j hjk hlen

end Hand

end Cccl.Stf
