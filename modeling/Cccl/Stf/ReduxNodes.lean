/-
# A reconstruction that works out

The loop of `reconstruct_after_redux` over the memory nodes (`logical_data.cuh`), on a table where
every node's contributions get a spare instance of their own.  The invariant after `n` nodes: the
spare instances handed out hold the sums of the nodes that were copied, everything not reached yet
is untouched, and the list of the target's node has grown by the spare instances.  What is then
reduced into the target is every contribution once.
-/
import Cccl.Stf.Redux

namespace Cccl.Stf

open MsirStateId

variable {E V : Type*}

/-! ## 1. Node after node -/

section Nodes

variable {d : LogicalData E} {target n : ℕ}

theorem copyNodes_succ (n : ℕ) : copyNodes d target (n + 1) = copyNodes d target n ++
    if perNodePlan d target n ≠ [] ∧ fromIndex n ≠ (d.inst target).dplace then [n] else [] := by
  simp [copyNodes, List.range_succ, List.filter_append, List.filter_singleton, Bool.cond_eq_ite]

theorem mem_copyNodes {m : ℕ} : m ∈ copyNodes d target n ↔
    m < n ∧ perNodePlan d target m ≠ [] ∧ fromIndex m ≠ (d.inst target).dplace := by
  simp [copyNodes]

theorem nodup_copyNodes : (copyNodes d target n).Nodup :=
  List.nodup_range.filter _

theorem plan_allocated (hd : d.Reducible target) {i : ℕ}
    (hi : i ∈ reductionIds d target ++ referenceCopy d target) : (d.inst i).allocated := by
  apply hd.allocated
  rcases (mem_plan.mp hi).2 with ⟨-, h⟩ | h
  · simp [h]
  · rcases (msir_of_head h).2 with h | h <;> simp [h]

/-- Instances to be reduced have an operator, but for the reference copy. -/
theorem plan_reduxOp (hd : d.Reducible target) {i : ℕ}
    (hi : i ∈ reductionIds d target ++ referenceCopy d target) :
    (d.inst i).reduxOp ∨ i ∈ referenceCopy d target := by
  rcases (mem_plan.mp hi).2 with ⟨-, h⟩ | h
  · exact Or.inl (hd.reduxOp i h)
  · exact Or.inr (mem_referenceCopy.mpr ⟨h, (mem_plan.mp hi).1⟩)

theorem referenceCopy_unique {i j : ℕ} (hi : i ∈ referenceCopy d target)
    (hj : j ∈ referenceCopy d target) : i = j := by
  rw [mem_referenceCopy] at hi hj
  exact Option.some.inj (hi.1.symm.trans hj.1)

/-- The state of the reduction once the nodes below `n` are done: a spare instance for each node
whose contributions have to be copied, holding their sum. -/
structure NodesInv (d : LogicalData E) (target : ℕ) [AddCommMonoid V] (content : ℕ → V) (n : ℕ)
    (r : ReduxRun E V) : Prop where
  slots : SlotInv d target (copyNodes d target n).length r
  perNode : ∀ m, r.perNode m = perNodePlan d target m ++
    if toIndex (d.inst target).dplace = some m then
      (spares d target (copyNodes d target n).length).filter (fun i => i ≠ target) else []
  kept : ∀ i, i ∉ spares d target (copyNodes d target n).length →
    (∀ m ∈ copyNodes d target n, i ∉ perNodePlan d target m) → r.content i = content i
  moved : (spares d target (copyNodes d target n).length).map r.content
    = (copyNodes d target n).map fun m => ((perNodePlan d target m).map content).sum
  op : ∀ j m, (copyNodes d target n)[j]? = some m →
    (r.data.inst (spareAt d target j)).reduxOp ∨
      ∃ ref ∈ referenceCopy d target, toIndex (d.inst ref).dplace = some m

variable [AddCommMonoid V] {maxNodes : ℕ} {content : ℕ → V} {r : ReduxRun E V}

theorem copyNodes_length_le {n m : ℕ} (h : n ≤ m) :
    (copyNodes d target n).length ≤ (copyNodes d target m).length := by
  have hsub : List.Sublist (copyNodes d target n) (copyNodes d target m) :=
    (List.range_sublist.mpr h).filter _
  exact hsub.length_le

theorem perNodePlan_unique {i m m' : ℕ} (h : i ∈ perNodePlan d target m)
    (h' : i ∈ perNodePlan d target m') : m = m' :=
  Option.some.inj ((mem_perNodePlan.mp h).2.symm.trans (mem_perNodePlan.mp h').2)

/-- Of two instances to be reduced on one node one has an operator. -/
theorem perNodePlan_opPair (hd : d.Reducible target) (h : NodesInv d target content n r) (m : ℕ) :
    (perNodePlan d target m).Pairwise (OpPair r.data) := by
  refine (nodup_perNodePlan m).imp_of_mem fun {a b} ha hb hab => ?_
  have hop : ∀ i ∈ perNodePlan d target m,
      (r.data.inst i).reduxOp ∨ i ∈ referenceCopy d target := by
    intro i hi
    rw [h.slots.reduxOp i fun hs => spare_notMem_perNodePlan hd hs m hi]
    exact plan_reduxOp hd (mem_perNodePlan.mp hi).1
  rcases hop a ha with h | ha
  · exact Or.inl h
  · rcases hop b hb with h | hb
    · exact Or.inr h
    · exact absurd (referenceCopy_unique ha hb) hab

/-- Before a node is reached its instances hold what they held at the start. -/
theorem NodesInv.content_eq (hd : d.Reducible target) (h : NodesInv d target content n r) {m i : ℕ}
    (hm : m ∉ copyNodes d target n) (hi : i ∈ perNodePlan d target m) :
    r.content i = content i := by
  refine h.kept i (fun hs => spare_notMem_perNodePlan hd hs m hi) fun m' hm' hi' => hm ?_
  rwa [perNodePlan_unique hi hi']

theorem NodesInv.skip (h : NodesInv d target content n r)
    (hskip : perNodePlan d target n = [] ∨ fromIndex n = (d.inst target).dplace) :
    NodesInv d target content (n + 1) r := by
  have hnodes : copyNodes d target (n + 1) = copyNodes d target n := by
    rw [copyNodes_succ, if_neg, List.append_nil]
    tauto
  constructor
  · rw [hnodes]; exact h.slots
  · rw [hnodes]; exact h.perNode
  · rw [hnodes]; exact h.kept
  · rw [hnodes]; exact h.moved
  · rw [hnodes]; exact h.op

/-- The spare instances handed out for the first nodes are pairwise different. -/
theorem CopyPlan.nodup_spares (hs : CopyPlan d maxNodes target) {k : ℕ}
    (hk : k ≤ (copyNodes d target maxNodes).length) : (spares d target k).Nodup :=
  ((List.range_sublist.mpr hk).map (spareAt d target)).nodup hs.distinct

/-- **One node**: its contributions are reduced in place and their sum is copied to the next spare
instance. -/
theorem NodesInv.copy (hd : d.Reducible target) (hs : CopyPlan d maxNodes target)
    (h : NodesInv d target content n r) (hn : n < maxNodes) (hne : perNodePlan d target n ≠ [])
    (hplace : fromIndex n ≠ (d.inst target).dplace) (junk : ℕ → V) :
    ∃ r', reduxNode junk target (d.inst target).dplace n r = some r' ∧
      NodesInv d target content (n + 1) r' := by
  have hnodes : copyNodes d target (n + 1) = copyNodes d target n ++ [n] := by
    rw [copyNodes_succ, if_pos ⟨hne, hplace⟩]
  have hfresh : n ∉ copyNodes d target n := fun hmem => (mem_copyNodes.mp hmem).1.false
  have hlen : (copyNodes d target (n + 1)).length = (copyNodes d target n).length + 1 := by
    simp [hnodes]
  -- the target's own node is not copied, so the list is the one that was planned
  have hlist : r.perNode n = perNodePlan d target n := by
    rw [h.perNode, if_neg, List.append_nil]
    intro hidx
    rcases hs.canonical n hidx with hcan | ⟨hnil, -⟩
    · exact hplace hcan
    · exact hne hnil
  obtain ⟨node, hnode⟩ : ∃ node, toIndex (d.inst target).dplace = some node := by
    have hidx := hs.indexed target (by simp)
    unfold indexed at hidx
    split at hidx
    · exact ⟨_, ‹_›⟩
    · exact absurd hidx (by simp)
  have hnodup := hs.nodup_spares (hlen ▸ copyNodes_length_le hn)
  rw [spares_succ, List.nodup_append] at hnodup
  obtain ⟨c, hrun, hout, hlast⟩ := applyReduxOnNode_spec (d := r.data) r.content
    (nodup_perNodePlan n) (fun i hi => by
      rw [h.slots.allocated, plan_allocated hd (mem_perNodePlan.mp hi).1, Bool.true_or])
    (perNodePlan_opPair hd h n)
  obtain ⟨src, hsrc⟩ : ∃ src, (perNodePlan d target n).getLast? = some src :=
    ⟨_, List.getLast?_eq_some_getLast hne⟩
  have hsrcMem : src ∈ perNodePlan d target n := List.mem_of_getLast? hsrc
  have hsum : c src = ((perNodePlan d target n).map content).sum := by
    rw [hlast src hsrc]
    exact congrArg List.sum (List.map_congr_left fun i hi => h.content_eq hd hfresh hi)
  obtain ⟨r', htake, hcontent, hper, hframe, hslots⟩ := spare_step
    (r := { r with content := c }) (h.slots.congr rfl rfl rfl) junk src
  set id := spareAt d target (copyNodes d target n).length with hid
  have hidSrc : src ≠ id := by
    rintro rfl
    exact spareAt_notMem_plan hd _ (mem_perNodePlan.mp hsrcMem).1
  obtain ⟨hother, size, own, hself⟩ := copyToSpare_inst junk id src r'
  have hstep : reduxNode junk target (d.inst target).dplace n r
      = some { copyToSpare junk id src r' with
          perNode := if id = target then r.perNode else
            Function.update r.perNode node (r.perNode node ++ [id]) } := by
    have halloc : (r'.data.inst src).allocated = true := by
      rw [hframe src hidSrc, h.slots.allocated, plan_allocated hd (mem_perNodePlan.mp hsrcMem).1,
        Bool.true_or]
    have hperCopy : (copyToSpare junk id src r').perNode = r.perNode := hper
    simp only [reduxNode, hlist, hsrc, if_neg hplace, hrun, htake, halloc, if_true, hnode]
    split
    · rw [← hperCopy]
    · rw [hperCopy]
  refine ⟨_, hstep, ⟨?_, ?_, ?_, ?_, ?_⟩⟩
  · rw [hlen]
    exact hslots.congr rfl rfl rfl
  · intro m
    rw [hlen, spares_succ, List.filter_append, ← hid, List.filter_singleton]
    rcases eq_or_ne id target with heq | hne
    · simp [heq, h.perNode m]
    · rcases eq_or_ne m node with rfl | hm
      · simp [hne, h.perNode m, hnode]
      · simp [hne, h.perNode m, hnode, hm, hm.symm]
  · intro i hi hm
    rw [hlen, spares_succ, List.mem_append, not_or, List.mem_singleton] at hi
    rw [hnodes] at hm
    show (copyToSpare junk id src r').content i = content i
    rw [copyToSpare_content, Function.update_of_ne hi.2, hcontent]
    exact (hout i (hm n (by simp))).trans (h.kept i hi.1 fun m' hm' => hm m' (by simp [hm']))
  · show (spares d target _).map (copyToSpare junk id src r').content = _
    rw [hlen, spares_succ, hnodes, List.map_append, List.map_append, ← h.moved,
      copyToSpare_content, hcontent]
    congr 1
    · refine List.map_congr_left fun i hi => ?_
      rw [Function.update_of_ne (hnodup.2.2 i hi id (by simp))]
      exact hout i (spare_notMem_perNodePlan hd hi n)
    · simp [← hid, hsum]
  · intro j m hj
    show ((copyToSpare junk id src r').data.inst (spareAt d target j)).reduxOp ∨ _
    rw [hnodes] at hj
    rcases Nat.lt_or_ge j (copyNodes d target n).length with hlt | hge
    · rw [List.getElem?_append_left hlt] at hj
      have hne : spareAt d target j ≠ id :=
        hnodup.2.2 _ (List.mem_map_of_mem (List.mem_range.mpr hlt)) id (by simp)
      rw [hother _ hne, hframe _ hne]
      exact h.op j m hj
    · rw [List.getElem?_append_right hge, List.getElem?_singleton] at hj
      split at hj
      · obtain rfl : j = (copyNodes d target n).length := by omega
        obtain rfl := Option.some.inj hj
        rw [← hid, hself]
        rcases plan_reduxOp hd (mem_perNodePlan.mp hsrcMem).1 with hop | href
        · refine Or.inl ?_
          have hsrcOp : (r'.data.inst src).reduxOp = true := by
            rw [hframe src hidSrc]
            exact (h.slots.reduxOp src fun hsp =>
              spare_notMem_perNodePlan hd hsp n hsrcMem).trans hop
          simp [hsrcOp]
        · exact Or.inr ⟨src, href, (mem_perNodePlan.mp hsrcMem).2⟩
      · exact absurd hj (by simp)

/-- **One node, whichever it is.** -/
theorem NodesInv.step (hd : d.Reducible target) (hs : CopyPlan d maxNodes target)
    (h : NodesInv d target content n r) (hn : n < maxNodes) (junk : ℕ → V) :
    ∃ r', reduxNode junk target (d.inst target).dplace n r = some r' ∧
      NodesInv d target content (n + 1) r' := by
  rcases eq_or_ne (fromIndex n) (d.inst target).dplace with hplace | hplace
  · refine ⟨r, ?_, h.skip (Or.inr hplace)⟩
    unfold reduxNode
    split
    · rfl
    · rw [if_pos hplace]
  · rcases eq_or_ne (perNodePlan d target n) [] with hnil | hne
    · refine ⟨r, ?_, h.skip (Or.inl hnil)⟩
      -- a target that is not canonical for its node has received nothing yet but in itself
      have hempty : r.perNode n = [] := by
        rw [h.perNode, hnil, List.nil_append]
        split
        · rename_i hidx
          rcases hs.canonical n hidx with hcan | ⟨-, hself⟩
          · exact absurd hcan hplace
          · rw [List.filter_eq_nil_iff]
            intro i hi
            simp [hself i hi]
        · rfl
      simp [reduxNode, hempty]
    · exact h.copy hd hs hn hne hplace junk

theorem NodesInv.init (d : LogicalData E) (target : ℕ) (content : ℕ → V) :
    NodesInv d target content 0
      { data := d.modifyAll fun _ n => { n with msir := .invalid }
        content := content
        perNode := perNodePlan d target
        available := availablePlan d target } := by
  have hunused : unusedSlots (d.modifyAll fun _ n => { n with msir := .invalid })
      = unusedSlots d := unusedSlots_congr rfl fun _ => rfl
  constructor
  · constructor <;> simp [copyNodes, spares, hunused]
  · simp [copyNodes, spares]
  · simp
  · simp [copyNodes, spares]
  · simp [copyNodes]

/-- **All nodes.** -/
theorem reduxNodes_inv (hd : d.Reducible target) (hs : CopyPlan d maxNodes target)
    (junk : ℕ → V) (h : NodesInv d target content 0 r) :
    ∀ {n : ℕ}, n ≤ maxNodes → ∃ r', reduxNodes junk target (d.inst target).dplace n r = some r' ∧
      NodesInv d target content n r'
  | 0, _ => ⟨r, rfl, h⟩
  | n + 1, hn => by
    obtain ⟨r', hrun, hinv⟩ := reduxNodes_inv hd hs junk h (n := n) (by omega)
    obtain ⟨r'', hstep, hinv'⟩ := hinv.step hd hs hn junk
    exact ⟨r'', by simp only [reduxNodes, hrun, hstep], hinv'⟩

end Nodes

/-! ## 2. The target -/

section Target

variable [AddCommMonoid V] {d : LogicalData E} {target maxNodes : ℕ} {content : ℕ → V}
  {r : ReduxRun E V}

theorem sum_map_fibers (idx : ℕ → Option ℕ) (f : ℕ → V) :
    ∀ (nodes : List ℕ) {L : List ℕ}, nodes.Nodup → (∀ i ∈ L, ∃ m ∈ nodes, idx i = some m) →
      (nodes.map fun m => ((L.filter fun i => idx i = some m).map f).sum).sum = (L.map f).sum
  | [], L, _, h => by
    have hnil : L = [] := List.eq_nil_iff_forall_not_mem.mpr fun i hi => by simpa using h i hi
    simp [hnil]
  | m :: nodes, L, hnd, h => by
    obtain ⟨hm, hnd'⟩ := List.nodup_cons.mp hnd
    have hrest := sum_map_fibers idx f nodes (L := L.filter fun i => ¬ idx i = some m) hnd' (by
      intro i hi
      rw [List.mem_filter, decide_eq_true_eq] at hi
      obtain ⟨m', hm', hidx⟩ := h i hi.1
      rcases List.mem_cons.mp hm' with rfl | hm'
      · exact absurd hidx hi.2
      · exact ⟨m', hm', hidx⟩)
    have hfiber : ∀ m' ∈ nodes, (L.filter fun i => ¬ idx i = some m).filter (fun i => idx i = some m')
        = L.filter fun i => idx i = some m' := by
      intro m' hm'
      rw [List.filter_filter]
      refine List.filter_congr fun i _ => ?_
      rcases eq_or_ne (idx i) (some m') with hi | hi
      · have hne : ¬ m' = m := by
          rintro rfl
          exact hm hm'
        simp [hi, hne]
      · simp [hi]
    rw [List.map_congr_left fun m' hm' => by rw [hfiber m' hm']] at hrest
    rw [List.map_cons, List.sum_cons, hrest, List.sum_map_filter_add_sum_map_filter_not]

omit [AddCommMonoid V] in
theorem nodup_contributions : (contributions d).Nodup := by
  refine (List.nodup_range.filter _).append (nodup_refCopies.sublist (List.take_sublist _ _)) ?_
  refine List.disjoint_left.mpr fun i hred href => ?_
  have hvalid := mem_refCopies.mp (List.mem_of_mem_take href)
  simp only [List.mem_filter, decide_eq_true_eq] at hred
  rcases hvalid.2 with h | h <;> simp [h] at hred

omit [AddCommMonoid V] in
/-- What has to be moved are the contributions other than the target. -/
theorem filter_contributions :
    (contributions d).filter (fun i => ¬ i = target)
      = reductionIds d target ++ referenceCopy d target := by
  rw [contributions, List.filter_append, List.filter_filter]
  congr 1
  unfold referenceCopy
  cases refCopies d with
  | nil => rfl
  | cons ref rest =>
    rcases eq_or_ne ref target with h | h <;> simp [h]

/-- The sum of the contributions is that of what is moved and of the target if it is one. -/
theorem sum_contributions (target : ℕ) (content : ℕ → V) : ((contributions d).map content).sum
    = ((reductionIds d target ++ referenceCopy d target).map content).sum
      + if target ∈ contributions d then content target else 0 := by
  rw [← List.sum_map_filter_add_sum_map_filter_not (fun i => i = target), filter_contributions,
    add_comm, List.filter_eq, List.map_replicate]
  split
  · rename_i hmem
    rw [List.count_eq_one_of_mem nodup_contributions hmem]
    simp
  · rename_i hmem
    rw [List.count_eq_zero_of_not_mem hmem]
    simp

omit [AddCommMonoid V] in
theorem kind_of_mem_contributions {i : ℕ} (h : i ∈ contributions d) :
    (d.inst i).msir = .reduction ∨ (refCopies d).head? = some i := by
  rcases List.mem_append.mp h with h | h
  · simp only [List.mem_filter, decide_eq_true_eq] at h
    exact Or.inl h.2
  · cases hr : refCopies d with
    | nil => simp [hr] at h
    | cons ref rest =>
      simp only [hr, List.take_succ_cons, List.take_zero, List.mem_singleton] at h
      simp [h]

omit [AddCommMonoid V] in
/-- A target that holds a contribution is not handed out as a spare instance. -/
theorem target_notMem_spares (hd : d.Reducible target) (h : target ∈ contributions d) (k : ℕ) :
    target ∉ spares d target k := by
  intro hmem
  obtain ⟨j, -, hj⟩ := List.mem_map.mp hmem
  have hkind := kind_of_mem_contributions h
  rcases spareAt_cases d target j with hs | hs | hs
  · rw [hj] at hs
    obtain ⟨-, ⟨hinv, -⟩ | ⟨hvalid, hnot⟩⟩ := mem_availablePlan hs
    · rcases hkind with h | h
      · simp [hinv] at h
      · rcases (msir_of_head h).2 with h | h <;> simp [hinv] at h
    · rcases hkind with h | h
      · rcases hvalid with h' | h' <;> simp [h'] at h
      · exact hnot h
  · rw [hj] at hs
    simp only [unusedSlots, List.mem_filter, Bool.not_eq_true'] at hs
    simp [hd.target_used] at hs
  · rw [hj] at hs
    exact absurd hd.target_lt (Nat.not_lt.mpr hs)

omit [AddCommMonoid V] in
/-- The entry of `per_node` for the target. -/
theorem CopyPlan.exists_node (hs : CopyPlan d maxNodes target) {i : ℕ}
    (hi : i ∈ target :: (reductionIds d target ++ referenceCopy d target)) :
    ∃ m < maxNodes, toIndex (d.inst i).dplace = some m := by
  have hidx := hs.indexed i hi
  unfold Cccl.Stf.indexed at hidx
  split at hidx
  · exact ⟨_, by simpa using hidx, ‹_›⟩
  · exact absurd hidx (by simp)

omit [AddCommMonoid V] in
theorem CopyPlan.node_notMem_copyNodes (hs : CopyPlan d maxNodes target) {node n : ℕ}
    (hnode : toIndex (d.inst target).dplace = some node) : node ∉ copyNodes d target n := by
  intro hmem
  obtain ⟨-, hne, hplace⟩ := mem_copyNodes.mp hmem
  rcases hs.canonical node hnode with hcan | ⟨hnil, -⟩
  · exact hplace hcan
  · exact hne hnil

/-- What is moved is on the target's node or on one that is copied. -/
theorem CopyPlan.sum_plan (hs : CopyPlan d maxNodes target) {node : ℕ}
    (hnode : toIndex (d.inst target).dplace = some node) (content : ℕ → V) :
    ((reductionIds d target ++ referenceCopy d target).map content).sum
      = ((perNodePlan d target node).map content).sum
        + ((copyNodes d target maxNodes).map fun m =>
            ((perNodePlan d target m).map content).sum).sum := by
  have hfibers := sum_map_fibers (fun i => toIndex (d.inst i).dplace) content
    (node :: copyNodes d target maxNodes)
    (L := reductionIds d target ++ referenceCopy d target)
    (List.nodup_cons.mpr ⟨hs.node_notMem_copyNodes hnode, nodup_copyNodes⟩) (by
      intro i hi
      obtain ⟨m, hm, hidx⟩ := hs.exists_node (List.mem_cons_of_mem _ hi)
      rcases eq_or_ne m node with rfl | hne
      · exact ⟨m, by simp, hidx⟩
      · refine ⟨m, List.mem_cons_of_mem _ (mem_copyNodes.mpr ⟨hm, ?_, ?_⟩), hidx⟩
        · exact List.ne_nil_of_mem (mem_perNodePlan.mpr ⟨hi, hidx⟩)
        · intro hplace
          rw [← hplace, toIndex_fromIndex] at hnode
          exact hne (Option.some.inj hnode))
  rw [← hfibers, List.map_cons, List.sum_cons]
  rfl

/-- The instances reduced at the end, the target perhaps among them: all have an operator but for
one that holds the reference copy. -/
theorem NodesInv.reduxOp (hd : d.Reducible target) (h : NodesInv d target content maxNodes r)
    {node i : ℕ} (hi : i ∈ perNodePlan d target node ++
      spares d target (copyNodes d target maxNodes).length) :
    (r.data.inst i).reduxOp ∨ ∃ ref ∈ referenceCopy d target,
      (i = ref ∧ i ∈ perNodePlan d target node) ∨
        ∃ j m, i = spareAt d target j ∧ (copyNodes d target maxNodes)[j]? = some m ∧
          toIndex (d.inst ref).dplace = some m := by
  rcases List.mem_append.mp hi with hi | hi
  · rw [h.slots.reduxOp i fun hs => spare_notMem_perNodePlan hd hs node hi]
    rcases plan_reduxOp hd (mem_perNodePlan.mp hi).1 with hop | href
    · exact Or.inl hop
    · exact Or.inr ⟨i, href, Or.inl ⟨rfl, hi⟩⟩
  · obtain ⟨j, hj, rfl⟩ := List.mem_map.mp hi
    rw [List.mem_range] at hj
    rcases h.op j _ (List.getElem?_eq_getElem hj) with hop | ⟨ref, href, hidx⟩
    · exact Or.inl hop
    · exact Or.inr ⟨ref, href, Or.inr ⟨j, _, rfl, List.getElem?_eq_getElem hj, hidx⟩⟩

theorem NodesInv.opPair (hd : d.Reducible target) (hs : CopyPlan d maxNodes target)
    (h : NodesInv d target content maxNodes r) {node : ℕ}
    (hnode : toIndex (d.inst target).dplace = some node) {a b : ℕ}
    (ha : a ∈ perNodePlan d target node ++ spares d target (copyNodes d target maxNodes).length)
    (hb : b ∈ perNodePlan d target node ++ spares d target (copyNodes d target maxNodes).length)
    (hab : a ≠ b) : OpPair r.data a b := by
  -- the reference copy is on one node only, so it is not in two places
  have hout : ∀ {ref i j m : ℕ}, ref ∈ referenceCopy d target →
      (i = ref ∧ i ∈ perNodePlan d target node) → (copyNodes d target maxNodes)[j]? = some m →
      toIndex (d.inst ref).dplace = some m → False := by
    rintro ref i j m - ⟨rfl, hi⟩ hj hidx
    obtain rfl := Option.some.inj (hidx.symm.trans (mem_perNodePlan.mp hi).2)
    exact hs.node_notMem_copyNodes hnode (List.mem_of_getElem? hj)
  rcases h.reduxOp hd ha with hop | ⟨ref, href, hpa⟩
  · exact Or.inl hop
  rcases h.reduxOp hd hb with hop | ⟨ref', href', hpb⟩
  · exact Or.inr hop
  obtain rfl := referenceCopy_unique href href'
  exfalso
  rcases hpa with hpa | ⟨j, m, rfl, hj, hidx⟩
  · rcases hpb with hpb | ⟨j', m', -, hj', hidx'⟩
    · exact hab (hpa.1.trans hpb.1.symm)
    · exact hout href hpa hj' hidx'
  · rcases hpb with hpb | ⟨j', m', rfl, hj', hidx'⟩
    · exact hout href hpb hj hidx
    · obtain rfl := Option.some.inj (hidx.symm.trans hidx')
      obtain ⟨hlt, hget⟩ := List.getElem?_eq_some_iff.mp hj
      obtain ⟨hlt', hget'⟩ := List.getElem?_eq_some_iff.mp hj'
      have hjj := (nodup_copyNodes.getElem_inj_iff).mp (hget.trans hget'.symm)
      exact hab (by rw [hjj])

theorem NodesInv.opPair_target (hd : d.Reducible target) (hs : SoundPlan d maxNodes target)
    (h : NodesInv d target content maxNodes r) {node : ℕ}
    (hnode : toIndex (d.inst target).dplace = some node) {a : ℕ}
    (ha : a ∈ perNodePlan d target node ++ spares d target (copyNodes d target maxNodes).length)
    (hne : a ≠ target) : OpPair r.data a target := by
  rcases h.reduxOp hd ha with hop | ⟨ref, href, -⟩
  · exact Or.inl hop
  rcases hs.filled with hnil | hmem | hspare
  · have hplan : reductionIds d target ++ referenceCopy d target = [] := by
      rw [← filter_contributions, hnil]
      rfl
    exact absurd (hplan ▸ List.mem_append_right _ href) (by simp)
  · rcases kind_of_mem_contributions hmem with hred | hhead
    · refine Or.inr ?_
      rw [h.slots.reduxOp target (target_notMem_spares hd hmem _)]
      exact hd.reduxOp target hred
    · rw [mem_referenceCopy, hhead, Option.some.injEq] at href
      exact absurd href.1.symm href.2
  · exact h.opPair hd hs.toCopyPlan hnode ha (List.mem_append_right _ hspare) hne

omit [AddCommMonoid V] in
theorem contributions_allocated (hd : d.Reducible target) {i : ℕ} (h : i ∈ contributions d) :
    (d.inst i).allocated := by
  apply hd.allocated
  rcases kind_of_mem_contributions h with h | h
  · simp [h]
  · rcases (msir_of_head h).2 with h | h <;> simp [h]

omit [AddCommMonoid V] in
theorem targetList_nil (target : ℕ) (hnil : contributions d = []) (node n : ℕ) :
    perNodePlan d target node ++ spares d target (copyNodes d target n).length = [] := by
  have hplan : ∀ m, perNodePlan d target m = [] := by
    intro m
    rw [perNodePlan, ← filter_contributions, hnil]
    rfl
  simp [hplan, copyNodes, spares]

/-- The list that is reduced into the target. -/
def targetList (d : LogicalData E) (target maxNodes node : ℕ) : List ℕ :=
  perNodePlan d target node ++
    (spares d target (copyNodes d target maxNodes).length).filter fun i => i ≠ target

omit [AddCommMonoid V] in
theorem mem_of_mem_targetList {node i : ℕ} (hi : i ∈ targetList d target maxNodes node) :
    i ∈ perNodePlan d target node ++ spares d target (copyNodes d target maxNodes).length := by
  rcases List.mem_append.mp hi with hi | hi
  · exact List.mem_append_left _ hi
  · exact List.mem_append_right _ (List.mem_filter.mp hi).1

omit [AddCommMonoid V] in
theorem target_notMem_targetList (node : ℕ) : target ∉ targetList d target maxNodes node := by
  rw [targetList, List.mem_append, not_or]
  exact ⟨target_notMem_perNodePlan node, by simp⟩

/-- What the target's list and the target hold when all nodes are done is what had to be moved,
and what the target held unless it was overwritten. -/
theorem NodesInv.sum_target (hd : d.Reducible target) (hs : CopyPlan d maxNodes target)
    (h : NodesInv d target content maxNodes r) {node : ℕ}
    (hnode : toIndex (d.inst target).dplace = some node) :
    ((targetList d target maxNodes node).map r.content).sum + r.content target
      = ((reductionIds d target ++ referenceCopy d target).map content).sum
        + if target ∈ spares d target (copyNodes d target maxNodes).length then 0
          else content target := by
  have hstay : (perNodePlan d target node).map r.content
      = (perNodePlan d target node).map content :=
    List.map_congr_left fun i hi => h.content_eq hd (hs.node_notMem_copyNodes hnode) hi
  have hsplit := List.sum_map_filter_add_sum_map_filter_not (fun i => i = target) r.content
    (spares d target (copyNodes d target maxNodes).length)
  rw [h.moved, List.filter_eq, List.map_replicate] at hsplit
  rw [targetList, hs.sum_plan hnode, List.map_append, List.sum_append, hstay, ← hsplit]
  split
  · rename_i hspare
    rw [List.count_eq_one_of_mem (hs.nodup_spares le_rfl) hspare]
    simp only [List.replicate_one, List.sum_singleton, add_zero, ne_eq]
    rw [add_assoc, add_comm (r.content target)]
  · rename_i hout
    have hcontent : r.content target = content target :=
      h.kept target hout fun m _ => target_notMem_perNodePlan m
    rw [List.count_eq_zero_of_not_mem hout, hcontent]
    simp

theorem NodesInv.targetList_spec (hd : d.Reducible target) (hs : CopyPlan d maxNodes target)
    (h : NodesInv d target content maxNodes r) {node : ℕ}
    (hnode : toIndex (d.inst target).dplace = some node) :
    r.perNode node = targetList d target maxNodes node ∧
    (∀ i ∈ targetList d target maxNodes node, (r.data.inst i).allocated) ∧
    ∃ c, applyReduxOnNode r.data (targetList d target maxNodes node) r.content = some c ∧
      c target = r.content target ∧
      ∀ last ∈ (targetList d target maxNodes node).getLast?,
        c last = ((targetList d target maxNodes node).map r.content).sum := by
  have hnd : (targetList d target maxNodes node).Nodup := by
    refine (nodup_perNodePlan node).append ((hs.nodup_spares le_rfl).filter _) ?_
    refine List.disjoint_left.mpr fun i hi hsp => ?_
    exact spare_notMem_perNodePlan hd (List.mem_filter.mp hsp).1 node hi
  have halloc : ∀ i ∈ targetList d target maxNodes node, (r.data.inst i).allocated := by
    intro i hi
    rw [h.slots.allocated]
    rcases List.mem_append.mp (mem_of_mem_targetList hi) with hi | hi
    · rw [plan_allocated hd (mem_perNodePlan.mp hi).1, Bool.true_or]
    · simp [hi]
  obtain ⟨c, hrun, hkeep, hlast⟩ := applyReduxOnNode_spec (d := r.data) r.content hnd
    halloc (hnd.imp_of_mem fun {a b} ha hb hab =>
      h.opPair hd hs hnode (mem_of_mem_targetList ha) (mem_of_mem_targetList hb) hab)
  refine ⟨?_, halloc, c, hrun, hkeep target (target_notMem_targetList node), hlast⟩
  rw [h.perNode, if_pos hnode, targetList]

/-- **What the target ends up with**: whenever its node goes through, all that had to be moved, and
what it held unless it was overwritten. -/
theorem NodesInv.content_target (hd : d.Reducible target) (hs : CopyPlan d maxNodes target)
    (h : NodesInv d target content maxNodes r) {node : ℕ}
    (hnode : toIndex (d.inst target).dplace = some node) {r' : ReduxRun E V}
    (hr : reduxTarget target node r = some r') :
    r'.content target = ((reductionIds d target ++ referenceCopy d target).map content).sum
      + if target ∈ spares d target (copyNodes d target maxNodes).length then 0
        else content target := by
  obtain ⟨hlist, -, c, hrun, htarget, hlast⟩ := h.targetList_spec hd hs hnode
  rw [← h.sum_target hd hs hnode, ← htarget]
  simp only [reduxTarget, hlist, hrun] at hr
  split at hr
  · rename_i hnil
    rw [← Option.some.inj hr, List.getLast?_eq_none_iff.mp hnil]
    simp
  · rename_i inn hl
    rw [← hlast inn hl]
    unfold applyReduxOp at hr
    split at hr
    · exact absurd hr (by simp)
    · rename_i c' hc
      split at hc
      · rw [← Option.some.inj hr, ← Option.some.inj hc]
        exact Function.update_self ..
      · exact absurd hc (by simp)

/-- **The target's node goes through** when the target holds a contribution or received one. -/
theorem NodesInv.exists_reduxTarget (hd : d.Reducible target) (hs : SoundPlan d maxNodes target)
    (h : NodesInv d target content maxNodes r) {node : ℕ}
    (hnode : toIndex (d.inst target).dplace = some node) :
    ∃ r', reduxTarget target node r = some r' := by
  obtain ⟨hlist, halloc, c, hrun, -, -⟩ := h.targetList_spec hd hs.toCopyPlan hnode
  cases hl : (targetList d target maxNodes node).getLast? with
  | none =>
    simp only [reduxTarget, hlist, hrun, hl]
    exact ⟨_, rfl⟩
  | some inn =>
    have hinn : inn ∈ targetList d target maxNodes node := List.mem_of_getLast? hl
    have hne : inn ≠ target := fun heq => target_notMem_targetList node (heq ▸ hinn)
    have hop := h.opPair_target hd hs hnode (mem_of_mem_targetList hinn) hne
    have htarget : (r.data.inst target).allocated := by
      rw [h.slots.allocated]
      rcases hs.filled with hnil | hmem | hspare
      · have hmem := mem_of_mem_targetList hinn
        rw [targetList_nil target hnil] at hmem
        exact absurd hmem (by simp)
      · rw [contributions_allocated hd hmem, Bool.true_or]
      · simp [hspare]
    have hstep : applyReduxOp (r.data.modify target fun n =>
          { n with reduxOp := n.reduxOp || (r.data.inst inn).reduxOp }) target inn c
        = some (Function.update c target (c inn + c target)) := by
      rw [applyReduxOp, if_pos]
      simp only [LogicalData.modify_inst, hne, if_false, if_true, htarget,
        halloc inn hinn, ne_eq, not_false_eq_true, true_and, Bool.or_eq_true]
      rcases hop with hop | hop <;> simp [hop]
    simp only [reduxTarget, hlist, hrun, hl, hstep]
    exact ⟨_, rfl⟩

theorem reduxTarget_inst {node : ℕ} {r' : ReduxRun E V} (h : reduxTarget target node r = some r') :
    r'.temps = r.temps ∧ ∀ i, (r'.data.inst i).dplace = (r.data.inst i).dplace ∧
      (r'.data.inst i).msir = (r.data.inst i).msir := by
  unfold reduxTarget at h
  split at h
  · exact absurd h (by simp)
  · split at h
    · rw [← Option.some.inj h]
      exact ⟨rfl, fun _ => ⟨rfl, rfl⟩⟩
    · dsimp only at h
      split at h
      · exact absurd h (by simp)
      · rw [← Option.some.inj h]
        refine ⟨rfl, fun i => ?_⟩
        rcases eq_or_ne i target with rfl | hi
        · simp
        · simp [hi]

end Target

/-! ## 3. The whole reconstruction -/

/-- **What reconstruction is for**: whatever the operator and the contents (valid copies holding
the same), the target ends up with the contributions, each once, and is the only valid instance;
and the spare instances were at its place. -/
def Reconstructs (maxNodes target : ℕ) (d : LogicalData E) : Prop :=
  ∀ (V : Type) [AddCommMonoid V] (junk content : ℕ → V),
    (∀ i ∈ refCopies d, ∀ j ∈ refCopies d, content i = content j) →
    ∃ r, reconstructAfterRedux maxNodes junk target d content = some r ∧
      (contributions d ≠ [] → r.content target = ((contributions d).map content).sum) ∧
      (∀ i ∈ r.temps, (r.data.inst i).dplace = (d.inst target).dplace) ∧
      ∀ i, (r.data.inst i).msir ≠ .invalid ↔ i = target

variable {d : LogicalData E} {target maxNodes : ℕ}

theorem SlotInv.located {k : ℕ} {r : ReduxRun E V} (h : SlotInv d target k r)
    (hloc : ∀ i ∈ (availablePlan d target).reverse.take k,
      (d.inst i).dplace = (d.inst target).dplace) {i : ℕ} (hi : i ∈ r.temps) :
    (r.data.inst i).dplace = (d.inst target).dplace := by
  rw [h.temps] at hi
  obtain ⟨j, hj, rfl⟩ := List.mem_map.mp hi
  rw [List.mem_range] at hj
  rcases Nat.lt_or_ge j (availablePlan d target).length with hlt | hge
  · rcases h.dplace (spareAt d target j) with hsame | hplace
    · rw [hsame]
      refine hloc _ ?_
      rw [← List.length_reverse] at hlt
      have hget : ((availablePlan d target).reverse ++ unusedSlots d)[j]?
          = some ((availablePlan d target).reverse[j]) := by
        rw [List.getElem?_append_left hlt]
        exact List.getElem?_eq_getElem hlt
      simp only [spareAt, hget]
      exact List.mem_take_iff_getElem.mpr ⟨j, by omega, rfl⟩
    · exact hplace.1
  · exact h.fresh j hj hge

/-- **When the plan works out the reconstruction does.** -/
theorem reconstructs_of_soundPlan (hd : d.Reducible target) (hs : SoundPlan d maxNodes target) :
    Reconstructs maxNodes target d := by
  intro V _ junk content _
  obtain ⟨node, hnode⟩ : ∃ node, toIndex (d.inst target).dplace = some node := by
    obtain ⟨node, -, hnode⟩ := hs.exists_node (i := target) (by simp)
    exact ⟨node, hnode⟩
  obtain ⟨r, hrun, hinv⟩ := reduxNodes_inv hd hs.toCopyPlan junk (NodesInv.init d target content) le_rfl
  obtain ⟨r', htarget⟩ := hinv.exists_reduxTarget hd hs hnode
  obtain ⟨htemps, hinst⟩ := reduxTarget_inst htarget
  have hall : (target :: (reductionIds d target ++ referenceCopy d target)).all
      (indexed d maxNodes) = true := List.all_eq_true.mpr hs.indexed
  refine ⟨{ r' with data := r'.data.modify target fun n => { n with msir := .modified } }, ?_, ?_,
    ?_, ?_⟩
  · simp only [reconstructAfterRedux, hall, if_true, hrun, hnode, htarget]
  · intro hne
    have hcontent := hinv.content_target hd hs.toCopyPlan hnode htarget
    rw [sum_contributions target]
    rcases hs.filled with hnil | hmem | hspare
    · exact absurd hnil hne
    · rw [if_pos hmem]
      rwa [if_neg (target_notMem_spares hd hmem _)] at hcontent
    · have hout : target ∉ contributions d := fun hmem => target_notMem_spares hd hmem _ hspare
      rw [if_neg hout]
      rwa [if_pos hspare] at hcontent
  · intro i hi
    have hplace := hinv.slots.located hs.located (htemps ▸ hi)
    rw [← (hinst i).1] at hplace
    rcases eq_or_ne i target with rfl | hne
    · simpa using hplace
    · simpa [hne] using hplace
  · intro i
    rcases eq_or_ne i target with rfl | hne
    · simp
    · simp [hne, (hinst i).2, hinv.slots.msir]

end Cccl.Stf
