/-
# When reconstruction is right

`reconstruct_after_redux` puts a logical data together exactly when its plan works out.  That a
sound plan is enough is shown node after node; here is why it is needed.

The argument labels the contributions: contents are multisets, every instance starts with a label
of its own (the valid copies share one), and reducing adds up labels.  Nothing but a copy to a spare
instance ever takes a label away, so what is reduced into the target is at least all that is in its
list.  A slot that was handed out twice is in that list twice; and a node that is taken for another
one, though it is the target's, is in the list next to a copy of itself.  Either way some label
arrives twice.  Once this is excluded the invariant of the loop holds, and a target that neither
holds a contribution nor receives one shows with what it held before.
-/
import Mathlib.Algebra.Order.BigOperators.Group.List
import Mathlib.Data.Multiset.OrderedMonoid
import Cccl.Stf.ReduxNodes

namespace Cccl.Stf

open MsirStateId

variable {E V : Type*}

/-! ## 1. Bounds from below -/

section Bounds

variable [AddCommMonoid V] [PartialOrder V] [IsOrderedAddMonoid V] [CanonicallyOrderedAdd V]
  {d : LogicalData E}

omit [PartialOrder V] [IsOrderedAddMonoid V] [CanonicallyOrderedAdd V] in
theorem applyReduxOp_some {a b : ℕ} {content content' : ℕ → V}
    (h : applyReduxOp d b a content = some content') :
    content' = Function.update content b (content a + content b) := by
  unfold applyReduxOp at h
  split at h
  · exact (Option.some.inj h).symm
  · exact absurd h (by simp)

/-- **Reducing in place loses nothing**, whatever the list: contents only grow, and the last
instance gets at least the sum over the list. -/
theorem le_applyReduxOnNode :
    ∀ {ids : List ℕ} {content content' : ℕ → V}, applyReduxOnNode d ids content = some content' →
      (∀ i, content i ≤ content' i) ∧
        ∀ last ∈ ids.getLast?, (ids.map content).sum ≤ content' last
  | [], content, content', h => by
    obtain rfl := Option.some.inj h
    exact ⟨fun _ => le_rfl, by simp⟩
  | [a], content, content', h => by
    obtain rfl := Option.some.inj h
    exact ⟨fun _ => le_rfl, by simp⟩
  | a :: b :: rest, content, content', h => by
    simp only [applyReduxOnNode] at h
    split at h
    · exact absurd h (by simp)
    · rename_i c hc
      have hgrow : ∀ i, content i ≤ c i := by
        intro i
        rw [applyReduxOp_some hc]
        rcases eq_or_ne i b with rfl | hi
        · rw [Function.update_self]
          exact le_add_self
        · rw [Function.update_of_ne hi]
      obtain ⟨hle, hlast⟩ := le_applyReduxOnNode h
      refine ⟨fun i => (hgrow i).trans (hle i), fun last hl => ?_⟩
      rw [List.getLast?_cons_cons] at hl
      have hb : c b = content a + content b := by
        rw [applyReduxOp_some hc, Function.update_self]
      calc ((a :: b :: rest).map content).sum
          = c b + (rest.map content).sum := by simp [hb, add_assoc]
        _ ≤ c b + (rest.map c).sum := by
          gcongr
          exact List.sum_le_sum fun i _ => hgrow i
        _ = ((b :: rest).map c).sum := by simp
        _ ≤ content' last := hlast last hl

/-- Two entries of a list, be they the same instance, are in its sum. -/
theorem add_le_sum_map {l : List ℕ} {f : ℕ → V} {a b : ℕ} (ha : a ∈ l) (hb : b ∈ l.erase a) :
    f a + f b ≤ (l.map f).sum := by
  have hperm := ((List.perm_cons_erase ha).map f).sum_eq
  rw [hperm, List.map_cons, List.sum_cons]
  gcongr
  exact List.single_le_sum (by simp) _ (List.mem_map_of_mem hb)

/-- The target ends up with at least what is in its list and what it held. -/
theorem le_reduxTarget {target node : ℕ} {r r' : ReduxRun E V}
    (h : reduxTarget target node r = some r') (hne : r.perNode node ≠ []) :
    ((r.perNode node).map r.content).sum + r.content target ≤ r'.content target := by
  unfold reduxTarget at h
  split at h
  · exact absurd h (by simp)
  · rename_i c hc
    obtain ⟨hle, hlast⟩ := le_applyReduxOnNode hc
    split at h
    · rename_i hnil
      exact absurd (List.getLast?_eq_none_iff.mp hnil) hne
    · rename_i inn hl
      dsimp only at h
      split at h
      · exact absurd h (by simp)
      · rename_i c' hc'
        obtain rfl := Option.some.inj h
        show _ ≤ c' target
        rw [applyReduxOp_some hc', Function.update_self]
        exact add_le_add (hlast inn hl) (hle target)

end Bounds

/-! ## 2. Labels -/

section Labels

variable (d : LogicalData E)

/-- A label for each instance, one for all valid copies. -/
def label (i : ℕ) : Multiset ℕ :=
  if i ∈ refCopies d then ((refCopies d).take 1 : List ℕ) else {i}

variable {d}

theorem label_ne_zero (i : ℕ) : label d i ≠ 0 := by
  unfold label
  split
  · rename_i hi
    cases hr : refCopies d with
    | nil => simp [hr] at hi
    | cons ref rest => simp
  · simp

theorem label_contribution {i : ℕ} (h : i ∈ contributions d) : label d i = {i} := by
  unfold label
  rcases kind_of_mem_contributions h with hred | hhead
  · rw [if_neg]
    intro hi
    rcases (mem_refCopies.mp hi).2 with h | h <;> simp [hred] at h
  · rw [if_pos (List.mem_of_mem_head? hhead)]
    cases hr : refCopies d with
    | nil => simp [hr] at hhead
    | cons ref rest =>
      simp only [hr, List.head?_cons, Option.some.injEq] at hhead
      simp [hhead]

theorem sum_label : ((contributions d).map (label d)).sum = (contributions d : Multiset ℕ) := by
  have hsum : ∀ l : List ℕ, (l.map fun i => ({i} : Multiset ℕ)).sum = (l : Multiset ℕ) := by
    intro l
    induction l with
    | nil => rfl
    | cons a l ih => rw [List.map_cons, List.sum_cons, ih]; rfl
  rw [← hsum, List.map_congr_left fun i hi => label_contribution hi]

theorem no_double {S : Multiset ℕ} (h : S + S ≤ ((contributions d).map (label d)).sum) :
    S = 0 := by
  rw [sum_label] at h
  have hnd : (S + S).Nodup :=
    Multiset.nodup_of_le h (Multiset.coe_nodup.mpr nodup_contributions)
  rw [Multiset.nodup_add] at hnd
  exact Multiset.eq_zero_of_forall_notMem fun e he =>
    Multiset.disjoint_left.mp hnd.2.2 he he

end Labels

/-! ## 3. Slots handed out twice -/

section Clash

variable {d : LogicalData E} {target : ℕ}

theorem nodup_availablePlan : (availablePlan d target).Nodup := by
  have hsub : List.Sublist ((((refCopies d).zipIdx.drop 1).filter fun c =>
      (d.inst c.2).dplace = (d.inst target).dplace).map Prod.fst) (refCopies d) := by
    refine ((List.filter_sublist.trans (List.drop_sublist 1 _)).map Prod.fst).trans ?_
    rw [List.zipIdx_map_fst]
  refine (List.nodup_range.filter _).append (nodup_refCopies.sublist hsub) ?_
  refine List.disjoint_left.mpr fun i hinv hcopy => ?_
  have hvalid := (mem_refCopies.mp (hsub.subset hcopy)).2
  simp only [List.mem_filter, Bool.and_eq_true, decide_eq_true_eq] at hinv
  rcases hvalid with h | h <;> simp [h] at hinv

theorem spareAt_clash {j j' : ℕ} (hlt : j < j') (h : spareAt d target j = spareAt d target j') :
    spareAt d target j' ∈ unusedSlots d := by
  rcases Nat.lt_or_ge j' (availablePlan d target).reverse.length with hj' | hj'
  · have hget : ∀ i (hi : i < (availablePlan d target).reverse.length),
        spareAt d target i = (availablePlan d target).reverse[i] := by
      intro i hi
      simp only [spareAt, List.getElem?_append_left hi, List.getElem?_eq_getElem hi]
    rw [hget j (hlt.trans hj'), hget j' hj'] at h
    have hnd : (availablePlan d target).reverse.Nodup := List.nodup_reverse.mpr nodup_availablePlan
    have := hnd.getElem_inj_iff.mp h
    omega
  · cases hget : (unusedSlots d)[j' - (availablePlan d target).reverse.length]? with
    | some i =>
      have hspare : spareAt d target j' = i := by
        simp only [spareAt, List.getElem?_append_right hj', hget]
      rw [hspare]
      exact List.mem_of_getElem? hget
    | none =>
      -- a new slot is past the end of the table, and the new slots are all different
      have hlen := List.getElem?_eq_none_iff.mp hget
      have hspare : spareAt d target j' = d.count
          + (j' - ((availablePlan d target).length + (unusedSlots d).length)) := by
        simp only [spareAt, List.getElem?_append_right hj', hget]
      rw [List.length_reverse] at hlen hj'
      rw [hspare] at h
      unfold spareAt at h
      split at h
      · rename_i i hi
        have hmem : i < d.count := by
          rcases List.mem_append.mp (List.mem_of_getElem? hi) with hi | hi
          · exact (mem_availablePlan (List.mem_reverse.mp hi)).1
          · exact List.mem_range.mp (List.mem_filter.mp hi).1
        omega
      · rename_i hnone
        rw [List.getElem?_eq_none_iff, List.length_append, List.length_reverse] at hnone
        omega

/-- So if the spare instances other than the target are pairwise different, all are. -/
theorem nodup_spares_of_filter (hd : d.Reducible target) {k : ℕ}
    (h : ((spares d target k).filter fun i => i ≠ target).Nodup) : (spares d target k).Nodup := by
  have hne : ∀ {j j'}, j < j' → spareAt d target j = spareAt d target j' →
      spareAt d target j' ≠ target := by
    intro j j' hlt heq htarget
    have hmem := spareAt_clash hlt heq
    simp [htarget, unusedSlots, hd.target_used] at hmem
  have hinj : ∀ {j j'}, j < k → j' < k → j < j' → spareAt d target j ≠ spareAt d target j' := by
    intro j j' hj hj' hlt heq
    rw [spares, List.filter_map] at h
    have hj_mem : j ∈ (List.range k).filter
        ((fun i => decide (i ≠ target)) ∘ spareAt d target) := by
      simp [hj, heq, hne hlt heq]
    have hj'_mem : j' ∈ (List.range k).filter
        ((fun i => decide (i ≠ target)) ∘ spareAt d target) := by
      simp [hj', hne hlt heq]
    have := List.inj_on_of_nodup_map h hj_mem hj'_mem heq
    omega
  refine List.Nodup.map_on (fun j hj j' hj' heq => ?_) List.nodup_range
  rw [List.mem_range] at hj hj'
  rcases Nat.lt_trichotomy j j' with hlt | rfl | hlt
  · exact absurd heq (hinj hj hj' hlt)
  · rfl
  · exact absurd heq.symm (hinj hj' hj hlt)

end Clash

/-! ## 4. Any run -/

section Runs

variable {d : LogicalData E} {target node n k : ℕ}

/-- **All that one node can do**, whatever the plan. -/
theorem reduxNode_cases [AddCommMonoid V] {junk : ℕ → V} {r r' : ReduxRun E V}
    (hslots : SlotInv d target k r) (hnode : toIndex (d.inst target).dplace = some node)
    (h : reduxNode junk target (d.inst target).dplace n r = some r') :
    (r' = r ∧ (r.perNode n = [] ∨ fromIndex n = (d.inst target).dplace)) ∨
    (fromIndex n ≠ (d.inst target).dplace ∧ ∃ src c, (r.perNode n).getLast? = some src ∧
      applyReduxOnNode r.data (r.perNode n) r.content = some c ∧ SlotInv d target (k + 1) r' ∧
      r'.content = Function.update c (spareAt d target k) (c src) ∧
      r'.perNode = if spareAt d target k = target then r.perNode
        else Function.update r.perNode node (r.perNode node ++ [spareAt d target k])) := by
  unfold reduxNode at h
  split at h
  · rename_i hnil
    exact Or.inl ⟨(Option.some.inj h).symm, Or.inl (List.getLast?_eq_none_iff.mp hnil)⟩
  · rename_i src hsrc
    split at h
    · rename_i hplace
      exact Or.inl ⟨(Option.some.inj h).symm, Or.inr hplace⟩
    · rename_i hplace
      refine Or.inr ⟨hplace, ?_⟩
      split at h
      · exact absurd h (by simp)
      · rename_i c hc
        obtain ⟨r₁, htake, hcontent, hper, -, hslots'⟩ := spare_step (r := { r with content := c })
          (hslots.congr rfl rfl rfl) junk src
        simp only [htake, hnode] at h
        have hcopy : (copyToSpare junk (spareAt d target k) src r₁).content
            = Function.update c (spareAt d target k) (c src) := by
          rw [copyToSpare_content, hcontent]
        have hper' : (copyToSpare junk (spareAt d target k) src r₁).perNode = r.perNode := hper
        split at h
        · split at h
          · rename_i htarget
            obtain rfl := Option.some.inj h
            exact ⟨src, c, hsrc, hc, hslots', hcopy, by rw [if_pos htarget, hper']⟩
          · rename_i htarget
            obtain rfl := Option.some.inj h
            refine ⟨src, c, hsrc, hc, hslots'.congr rfl rfl rfl, hcopy, ?_⟩
            rw [if_neg htarget, hper']
        · exact absurd h (by simp)

/-- Some label is in two of the instances that are going to be reduced into the target. -/
def Doubled (d : LogicalData E) (target node k : ℕ) (r : ReduxRun E (Multiset ℕ)) : Prop :=
  ∃ S : Multiset ℕ, S ≠ 0 ∧ ∃ a ∈ perNodePlan d target node ++ spares d target k,
    ∃ b ∈ perNodePlan d target node ++ spares d target k,
      a ≠ b ∧ S ≤ r.content a ∧ S ≤ r.content b

/-- What holds in any run after the nodes below `n`, with `k` spare instances handed out: no
instance to be reduced is empty, and once the target's node was taken for another one a label is
doubled. -/
structure RunInv (d : LogicalData E) (target node n k : ℕ) (r : ReduxRun E (Multiset ℕ)) :
    Prop where
  slots : SlotInv d target k r
  perNode : ∀ m, r.perNode m = perNodePlan d target m ++
    if node = m then (spares d target k).filter (fun i => i ≠ target) else []
  pos : ∀ m, ∀ i ∈ r.perNode m, r.content i ≠ 0
  count : (copyNodes d target n).length ≤ k
  before : n ≤ node → k = (copyNodes d target n).length
  after : node < n → fromIndex node ≠ (d.inst target).dplace →
    (perNodePlan d target node ≠ [] ∨
      ∃ i ∈ spares d target (copyNodes d target node).length, i ≠ target) →
    (spares d target k).Nodup → Doubled d target node k r

variable {r r' : ReduxRun E (Multiset ℕ)}

theorem RunInv.skip (h : RunInv d target node n k r)
    (hskip : r.perNode n = [] ∨ fromIndex n = (d.inst target).dplace) :
    RunInv d target node (n + 1) k r := by
  have hnodes : copyNodes d target (n + 1) = copyNodes d target n := by
    rw [copyNodes_succ, if_neg, List.append_nil]
    rintro ⟨hne, hplace⟩
    rcases hskip with hnil | hplace'
    · rw [h.perNode] at hnil
      exact hne (List.append_eq_nil_iff.mp hnil).1
    · exact hplace hplace'
  refine ⟨h.slots, h.perNode, h.pos, by rw [hnodes]; exact h.count, ?_, ?_⟩
  · intro hn
    rw [hnodes]
    exact h.before (by omega)
  · intro hn hplace hsome hnd
    rcases Nat.lt_succ_iff_lt_or_eq.mp hn with hlt | rfl
    · exact h.after hlt hplace hsome hnd
    · -- the target's node was reached with nothing in its list
      rcases hskip with hnil | hplace'
      · rw [h.perNode, if_pos rfl, List.append_eq_nil_iff] at hnil
        rcases hsome with hne | ⟨i, hi, hit⟩
        · exact absurd hnil.1 hne
        · rw [← h.before le_rfl] at hi
          have hmem : i ∈ (spares d target k).filter fun i => i ≠ target := by simp [hi, hit]
          rw [hnil.2] at hmem
          exact absurd hmem (by simp)
      · exact absurd hplace' hplace

/-- An instance to be reduced or handed out is not the next spare one, if slots are not handed out
twice. -/
theorem ne_spareAt (hd : d.Reducible target) (hnd : (spares d target (k + 1)).Nodup) {m i : ℕ}
    (hi : i ∈ perNodePlan d target m ++ spares d target k) : i ≠ spareAt d target k := by
  rintro rfl
  rcases List.mem_append.mp hi with hi | hi
  · exact spareAt_notMem_plan hd k (mem_perNodePlan.mp hi).1
  · rw [spares_succ, List.nodup_append] at hnd
    exact hnd.2.2 _ hi _ (by simp) rfl

theorem RunInv.mem_list (h : RunInv d target node n k r) {m i : ℕ} (hi : i ∈ r.perNode m) :
    i ∈ perNodePlan d target m ++ spares d target k := by
  rw [h.perNode] at hi
  rcases List.mem_append.mp hi with hi | hi
  · exact List.mem_append_left _ hi
  · split at hi
    · exact List.mem_append_right _ (List.mem_filter.mp hi).1
    · exact absurd hi (by simp)

theorem RunInv.copy (hd : d.Reducible target) (h : RunInv d target node n k r)
    (hplace : fromIndex n ≠ (d.inst target).dplace) {src : ℕ} {c : ℕ → Multiset ℕ}
    (hsrc : (r.perNode n).getLast? = some src)
    (hc : applyReduxOnNode r.data (r.perNode n) r.content = some c)
    (hslots : SlotInv d target (k + 1) r')
    (hcontent : r'.content = Function.update c (spareAt d target k) (c src))
    (hper : r'.perNode = if spareAt d target k = target then r.perNode
      else Function.update r.perNode node (r.perNode node ++ [spareAt d target k])) :
    RunInv d target node (n + 1) (k + 1) r' := by
  have hmem : src ∈ r.perNode n := List.mem_of_getLast? hsrc
  obtain ⟨hle, -⟩ := le_applyReduxOnNode hc
  have hgrow : ∀ {i : ℕ}, i ≠ spareAt d target k → r.content i ≤ r'.content i := by
    intro i hi
    rw [hcontent, Function.update_of_ne hi]
    exact hle i
  have hlist : ∀ m, r'.perNode m = perNodePlan d target m ++
      if node = m then (spares d target (k + 1)).filter (fun i => i ≠ target) else [] := by
    intro m
    rw [hper, spares_succ, List.filter_append, List.filter_singleton]
    rcases eq_or_ne (spareAt d target k) target with heq | hne
    · simp [heq, h.perNode m]
    · rcases eq_or_ne m node with rfl | hm
      · simp [hne, h.perNode m]
      · simp [hne, h.perNode m, hm, hm.symm]
  have hnonzero : c src ≠ 0 := fun hzero =>
    h.pos n src hmem (le_zero_iff.mp (hzero ▸ hle src))
  refine ⟨hslots, hlist, ?_, ?_, ?_, ?_⟩
  · intro m i hi
    rcases eq_or_ne i (spareAt d target k) with rfl | hne
    · rw [hcontent, Function.update_self]
      exact hnonzero
    · have hold : i ∈ r.perNode m := by
        rw [hlist] at hi
        rw [h.perNode]
        rcases List.mem_append.mp hi with hi | hi
        · exact List.mem_append_left _ hi
        · refine List.mem_append_right _ ?_
          split at hi
          · rw [if_pos ‹_›]
            rw [spares_succ, List.filter_append, List.mem_append] at hi
            rcases hi with hi | hi
            · exact hi
            · exact absurd (List.mem_singleton.mp (List.mem_filter.mp hi).1) hne
          · exact absurd hi (by simp)
      exact fun hzero => h.pos m i hold (le_zero_iff.mp (hzero ▸ hgrow hne))
  · rw [copyNodes_succ, List.length_append]
    have hcount := h.count
    split <;> simp <;> omega
  · intro hn
    have hnil : perNodePlan d target n ≠ [] := by
      rw [h.perNode, if_neg (by omega), List.append_nil] at hmem
      exact List.ne_nil_of_mem hmem
    rw [copyNodes_succ, if_pos ⟨hnil, hplace⟩, List.length_append, ← h.before (by omega)]
    rfl
  · intro hn hplace' hsome hnd
    have hnd' : (spares d target k).Nodup := by
      rw [spares_succ] at hnd
      exact hnd.of_append_left
    have hsub : ∀ {i}, i ∈ perNodePlan d target node ++ spares d target k →
        i ∈ perNodePlan d target node ++ spares d target (k + 1) := by
      intro i hi
      rw [spares_succ, ← List.append_assoc]
      exact List.mem_append_left _ hi
    rcases Nat.lt_succ_iff_lt_or_eq.mp hn with hlt | rfl
    · obtain ⟨S, hS, a, ha, b, hb, hab, hSa, hSb⟩ := h.after hlt hplace' hsome hnd'
      exact ⟨S, hS, a, hsub ha, b, hsub hb, hab, hSa.trans (hgrow (ne_spareAt hd hnd ha)),
        hSb.trans (hgrow (ne_spareAt hd hnd hb))⟩
    · -- the sum of the target's own list now stands next to it
      have hne := ne_spareAt hd hnd (h.mem_list hmem)
      refine ⟨c src, hnonzero, src, hsub (h.mem_list hmem), spareAt d target k, ?_, hne, ?_, ?_⟩
      · simp [spares_succ]
      · rw [hcontent, Function.update_of_ne hne]
      · rw [hcontent, Function.update_self]

/-- **The invariant of any run.** -/
theorem reduxNodes_runInv (hd : d.Reducible target)
    (hnode : toIndex (d.inst target).dplace = some node) {junk : ℕ → Multiset ℕ}
    (h : RunInv d target node 0 0 r) :
    ∀ {n : ℕ} {r' : ReduxRun E (Multiset ℕ)},
      reduxNodes junk target (d.inst target).dplace n r = some r' →
      ∃ k, RunInv d target node n k r'
  | 0, r', hr => ⟨0, Option.some.inj hr ▸ h⟩
  | n + 1, r', hr => by
    simp only [reduxNodes] at hr
    split at hr
    · exact absurd hr (by simp)
    · rename_i r₁ hr₁
      obtain ⟨k, hinv⟩ := reduxNodes_runInv hd hnode h hr₁
      rcases reduxNode_cases hinv.slots hnode hr with
        ⟨rfl, hskip⟩ | ⟨hplace, src, c, hsrc, hc, hslots, hcontent, hper⟩
      · exact ⟨k, hinv.skip hskip⟩
      · exact ⟨k + 1, hinv.copy hd hplace hsrc hc hslots hcontent hper⟩

theorem RunInv.init (d : LogicalData E) (target node : ℕ) :
    RunInv d target node 0 0
      { data := d.modifyAll fun _ n => { n with msir := .invalid }
        content := label d
        perNode := perNodePlan d target
        available := availablePlan d target } := by
  refine ⟨(NodesInv.init d target (label d)).slots, ?_, fun m i _ => label_ne_zero i, ?_, ?_, ?_⟩
  · simp [spares]
  · simp [copyNodes]
  · simp [copyNodes]
  · simp

theorem RunInv.nodup_spares (hd : d.Reducible target) (h : RunInv d target node n k r)
    (hr : reduxTarget target node r = some r')
    (hsum : r'.content target = ((contributions d).map (label d)).sum) :
    (spares d target k).Nodup := by
  refine nodup_spares_of_filter hd ?_
  have hsub : List.Sublist ((spares d target k).filter fun i => i ≠ target) (r.perNode node) := by
    rw [h.perNode, if_pos rfl]
    exact List.sublist_append_right _ _
  refine List.Nodup.sublist hsub ?_
  by_contra hdup
  obtain ⟨i, hi⟩ : ∃ i, ¬ List.count i (r.perNode node) ≤ 1 := by
    rw [List.nodup_iff_count_le_one] at hdup
    push Not at hdup ⊢
    exact hdup
  have hmem : i ∈ r.perNode node := List.count_pos_iff.mp (by omega)
  have herase : i ∈ (r.perNode node).erase i := by
    rw [← List.count_pos_iff, List.count_erase_self]
    omega
  refine h.pos node i hmem (no_double (d := d) ?_)
  rw [← hsum]
  calc r.content i + r.content i ≤ ((r.perNode node).map r.content).sum :=
        add_le_sum_map hmem herase
    _ ≤ ((r.perNode node).map r.content).sum + r.content target := le_self_add
    _ ≤ r'.content target := le_reduxTarget hr (List.ne_nil_of_mem hmem)

theorem RunInv.not_doubled (h : RunInv d target node n k r)
    (hr : reduxTarget target node r = some r')
    (hsum : r'.content target = ((contributions d).map (label d)).sum) :
    ¬ Doubled d target node k r := by
  rintro ⟨S, hS, a, ha, b, hb, hab, hSa, hSb⟩
  have hlist : ∀ {i}, i ∈ perNodePlan d target node ++ spares d target k → i ≠ target →
      i ∈ r.perNode node := by
    intro i hi hne
    rw [h.perNode, if_pos rfl]
    rcases List.mem_append.mp hi with hi | hi
    · exact List.mem_append_left _ hi
    · exact List.mem_append_right _ (by simp [hi, hne])
  have hle : ∀ {i}, i ∈ r.perNode node → r.content i ≤ ((r.perNode node).map r.content).sum :=
    fun hi => List.single_le_sum (by simp) _ (List.mem_map_of_mem hi)
  refine hS (no_double (d := d) ?_)
  rw [← hsum]
  -- one of the two may be the target, which is not in its own list
  rcases eq_or_ne a target with rfl | hat
  · have hmem := hlist hb hab.symm
    refine le_trans ?_ (le_reduxTarget hr (List.ne_nil_of_mem hmem))
    exact add_le_add (hSb.trans (hle hmem)) hSa
  · have hmem := hlist ha hat
    refine le_trans ?_ (le_reduxTarget hr (List.ne_nil_of_mem hmem))
    rcases eq_or_ne b target with rfl | hbt
    · exact add_le_add (hSa.trans (hle hmem)) hSb
    · refine le_trans (add_le_add hSa hSb) (le_trans ?_ le_self_add)
      exact add_le_sum_map hmem ((List.mem_erase_of_ne hab.symm).mpr (hlist hb hbt))

end Runs

/-! ## 5. The exact condition -/

section Exact

variable {d : LogicalData E} {target maxNodes : ℕ}

theorem reconstructAfterRedux_some [AddCommMonoid V] {junk content : ℕ → V} {r : ReduxRun E V}
    (h : reconstructAfterRedux maxNodes junk target d content = some r) :
    (∀ i ∈ target :: (reductionIds d target ++ referenceCopy d target), indexed d maxNodes i) ∧
    ∃ node r₁ r₂, toIndex (d.inst target).dplace = some node ∧
      reduxNodes junk target (d.inst target).dplace maxNodes
        { data := d.modifyAll fun _ n => { n with msir := .invalid }
          content := content
          perNode := perNodePlan d target
          available := availablePlan d target } = some r₁ ∧
      reduxTarget target node r₁ = some r₂ ∧
      r = { r₂ with data := r₂.data.modify target fun n => { n with msir := .modified } } := by
  unfold reconstructAfterRedux at h
  split at h
  · rename_i hall
    refine ⟨List.all_eq_true.mp hall, ?_⟩
    dsimp only at h
    split at h
    · rename_i r₁ node hr₁ hnode
      split at h
      · exact absurd h (by simp)
      · rename_i r₂ hr₂
        exact ⟨node, r₁, r₂, hnode, hr₁, hr₂, (Option.some.inj h).symm⟩
    · exact absurd h (by simp)
  · exact absurd h (by simp)

theorem soundPlan_of_nil (hnil : contributions d = [])
    (hindexed : ∀ i ∈ target :: (reductionIds d target ++ referenceCopy d target),
      indexed d maxNodes i) : SoundPlan d maxNodes target := by
  have hlist := targetList_nil target hnil
  have hspares : ∀ n, spares d target (copyNodes d target n).length = [] := fun n =>
    (List.append_eq_nil_iff.mp (hlist 0 n)).2
  have hcopy : ∀ n, (copyNodes d target n).length = 0 := by
    intro n
    simpa [spares] using hspares n
  refine ⟨⟨hindexed, by rw [hspares]; exact List.nodup_nil, fun node _ => Or.inr ⟨?_, ?_⟩⟩, ?_,
    Or.inl hnil⟩
  · exact (List.append_eq_nil_iff.mp (hlist node 0)).1
  · rw [hspares]
    simp
  · rw [hcopy]
    simp

/-- **A right reconstruction loses and doubles nothing on the way.** -/
theorem copyPlan_of_reconstructs (hd : d.Reducible target) (h : Reconstructs maxNodes target d)
    (hne : contributions d ≠ []) : CopyPlan d maxNodes target := by
  obtain ⟨r, hr, hsum, -, -⟩ := h (Multiset ℕ) (fun _ => 0) (label d) (by
    intro i hi j hj
    simp only [label, hi, hj, if_true])
  obtain ⟨hindexed, node, r₁, r₂, hnode, hr₁, hr₂, rfl⟩ := reconstructAfterRedux_some hr
  obtain ⟨k, hinv⟩ := reduxNodes_runInv hd hnode (RunInv.init d target node) hr₁
  have hnd := hinv.nodup_spares hd hr₂ (hsum hne)
  refine ⟨hindexed, ?_, ?_⟩
  · exact ((List.range_sublist.mpr hinv.count).map (spareAt d target)).nodup hnd
  · intro node' hnode'
    obtain rfl := Option.some.inj (hnode'.symm.trans hnode)
    by_contra hview
    rw [not_or] at hview
    have hlt : node' < maxNodes := by
      have hidx := hindexed target (by simp)
      simpa [indexed, hnode] using hidx
    refine hinv.not_doubled hr₂ (hsum hne) (hinv.after hlt hview.1 ?_ hnd)
    by_contra hnone
    push Not at hnone
    exact hview.2 ⟨hnone.1, hnone.2⟩

theorem SlotInv.dplace_of_used {k i : ℕ} {r : ReduxRun E V} (h : SlotInv d target k r)
    (hused : (d.inst i).used) (hlt : i < d.count) :
    (r.data.inst i).dplace = (d.inst i).dplace := by
  rcases h.dplace i with hsame | ⟨-, hunused | hge⟩
  · exact hsame
  · simp [unusedSlots, hused] at hunused
  · omega

/-- **The spare instances of a right reconstruction are at the target's place already**, and the
target holds a contribution or receives one. -/
theorem soundPlan_of_reconstructs (hd : d.Reducible target) (h : Reconstructs maxNodes target d)
    (hne : contributions d ≠ []) : SoundPlan d maxNodes target := by
  have hs := copyPlan_of_reconstructs hd h hne
  obtain ⟨r, hr, hsum, htemps, -⟩ := h ℕ (fun _ => 0) (fun _ => 1) (by simp)
  obtain ⟨-, node, r₁, r₂, hnode, hr₁, hr₂, rfl⟩ := reconstructAfterRedux_some hr
  obtain ⟨r₁', hr₁', hinv⟩ := reduxNodes_inv hd hs (fun _ => 0)
    (NodesInv.init d target fun _ => 1) le_rfl
  obtain rfl := Option.some.inj (hr₁.symm.trans hr₁')
  refine ⟨hs, ?_, ?_⟩
  · intro i hi
    obtain ⟨j, hj, rfl⟩ := List.mem_take_iff_getElem.mp hi
    have hspare : spareAt d target j = (availablePlan d target).reverse[j] := by
      have hlt : j < (availablePlan d target).reverse.length := by omega
      simp only [spareAt, List.getElem?_append_left hlt, List.getElem?_eq_getElem hlt]
    rw [← hspare]
    have havail : spareAt d target j ∈ availablePlan d target := by
      rw [hspare]
      exact List.mem_reverse.mp (List.getElem_mem _)
    obtain ⟨hlt, ⟨-, hplace⟩ | ⟨hvalid, -⟩⟩ := mem_availablePlan havail
    · exact hplace
    · have hused : (d.inst (spareAt d target j)).used := by
        by_contra hunused
        rw [Bool.not_eq_true] at hunused
        have hinvalid := hd.unused _ hunused
        rcases hvalid with h | h <;> simp [h] at hinvalid
      obtain ⟨htemps', hinst⟩ := reduxTarget_inst hr₂
      have hmem : spareAt d target j ∈ r₂.temps := by
        rw [htemps', hinv.slots.temps]
        exact List.mem_map_of_mem (List.mem_range.mpr (by omega))
      rw [← hinv.slots.dplace_of_used hused hlt, ← (hinst _).1, ← htemps _ hmem,
        LogicalData.modify_inst]
      split <;> rfl
  · by_contra hempty
    push Not at hempty
    have hcontent := hinv.content_target hd hs hnode hr₂
    rw [if_neg hempty.2.2] at hcontent
    have hexpected := hsum hne
    rw [sum_contributions target, if_neg hempty.2.1] at hexpected
    have hboth := hcontent.symm.trans hexpected
    simp at hboth

/-- A contribution of the first device to a data on the host. -/
def deviceReduction : LogicalData ℕ :=
  { count := 2
    inst := fun i => match i with
      | 0 => { used := true, dplace := .host, msir := .modified, allocated := true }
      | 1 => { used := true, dplace := .device 0, msir := .reduction, allocated := true,
               reduxOp := true }
      | _ => {}
    referenceInstanceId := some 0 }

/-- A data written on the first device, with a contribution of the host, and with a spare instance
on the host that is left over from an earlier reduction. -/
def leftoverSpare : LogicalData ℕ :=
  { count := 4
    inst := fun i => match i with
      | 0 => { used := true, dplace := .host, msir := .invalid, allocated := true }
      | 1 => { used := true, dplace := .device 0, msir := .modified, allocated := true }
      | 2 => { used := true, dplace := .host, msir := .invalid, allocated := true,
               reduxOp := true }
      | 3 => { used := true, dplace := .host, msir := .reduction, allocated := true,
               reduxOp := true }
      | _ => {}
    referenceInstanceId := some 0 }

end Exact

end Cccl.Stf
