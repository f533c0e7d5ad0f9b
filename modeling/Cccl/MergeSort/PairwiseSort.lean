/-
# Sorting the items of one thread, unstably

`unstable_pairwise_sort` of `thread_sort.cuh` is the pairwise network of the next power of two, without the pairs whose
right-hand side is no item.  Seen from a threshold, each item is true if it is not below the threshold, and what is no
item is true; then the pairs that are left out would change nothing (`view_layerPairs`).  A list that looks sorted from
each of its items is sorted (`sorted_of_views`).
-/
import Cccl.Cmath.Ilog
import Cccl.Lib.PairwiseNetwork
import Cccl.MergeSort.MergePath
import Cccl.MergeSort.ThreadSort

namespace Cccl.MergeSort

open StableSort PairwiseNetwork

/-! ## 1. The code -/

section

variable {α : Type*} (lt : α → α → Bool)

/-- `compare_swap` of two items of an array. -/
def compareSwapAt (items : List α) (lhs rhs : ℕ) : List α :=
  match items[lhs]?, items[rhs]? with
  | some a, some b => (items.set lhs (compareSwap lt a b).1).set rhs (compareSwap lt a b).2
  | _, _ => items

/-- A loop that compares items with those a stride behind them. -/
def compareLoop (stride : ℕ) (lhss : List ℕ) (items : List α) : List α :=
  lhss.foldl (fun items lhs => compareSwapAt lt items lhs (lhs + stride)) items

/-- The loops over `group_offset` and `lhs`. -/
def groupLhs (n groupSize : ℕ) : List ℕ :=
  (List.range groupSize).flatMap fun groupOffset =>
    ((List.range n).map fun i => groupOffset + i * (2 * groupSize)).filter fun lhs => decide (lhs < n - groupSize)

/-- The loop over `lhs` of a step. -/
def stepLhs (n groupSize stride : ℕ) : List ℕ :=
  (List.range n).filter fun lhs => decide (lhs / groupSize % 2 = 1 ∧ lhs + stride < n)

def unstablePairwiseSort (items : List α) : List α :=
  let n := items.length
  let networkDegree := Cmath.ceilIlog2 n
  -- `next_power_of_two`
  let networkSize := 2 ^ networkDegree
  let items := (List.range networkDegree).foldl (fun items e =>
    let groupSize := 2 ^ e
    compareLoop lt groupSize (groupLhs n groupSize) items) items
  (List.range (networkDegree - 1)).foldl (fun items stage =>
    let groupSize := networkSize / 2 ^ (stage + 2)
    let firstStep := 2 ^ (stage + 1) - 1
    (List.range (stage + 1)).foldl (fun items t =>
      let stride := groupSize * (firstStep / 2 ^ t)
      compareLoop lt stride (stepLhs n groupSize stride) items) items) items

end

variable {α : Type*} {lt : α → α → Bool} {l : List α} {i j n : ℕ} {L : Layer}

/-! ## 2. The items stay -/

theorem compareSwapAt_eq (hi : i < l.length) (hj : j < l.length) : compareSwapAt lt l i j =
    if lt l[j] l[i] then (l.set i l[j]).set j l[i] else l := by
  rw [compareSwapAt, List.getElem?_eq_getElem hi, List.getElem?_eq_getElem hj]
  dsimp only
  rw [compareSwap]
  split
  · rfl
  · rw [List.set_getElem_self, List.set_getElem_self]

theorem perm_compareSwapAt (l : List α) (i j : ℕ) : (compareSwapAt lt l i j).Perm l := by
  by_cases h : i < l.length ∧ j < l.length
  · rw [compareSwapAt_eq h.1 h.2]
    split
    · exact List.set_set_perm h.1 h.2
    · exact List.Perm.refl l
  · rw [compareSwapAt]
    split
    · rename_i hi hj
      exact absurd ⟨(List.getElem?_eq_some_iff.mp hi).1, (List.getElem?_eq_some_iff.mp hj).1⟩ h
    · exact List.Perm.refl l

theorem perm_foldl {ι : Type*} {f : List α → ι → List α} (hf : ∀ l k, (f l k).Perm l) :
    ∀ (ks : List ι) (l : List α), (ks.foldl f l).Perm l
  | [], l => List.Perm.refl l
  | k :: ks, l => (perm_foldl hf ks (f l k)).trans (hf l k)

theorem perm_compareLoop (stride : ℕ) (lhss : List ℕ) (l : List α) : (compareLoop lt stride lhss l).Perm l :=
  perm_foldl (fun l lhs => perm_compareSwapAt l lhs (lhs + stride)) lhss l

/-- **The result is a permutation of the items.** -/
theorem perm_unstablePairwiseSort (lt : α → α → Bool) (l : List α) : (unstablePairwiseSort lt l).Perm l := by
  unfold unstablePairwiseSort
  dsimp only
  refine (perm_foldl (fun l stage => ?_) _ _).trans ?_
  · exact perm_foldl (fun l t => perm_compareLoop _ _ l) _ l
  · exact perm_foldl (fun l e => perm_compareLoop _ _ l) _ l

/-! ## 3. Thresholds -/

/-- What is not below the threshold, or no item. -/
def view (lt : α → α → Bool) (x : α) (l : List α) (i : ℕ) : Bool := (l[i]?.map (notAbove lt x)).getD true

theorem view_of_le (x : α) (h : l.length ≤ i) : view lt x l i = true := by
  rw [view, List.getElem?_eq_none h]
  rfl

theorem view_of_lt (x : α) (h : i < l.length) : view lt x l i = notAbove lt x l[i] := by
  rw [view, List.getElem?_eq_getElem h]
  rfl

section Order

variable [IsStrictWeakOrder α fun a b => lt a b = true]

/-- **Comparing two items puts what is seen of them in order.** -/
theorem view_compareSwapAt (x : α) (hij : i < j) (hj : j < l.length) (k : ℕ) :
    view lt x (compareSwapAt lt l i j) k =
      if k = i then view lt x l i && view lt x l j
      else if k = j then view lt x l i || view lt x l j else view lt x l k := by
  have hi := hij.trans hj
  rw [compareSwapAt_eq hi hj, view_of_lt x hi, view_of_lt x hj]
  split
  · -- the items are swapped, and what is true on the right-hand side is true on the left-hand side
    rename_i hswap
    have hup : notAbove lt x l[j] = true → notAbove lt x l[i] = true := by
      rw [notAbove_iff, notAbove_iff]
      exact fun h => notAbove_trans h (below_asymm hswap)
    rw [view, List.getElem?_set, List.length_set, List.getElem?_set]
    by_cases hki : k = i
    · subst hki
      rw [if_neg (by omega), if_pos rfl, if_pos hi, if_pos rfl]
      change notAbove lt x l[j] = _
      cases hb : notAbove lt x l[j] with
      | true => rw [hup hb]; rfl
      | false => rw [Bool.and_false]
    · rw [if_neg hki]
      by_cases hkj : k = j
      · subst hkj
        rw [if_pos rfl, if_pos hj, if_pos rfl]
        change notAbove lt x l[i] = _
        cases hb : notAbove lt x l[k] with
        | true => rw [hup hb]; rfl
        | false => rw [Bool.or_false]
      · rw [if_neg (Ne.symm hkj), if_neg (Ne.symm hki), if_neg hkj]
        rfl
  · rename_i hkeep
    have hup : notAbove lt x l[i] = true → notAbove lt x l[j] = true := by
      rw [notAbove_iff, notAbove_iff]
      exact fun h => notAbove_trans h (Bool.eq_false_iff.mpr hkeep)
    split
    · rename_i hki
      subst hki
      rw [view_of_lt x hi]
      cases ha : notAbove lt x l[k] with
      | true => rw [hup ha]; rfl
      | false => rfl
    · split
      · rename_i hkj
        subst hkj
        rw [view_of_lt x hj]
        cases ha : notAbove lt x l[i] with
        | true => rw [hup ha]; rfl
        | false => rfl
      · rfl

/-- What is seen after a loop, of which all left-hand sides are low and all right-hand sides are not. -/
theorem view_compareLoop (x : α) {p : ℕ → Prop} [DecidablePred p] {stride : ℕ} (hstride : 0 < stride) :
    ∀ {lhss : List ℕ} {l : List α}, (∀ lhs ∈ lhss, p lhs ∧ ¬p (lhs + stride) ∧ lhs + stride < l.length) → ∀ k,
    view lt x (compareLoop lt stride lhss l) k =
      if p k then if k ∈ lhss then view lt x l k && view lt x l (k + stride) else view lt x l k
      else if stride ≤ k ∧ k - stride ∈ lhss then view lt x l (k - stride) || view lt x l k else view lt x l k
  | [], l, _, k => by
    simp only [compareLoop, List.foldl_nil, List.not_mem_nil, and_false, if_false, ite_self]
  | lhs :: lhss, l, h, k => by
    obtain ⟨hlow, hhigh, hlt⟩ := h lhs List.mem_cons_self
    have hfirst := @view_compareSwapAt _ lt _ _ _ _ x (Nat.lt_add_of_pos_right hstride) hlt
    have hlater : ∀ lhs' ∈ lhss, p lhs' ∧ ¬p (lhs' + stride) ∧
        lhs' + stride < (compareSwapAt lt l lhs (lhs + stride)).length := by
      rw [(perm_compareSwapAt l lhs (lhs + stride)).length_eq]
      exact fun lhs' hmem => h lhs' (List.mem_cons_of_mem _ hmem)
    have hrest := view_compareLoop x hstride hlater k
    change view lt x (compareLoop lt stride lhss (compareSwapAt lt l lhs (lhs + stride))) k = _
    rw [hrest]
    have hfits : ∀ {k}, k ∈ lhss → p k ∧ ¬p (k + stride) := fun hk =>
      ⟨(h _ (List.mem_cons_of_mem _ hk)).1, (h _ (List.mem_cons_of_mem _ hk)).2.1⟩
    split
    · rename_i hk
      have hne : k ≠ lhs + stride := fun heq => hhigh (heq ▸ hk)
      by_cases heq : k = lhs
      · subst heq
        have hat := hfirst k
        have hbehind := hfirst (k + stride)
        rw [if_pos rfl] at hat
        rw [if_neg hne.symm, if_pos rfl] at hbehind
        rw [if_pos List.mem_cons_self, hat, hbehind]
        cases view lt x l k <;> cases view lt x l (k + stride) <;> simp
      · rw [hfirst k, if_neg heq, if_neg hne]
        simp only [List.mem_cons, heq, false_or]
        split
        · rename_i hmem
          have hne' : k + stride ≠ lhs := fun heq' => (hfits hmem).2 (heq' ▸ hlow)
          rw [hfirst (k + stride), if_neg hne', if_neg (by omega)]
        · rfl
    · rename_i hk
      have hne : k ≠ lhs := fun heq => hk (heq ▸ hlow)
      by_cases heq : k = lhs + stride
      · subst heq
        have hat := hfirst (lhs + stride)
        have hbefore := hfirst lhs
        rw [if_neg hne, if_pos rfl] at hat
        rw [if_pos rfl] at hbefore
        have hcons : stride ≤ lhs + stride ∧ lhs ∈ lhs :: lhss := ⟨Nat.le_add_left _ _, List.mem_cons_self⟩
        rw [Nat.add_sub_cancel, hat, hbefore, if_pos hcons]
        cases view lt x l lhs <;> cases view lt x l (lhs + stride) <;> simp
      · rw [hfirst k, if_neg hne, if_neg heq]
        by_cases hmem : stride ≤ k ∧ k - stride ∈ lhss
        · have hne' : k - stride ≠ lhs + stride := fun heq' => hhigh (heq' ▸ (hfits hmem.2).1)
          rw [if_pos hmem, if_pos ⟨hmem.1, List.mem_cons_of_mem _ hmem.2⟩, hfirst (k - stride), if_neg (by omega),
            if_neg hne']
        · rw [if_neg hmem, if_neg]
          rintro ⟨hle, hcons⟩
          rcases List.mem_cons.mp hcons with heq' | hmem'
          · exact heq (by omega)
          · exact hmem ⟨hle, hmem'⟩

/-- **A loop over the pairs of a layer** does what the layer does. -/
theorem view_layerPairs (x : α) {lhss : List ℕ} (hgroup : 0 < L.group) (hparity : L.parity < 2)
    (hstride : L.stride / L.group % 2 = 1) (hdvd : L.group ∣ L.stride)
    (hlhss : ∀ lhs, lhs ∈ lhss ↔ lhs / L.group % 2 = L.parity ∧ lhs + L.stride < l.length) :
    view lt x (compareLoop lt L.stride lhss l) = L.act (view lt x l) := by
  obtain ⟨step, hstep⟩ := hdvd
  rw [hstep, Nat.mul_div_cancel_left _ hgroup] at hstride
  -- the parity changes with the stride
  have hadd : ∀ i, (i + L.stride) / L.group % 2 = (i / L.group + 1) % 2 := by
    intro i
    rw [hstep, Nat.add_mul_div_left _ _ hgroup]
    omega
  have hpos : 0 < L.stride := by
    rw [hstep]
    exact Nat.mul_pos hgroup (by omega)
  funext k
  rw [view_compareLoop x (p := fun i => i / L.group % 2 = L.parity) hpos fun lhs hmem => ?_]
  · rw [Layer.act]
    split
    · rename_i hk
      split
      · rfl
      · rename_i hnot
        rw [hlhss, and_iff_right hk, Nat.not_lt] at hnot
        rw [view_of_le x hnot, Bool.and_true]
    · rename_i hk
      by_cases hle : L.stride ≤ k
      · have hlow : (k - L.stride) / L.group % 2 = L.parity := by
          have h := hadd (k - L.stride)
          rw [Nat.sub_add_cancel hle] at h
          omega
        have hmem : k - L.stride ∈ lhss ↔ k < l.length := by
          rw [hlhss, and_iff_right hlow, Nat.sub_add_cancel hle]
        rw [if_pos hle]
        by_cases hlt : k < l.length
        · rw [if_pos ⟨hle, hmem.mpr hlt⟩]
        · rw [if_neg fun h => hlt (hmem.mp h.2), view_of_le x (Nat.not_lt.mp hlt), Bool.or_true]
      · rw [if_neg hle, if_neg fun h => hle h.1]
  · obtain ⟨hlow, hlt⟩ := (hlhss lhs).mp hmem
    refine ⟨hlow, ?_, hlt⟩
    rw [hadd]
    omega

/-! ## 4. The loops of the code -/

omit [IsStrictWeakOrder α fun a b => lt a b = true] in
theorem mem_groupLhs {groupSize lhs : ℕ} (hpos : 0 < groupSize) :
    lhs ∈ groupLhs n groupSize ↔ lhs / groupSize % 2 = 0 ∧ lhs + groupSize < n := by
  have hdouble : ∀ offset i, offset + i * (2 * groupSize) = offset + groupSize * (2 * i) := fun offset i => by
    rw [← Nat.mul_assoc, Nat.mul_comm]
    congr 2
    exact Nat.mul_comm i 2
  rw [groupLhs]
  simp only [List.mem_flatMap, List.mem_range, List.mem_filter, List.mem_map, decide_eq_true_eq, hdouble]
  constructor
  · rintro ⟨offset, hoffset, ⟨i, -, rfl⟩, hlt⟩
    rw [Nat.add_mul_div_left _ _ hpos, Nat.div_eq_of_lt hoffset]
    omega
  · rintro ⟨heven, hlt⟩
    refine ⟨lhs % groupSize, Nat.mod_lt _ hpos, ⟨lhs / groupSize / 2, ?_, ?_⟩, by omega⟩
    · have := Nat.div_le_self lhs groupSize
      omega
    · rw [Nat.mul_div_cancel' (Nat.dvd_of_mod_eq_zero heven), Nat.mod_add_div]

omit [IsStrictWeakOrder α fun a b => lt a b = true] in
theorem mem_stepLhs {groupSize stride lhs : ℕ} :
    lhs ∈ stepLhs n groupSize stride ↔ lhs / groupSize % 2 = 1 ∧ lhs + stride < n := by
  rw [stepLhs, List.mem_filter, List.mem_range, decide_eq_true_eq]
  constructor
  · exact And.right
  · exact fun h => ⟨by omega, h⟩

omit [IsStrictWeakOrder α fun a b => lt a b = true] in
theorem view_foldl (x : α) {ι : Type*} {f : List α → ι → List α} {g : ι → List Layer} :
    ∀ {ks : List ι} {l : List α}, (∀ k ∈ ks, ∀ l', l'.length = l.length → (f l' k).length = l.length ∧
      view lt x (f l' k) = acts (g k) (view lt x l')) →
    view lt x (ks.foldl f l) = acts (ks.flatMap g) (view lt x l)
  | [], l, _ => rfl
  | k :: ks, l, h => by
    obtain ⟨hlen, hview⟩ := h k List.mem_cons_self l rfl
    rw [List.foldl_cons, List.flatMap_cons, acts_append, ← hview]
    refine view_foldl x fun k' hk' l' hl' => ?_
    rw [hlen] at hl' ⊢
    exact h k' (List.mem_cons_of_mem _ hk') l' hl'

theorem view_groups (x : α) (l : List α) (d : ℕ) :
    view lt x ((List.range d).foldl (fun l' e => compareLoop lt (2 ^ e) (groupLhs l.length (2 ^ e)) l') l) =
      acts (firstLayers d) (view lt x l) := by
  rw [firstLayers, List.map_eq_flatMap]
  refine view_foldl x fun e _ l' hl' => ⟨?_, ?_⟩
  · rw [(perm_compareLoop _ _ _).length_eq, hl']
  · have hpos := Nat.two_pow_pos e
    refine view_layerPairs (L := ⟨2 ^ e, 0, 2 ^ e⟩) x hpos Nat.two_pos ?_ dvd_rfl fun lhs => ?_
    · dsimp only
      rw [Nat.div_self hpos]
    · rw [hl']
      exact mem_groupLhs hpos

theorem view_stage (x : α) (l : List α) {d stage : ℕ} (h : stage + 2 ≤ d) :
    view lt x ((List.range (stage + 1)).foldl (fun l' t =>
      compareLoop lt (2 ^ d / 2 ^ (stage + 2) * ((2 ^ (stage + 1) - 1) / 2 ^ t))
        (stepLhs l.length (2 ^ d / 2 ^ (stage + 2)) (2 ^ d / 2 ^ (stage + 2) * ((2 ^ (stage + 1) - 1) / 2 ^ t))) l') l) =
      acts (stageLayers d stage) (view lt x l) := by
  have hpos : 0 < 2 ^ d / 2 ^ (stage + 2) := Nat.div_pos (Nat.pow_le_pow_right Nat.two_pos h) (Nat.two_pow_pos _)
  rw [stageLayers, List.map_eq_flatMap]
  refine view_foldl x fun t ht l' hl' => ⟨?_, ?_⟩
  · rw [(perm_compareLoop _ _ _).length_eq, hl']
  · refine view_layerPairs (L := ⟨2 ^ d / 2 ^ (stage + 2), 1, _⟩) x hpos Nat.one_lt_two ?_ (dvd_mul_right _ _)
      fun lhs => ?_
    · -- a power of two less one is odd
      have hle : t < stage + 1 := List.mem_range.mp ht
      have hpow : 2 ^ (stage + 1 - t) = 2 * 2 ^ (stage - t) := by
        rw [show stage + 1 - t = stage - t + 1 by omega, Nat.pow_succ, Nat.mul_comm]
      have := Nat.two_pow_pos (stage - t)
      dsimp only
      rw [Nat.mul_div_cancel_left _ hpos, two_pow_sub_one_div hle.le, hpow]
      omega
    · rw [hl']
      exact mem_stepLhs

/-- **What is seen of the result** is what the pairwise network makes of what is seen of the items. -/
theorem view_unstablePairwiseSort (x : α) (l : List α) :
    view lt x (unstablePairwiseSort lt l) = acts (pairwiseLayers (Cmath.ceilIlog2 l.length)) (view lt x l) := by
  rw [pairwiseLayers, acts_append, ← view_groups]
  refine view_foldl x fun stage hstage l' hl' => ⟨?_, ?_⟩
  · rw [(perm_foldl (fun l t => perm_compareLoop _ _ l) _ _).length_eq, hl']
  · have := List.mem_range.mp hstage
    have hview := @view_stage _ lt _ x l' _ _ (show stage + 2 ≤ Cmath.ceilIlog2 l.length by omega)
    rw [(perm_foldl (fun l e => perm_compareLoop _ _ l) _ _).length_eq] at hl'
    rw [hl'] at hview
    exact hview

/-! ## 5. The result -/

/-- A list of which every threshold sees first what is below it, and then what is not, is sorted. -/
theorem sorted_of_views (h : ∀ x, ∃ z, view lt x l = trueFrom z) : l.Pairwise fun a b => lt b a = false := by
  rw [List.pairwise_iff_getElem]
  intro i j hi hj hij
  obtain ⟨z, hz⟩ := h l[i]
  have hfirst : view lt l[i] l i = true := by
    rw [view_of_lt _ hi, notAbove_iff]
    exact below_irrefl l[i]
  have hle : z ≤ i := by
    rw [hz] at hfirst
    exact of_decide_eq_true hfirst
  have hsecond : view lt l[i] l j = true := by
    rw [hz]
    exact decide_eq_true (hle.trans hij.le)
  rwa [view_of_lt _ hj, notAbove_iff] at hsecond

theorem sorted_unstablePairwiseSort (l : List α) :
    (unstablePairwiseSort lt l).Pairwise fun a b => lt b a = false := by
  refine sorted_of_views fun x => ?_
  rw [view_unstablePairwiseSort]
  exact acts_pairwiseLayers fun i hi => view_of_le x ((Cmath.le_two_pow_ceilIlog2 l.length).trans hi)

end Order

/-- **The networks of a thread sort**: however many keys there are, and for every strict weak order of them, the pairwise
one gives a sorted permutation of the keys, each with its item, and the odd-even one the stable sort. -/
theorem threadSorts {K V : Type} (lt : K → K → Bool) [IsStrictWeakOrder K fun a b => lt a b = true]
    (items : List (K × V)) :
    ((unstablePairwiseSort (keyBelow lt) items).Perm items ∧
        (unstablePairwiseSort (keyBelow lt) items).Pairwise fun a b : K × V => lt b.1 a.1 = false) ∧
      IsStableSort (keyBelow lt) items (stableOddEvenSort (keyBelow lt) items) :=
  ⟨⟨perm_unstablePairwiseSort (keyBelow lt) items, @sorted_unstablePairwiseSort _ (keyBelow lt) _ items⟩,
    stableOddEvenSort_isStableSort items⟩

/-- Five keys, of which two are equal. -/
theorem threadSorts_five :
    let items := [(3, 'a'), (1, 'b'), (2, 'c'), (1, 'd'), (0, 'e')]
    let below := fun a b : ℕ => decide (a < b)
    ((unstablePairwiseSort (keyBelow below) items).Perm items ∧
        (unstablePairwiseSort (keyBelow below) items).Pairwise fun a b : ℕ × Char => below b.1 a.1 = false) ∧
      IsStableSort (keyBelow below) items (stableOddEvenSort (keyBelow below) items) :=
  threadSorts (fun a b : ℕ => decide (a < b)) _

end Cccl.MergeSort
