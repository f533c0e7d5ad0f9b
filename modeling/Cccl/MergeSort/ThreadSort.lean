/-
# Sorting the items of one thread

`compare_swap` and `stable_odd_even_sort` of `thread_sort.cuh`: as many passes as there are items, which
compare neighbours, in turns from the first and from the second item on.

Equivalent items are never swapped, so that the result is stable.  That it is sorted is seen from how many
items at the end of the list are not below some item `x`.  A pass replaces this number, at every other
place, by the smaller one of the number before the place and of one more than the number behind it
(`suffixCount_pass`).  So a lower bound for it grows with the passes (`PassInv`), and after the last pass
the items that are not below `x` are at the end.
-/
import Cccl.Lib.StableSort

namespace Cccl.MergeSort

open StableSort

variable {α : Type*} (lt : α → α → Bool)

/-! ## 1. The passes -/

/-- `compare_swap`, of keys with their items. -/
def compareSwap (lhs rhs : α) : α × α := if lt rhs lhs then (rhs, lhs) else (lhs, rhs)

/-- The inner loop, from its first pair on. -/
def comparePairs : List α → List α
  | lhs :: rhs :: rest =>
    (compareSwap lt lhs rhs).1 :: (compareSwap lt lhs rhs).2 :: comparePairs rest
  | rest => rest

/-- The inner loop starts at the first or at the second item. -/
def oddEvenPass (i : ℕ) : List α → List α
  | [] => []
  | first :: rest =>
    if i % 2 = 0 then comparePairs lt (first :: rest) else first :: comparePairs lt rest

def stableOddEvenSort (items : List α) : List α :=
  (List.range items.length).foldl (fun items i => oddEvenPass lt i items) items

variable {lt}

@[simp] theorem length_comparePairs : ∀ l : List α, (comparePairs lt l).length = l.length
  | [] => rfl
  | [_] => rfl
  | _ :: _ :: l => by
    rw [comparePairs, List.length_cons, List.length_cons, length_comparePairs l, List.length_cons,
      List.length_cons]

theorem oddEvenPass_cons (i : ℕ) (a : α) (l : List α) : oddEvenPass lt i (a :: l) =
    if i % 2 = 0 then comparePairs lt (a :: l) else a :: comparePairs lt l := rfl

@[simp] theorem length_oddEvenPass (i : ℕ) (l : List α) : (oddEvenPass lt i l).length = l.length := by
  cases l with
  | nil => rfl
  | cons a l =>
    rw [oddEvenPass_cons]
    split
    · exact length_comparePairs _
    · rw [List.length_cons, length_comparePairs, List.length_cons]

/-! ## 2. Stability -/

section Order

variable [IsStrictWeakOrder α fun a b => lt a b = true]

theorem filter_comparePairs (k : α) : ∀ l : List α,
    (comparePairs lt l).filter (equivalent lt k) = l.filter (equivalent lt k)
  | [] => rfl
  | [_] => rfl
  | a :: b :: l => by
    have ih := filter_comparePairs k l
    rw [comparePairs, compareSwap]
    split
    · -- the items are not equivalent, so that at most one of them is in the class
      rename_i hba
      rcases Classical.em (equivalent lt k a = true) with ha | ha
      · have hb : ¬ equivalent lt k b = true := fun hb => by
          have := equivalent_iff.mp (equivalent_trans (equivalent_symm hb) ha)
          rw [this.1] at hba
          exact absurd hba (by simp)
        simp only [List.filter_cons_of_neg hb, List.filter_cons_of_pos ha, ih]
      · simp only [List.filter_cons, ih, ha]
        rfl
    · simp only [List.filter_cons, ih]

theorem filter_oddEvenPass (i : ℕ) (k : α) (l : List α) :
    (oddEvenPass lt i l).filter (equivalent lt k) = l.filter (equivalent lt k) := by
  cases l with
  | nil => rfl
  | cons a l =>
    rw [oddEvenPass_cons]
    split
    · exact filter_comparePairs k _
    · rw [List.filter_cons, filter_comparePairs, List.filter_cons (x := a)]

theorem perm_oddEvenPass (i : ℕ) (l : List α) : (oddEvenPass lt i l).Perm l := by
  classical
  rw [List.perm_iff_count]
  intro a
  have ha : equivalent lt a a = true := equivalent_refl a
  rw [← List.count_filter ha, filter_oddEvenPass, List.count_filter ha]

/-! ## 3. The items at the end -/

/-- How many of the items from some place on are not below `x`. -/
def suffixCount (lt : α → α → Bool) (x : α) (j : ℕ) (l : List α) : ℕ :=
  (l.drop j).countP (notAbove lt x)

omit [IsStrictWeakOrder α fun a b => lt a b = true] in
theorem suffixCount_cons (x a : α) (j : ℕ) (l : List α) :
    suffixCount lt x (j + 1) (a :: l) = suffixCount lt x j l := rfl

omit [IsStrictWeakOrder α fun a b => lt a b = true] in
theorem suffixCount_zero_cons (x a : α) (l : List α) : suffixCount lt x 0 (a :: l) =
    suffixCount lt x 0 l + if notAbove lt x a = true then 1 else 0 := by
  rw [suffixCount, List.drop_zero, List.countP_cons, suffixCount, List.drop_zero]

omit [IsStrictWeakOrder α fun a b => lt a b = true] in
/-- The number before the first pair does not change, nor that behind it. -/
theorem suffixCount_pairs_even (x : α) : ∀ (l : List α) (j : ℕ),
    suffixCount lt x (2 * j) (comparePairs lt l) = suffixCount lt x (2 * j) l
  | [], _ => rfl
  | [_], _ => rfl
  | a :: b :: l, 0 => by
    have ih := suffixCount_pairs_even x l 0
    rw [Nat.mul_zero] at ih
    rw [comparePairs, Nat.mul_zero, suffixCount_zero_cons, suffixCount_zero_cons, ih,
      suffixCount_zero_cons, suffixCount_zero_cons, compareSwap]
    split
    · simp only
      omega
    · rfl
  | a :: b :: l, j + 1 => by
    rw [comparePairs, Nat.mul_add_one, suffixCount_cons, suffixCount_cons, suffixCount_cons,
      suffixCount_cons, suffixCount_pairs_even x l j]

theorem suffixCount_pairs_odd (x : α) : ∀ (l : List α) (j : ℕ), 2 * j + 1 < l.length →
    suffixCount lt x (2 * j + 1) (comparePairs lt l) =
      min (suffixCount lt x (2 * j) l) (suffixCount lt x (2 * j + 2) l + 1)
  | a :: b :: l, 0, _ => by
    have heven : suffixCount lt x (2 * 0) (comparePairs lt l) = suffixCount lt x (2 * 0) l :=
      suffixCount_pairs_even x l 0
    rw [Nat.mul_zero] at heven
    have hlast : (if notAbove lt x (compareSwap lt a b).2 = true then 1 else 0) =
        min ((if notAbove lt x b = true then 1 else 0) + if notAbove lt x a = true then 1 else 0) 1 := by
      unfold compareSwap
      split
      · rename_i hba
        have hup : notAbove lt x b = true → notAbove lt x a = true := by
          rw [notAbove_iff, notAbove_iff]
          exact fun hb => notAbove_trans hb (below_asymm hba)
        simp only
        split <;> split <;> simp_all
      · rename_i hba
        have hup : notAbove lt x a = true → notAbove lt x b = true := by
          rw [notAbove_iff, notAbove_iff]
          exact fun ha => notAbove_trans ha (Bool.eq_false_iff.mpr hba)
        simp only
        split <;> split <;> simp_all
    rw [comparePairs, Nat.mul_zero, Nat.zero_add, suffixCount_cons, suffixCount_zero_cons, heven,
      hlast, suffixCount_zero_cons, suffixCount_zero_cons, suffixCount_cons, suffixCount_cons]
    omega
  | a :: b :: l, j + 1, h => by
    have ih := suffixCount_pairs_odd x l j (by simp only [List.length_cons] at h; omega)
    rw [comparePairs, Nat.mul_add_one]
    exact ih

/-- **The numbers after a pass.** -/
theorem suffixCount_pass (x : α) (i : ℕ) (l : List α) {j : ℕ} (hpos : 0 < j) (hj : j < l.length) :
    suffixCount lt x j (oddEvenPass lt i l) = if j % 2 = i % 2 then suffixCount lt x j l
      else min (suffixCount lt x (j - 1) l) (suffixCount lt x (j + 1) l + 1) := by
  cases l with
  | nil => exact absurd hj (Nat.not_lt_zero j)
  | cons a l =>
    obtain ⟨j, rfl⟩ : ∃ j', j = j' + 1 := ⟨j - 1, by omega⟩
    have hlen : j < l.length := by simpa using hj
    rw [oddEvenPass_cons]
    split
    · rename_i hi
      split
      · obtain ⟨q, hq⟩ : ∃ q, j + 1 = 2 * q := ⟨(j + 1) / 2, by omega⟩
        rw [hq, suffixCount_pairs_even]
      · obtain ⟨q, rfl⟩ : ∃ q, j = 2 * q := ⟨j / 2, by omega⟩
        rw [suffixCount_pairs_odd x _ q hj, Nat.add_sub_cancel]
    · rename_i hi
      rw [suffixCount_cons]
      split
      · obtain ⟨q, rfl⟩ : ∃ q, j = 2 * q := ⟨j / 2, by omega⟩
        rw [suffixCount_pairs_even, suffixCount_cons]
      · obtain ⟨q, rfl⟩ : ∃ q, j = 2 * q + 1 := ⟨j / 2, by omega⟩
        rw [suffixCount_pairs_odd x _ q hlen, Nat.add_sub_cancel, suffixCount_cons, suffixCount_cons]

/-! ## 4. All passes -/

omit [IsStrictWeakOrder α fun a b => lt a b = true] in
theorem suffixCount_succ (lt : α → α → Bool) (x : α) {j : ℕ} {l : List α} (hj : j < l.length) : suffixCount lt x j l =
    suffixCount lt x (j + 1) l + if notAbove lt x l[j] = true then 1 else 0 := by
  rw [suffixCount, List.drop_eq_getElem_cons hj, List.countP_cons, suffixCount]

omit [IsStrictWeakOrder α fun a b => lt a b = true] in
theorem suffixCount_le (lt : α → α → Bool) (x : α) (j : ℕ) (l : List α) : suffixCount lt x j l ≤ l.length - j := by
  rw [suffixCount, ← List.length_drop]
  exact List.countP_le_length

omit [IsStrictWeakOrder α fun a b => lt a b = true] in
theorem suffixCount_anti (lt : α → α → Bool) (x : α) (l : List α) {j k : ℕ} (h : j ≤ k) :
    suffixCount lt x k l ≤ suffixCount lt x j l := by
  obtain ⟨d, rfl⟩ := Nat.exists_eq_add_of_le h
  rw [suffixCount, ← List.drop_drop]
  exact (List.drop_sublist d _).countP_le

omit [IsStrictWeakOrder α fun a b => lt a b = true] in
theorem suffixCount_zero_le (lt : α → α → Bool) (x : α) (l : List α) (j : ℕ) :
    suffixCount lt x 0 l ≤ suffixCount lt x j l + j := by
  have hsplit := List.take_append_drop j l
  have htake : (l.take j).countP (notAbove lt x) ≤ j :=
    Nat.le_trans List.countP_le_length (List.length_take_le j l)
  rw [suffixCount, List.drop_zero]
  nth_rewrite 1 [← hsplit]
  rw [List.countP_append, suffixCount]
  omega

/-- After `t` passes, of `m` items that are not below `x`, enough are at the end.  The bound is better
where the last pass has compared. -/
def PassInv (lt : α → α → Bool) (x : α) (m t : ℕ) (l : List α) : Prop :=
  suffixCount lt x 0 l = m ∧ ∀ j ≤ l.length, m ≤ suffixCount lt x j l ∨
    l.length ≤ suffixCount lt x j l + j ∨
    t + m ≤ 2 * suffixCount lt x j l + j + (j + t) % 2

omit [IsStrictWeakOrder α fun a b => lt a b = true] in
theorem passInv_init (lt : α → α → Bool) (x : α) (l : List α) : PassInv lt x (suffixCount lt x 0 l) 0 l := by
  refine ⟨rfl, fun j _ => Or.inr (Or.inr ?_)⟩
  have := suffixCount_zero_le lt x l j
  omega

/-- **One pass.** -/
theorem PassInv.pass {x : α} {m t : ℕ} {l : List α} (h : PassInv lt x m t l) :
    PassInv lt x m (t + 1) (oddEvenPass lt t l) := by
  obtain ⟨htotal, hbound⟩ := h
  have hzero : suffixCount lt x 0 (oddEvenPass lt t l) = m := by
    rw [← htotal, suffixCount, suffixCount, List.drop_zero, List.drop_zero, List.countP_eq_length_filter,
      List.countP_eq_length_filter]
    exact ((perm_oddEvenPass t l).filter _).length_eq
  refine ⟨hzero, fun j hj => ?_⟩
  rw [length_oddEvenPass] at hj ⊢
  rcases Nat.eq_zero_or_pos j with rfl | hpos
  · rw [hzero]
    exact Or.inl (Nat.le_refl m)
  rcases Nat.eq_or_lt_of_le hj with rfl | hlt
  · exact Or.inr (Or.inl (Nat.le_add_left _ _))
  rw [suffixCount_pass x t l hpos hlt]
  split
  · have := hbound j hj
    omega
  · have hbefore := hbound (j - 1) (by omega)
    have hbehind := hbound (j + 1) (by omega)
    omega

theorem passInv_foldl (x : α) {m : ℕ} (n : ℕ) {l : List α} (h : PassInv lt x m 0 l) :
    PassInv lt x m n ((List.range n).foldl (fun l i => oddEvenPass lt i l) l) := by
  induction n with
  | zero => exact h
  | succ n ih =>
    rw [List.range_succ, List.foldl_append]
    exact ih.pass

omit [IsStrictWeakOrder α fun a b => lt a b = true] in
theorem length_foldl_pass (n : ℕ) (l : List α) :
    ((List.range n).foldl (fun l i => oddEvenPass lt i l) l).length = l.length := by
  induction n with
  | zero => rfl
  | succ n ih =>
    rw [List.range_succ, List.foldl_append]
    exact (length_oddEvenPass n _).trans ih

theorem filter_foldl_pass (k : α) (n : ℕ) (l : List α) :
    ((List.range n).foldl (fun l i => oddEvenPass lt i l) l).filter (equivalent lt k) =
      l.filter (equivalent lt k) := by
  induction n with
  | zero => rfl
  | succ n ih =>
    rw [List.range_succ, List.foldl_append]
    exact (filter_oddEvenPass n k _).trans ih

omit [IsStrictWeakOrder α fun a b => lt a b = true] in
@[simp] theorem length_stableOddEvenSort (l : List α) :
    (stableOddEvenSort lt l).length = l.length := length_foldl_pass _ l

omit [IsStrictWeakOrder α fun a b => lt a b = true] in
/-- After as many passes as there are items, what is not below `x` is at the end. -/
theorem PassInv.upward {x : α} {m : ℕ} {l : List α} (h : PassInv lt x m l.length l) {i j : ℕ}
    (hi : i < l.length) (hj : j < l.length) (hlt : i + 1 ≤ j) (hx : notAbove lt x l[i] = true) :
    notAbove lt x l[j] = true := by
  obtain ⟨htotal, hbound⟩ := h
  refine Classical.byContradiction fun hnot => ?_
  have hi' := suffixCount_succ lt x hi
  have hj' := suffixCount_succ lt x hj
  rw [if_pos hx] at hi'
  rw [if_neg hnot] at hj'
  have hle := suffixCount_le lt x (j + 1) l
  have hanti := suffixCount_anti lt x l hlt
  have hfirst := suffixCount_anti lt x l (Nat.zero_le i)
  have := hbound j (Nat.le_of_lt hj)
  omega

/-- **`stable_odd_even_sort` is a stable sort.** -/
theorem stableOddEvenSort_isStableSort (l : List α) :
    IsStableSort lt l (stableOddEvenSort lt l) := by
  refine ⟨?_, fun k => filter_foldl_pass k l.length l⟩
  rw [List.pairwise_iff_getElem]
  intro i j hi hj hlt
  obtain ⟨m, hinv⟩ : ∃ m, PassInv lt (stableOddEvenSort lt l)[i] m
      (stableOddEvenSort lt l).length (stableOddEvenSort lt l) := by
    rw [length_stableOddEvenSort]
    exact ⟨_, passInv_foldl _ l.length (passInv_init lt _ l)⟩
  refine notAbove_iff.mp (hinv.upward hi hj hlt ?_)
  exact notAbove_iff.mpr (below_irrefl _)

end Order

end Cccl.MergeSort
