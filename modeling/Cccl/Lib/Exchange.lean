/-
# Writing through an exchange memory

Items are stored at places of a memory that was not set before (`store`), and are then taken out again by
threads that go over the places with a stride, each from its own number on (`strided`).  Together the threads
visit each place once (`strided_perm`).  If the items are stored at the places `0, ..., n - 1`, one in each,
then all are taken out, each from its place (`exchange_perm`).

Items that are selected are numbered by how many are selected before them (`map_countP_filter`).  They can be
written to these numbers, counted from some start, directly or through the exchange memory
(`compact_perm`).
-/
import Mathlib.Data.List.Nodup
import Mathlib.Data.List.Range
import Mathlib.Algebra.Ring.Nat

namespace Cccl.Exchange

variable {α : Type*}

/-! ## 1. The exchange memory -/

/-- A memory after some stores, where nothing was before. -/
def store : List (ℕ × α) → ℕ → Option α
  | [], _ => none
  | w :: ws, i => (store ws i).or (if w.1 = i then some w.2 else none)

attribute [local simp] store in
theorem store_eq_none {i : ℕ} : ∀ {ws : List (ℕ × α)}, i ∉ ws.map Prod.fst → store ws i = none
  | [], _ => rfl
  | w :: ws, h => by
    rw [List.map_cons, List.mem_cons, not_or] at h
    rw [store, store_eq_none h.2, if_neg fun heq => h.1 heq.symm]
    rfl

theorem store_of_mem : ∀ {ws : List (ℕ × α)}, (ws.map Prod.fst).Nodup → ∀ w ∈ ws,
    store ws w.1 = some w.2
  | w₀ :: ws, hnodup, w, hw => by
    obtain ⟨hnotMem, hnodup⟩ := List.nodup_cons.mp hnodup
    rw [store]
    rcases List.mem_cons.mp hw with rfl | hw
    · rw [store_eq_none hnotMem, if_pos rfl]
      rfl
    · rw [store_of_mem hnodup w hw]
      rfl

theorem store_of_unique : ∀ {ws : List (ℕ × α)} {w : ℕ × α}, w ∈ ws →
    (∀ w' ∈ ws, w'.1 = w.1 → w'.2 = w.2) → store ws w.1 = some w.2
  | w₀ :: ws, w, hw, hunique => by
    rw [store]
    by_cases hmem : w.1 ∈ ws.map Prod.fst
    · obtain ⟨w', hw', hplace⟩ := List.mem_map.mp hmem
      have hrest := store_of_unique hw' fun v hv heq =>
        (hunique v (List.mem_cons_of_mem _ hv) (heq.trans hplace)).trans
          (hunique w' (List.mem_cons_of_mem _ hw') hplace).symm
      rw [← hplace, hrest, hunique w' (List.mem_cons_of_mem _ hw') hplace]
      rfl
    · rw [store_eq_none hmem]
      rcases List.mem_cons.mp hw with rfl | hw
      · rw [if_pos rfl]
        rfl
      · exact absurd (List.mem_map_of_mem hw) hmem

/-- The places that one thread visits: `for (i = tid; i < n; i += threads)`. -/
def strideFrom (threads n tid : ℕ) : List ℕ :=
  List.range' tid ((n - tid + (threads - 1)) / threads) threads

/-- The places that all threads visit. -/
def strided (threads n : ℕ) : List ℕ := (List.range threads).flatMap (strideFrom threads n)

theorem mem_strideFrom {threads n tid i : ℕ} (htid : tid < threads) :
    i ∈ strideFrom threads n tid ↔ i < n ∧ i % threads = tid := by
  have hpos : 0 < threads := Nat.zero_lt_of_lt htid
  rw [strideFrom, List.mem_range']
  constructor
  · rintro ⟨k, hk, rfl⟩
    have hle := Nat.mul_le_mul_left threads (Nat.succ_le_of_lt hk)
    have hmul := Nat.mul_div_le (n - tid + (threads - 1)) threads
    rw [Nat.mul_succ] at hle
    refine ⟨by omega, ?_⟩
    rw [Nat.add_mul_mod_self_left, Nat.mod_eq_of_lt htid]
  · rintro ⟨hlt, hmod⟩
    have hdiv := Nat.mod_add_div i threads
    refine ⟨i / threads, ?_, by omega⟩
    rw [Nat.lt_iff_add_one_le, Nat.le_div_iff_mul_le hpos, Nat.add_one_mul, Nat.mul_comm]
    omega

theorem strided_nodup (threads n : ℕ) : (strided threads n).Nodup := by
  refine List.nodup_flatMap.mpr ⟨fun tid htid => ?_, ?_⟩
  · have hpos : 0 < threads := Nat.zero_lt_of_lt (List.mem_range.mp htid)
    exact List.nodup_range' threads hpos
  · refine List.pairwise_iff_getElem.mpr fun t t' ht ht' hlt => ?_
    rw [List.length_range] at ht ht'
    rw [List.getElem_range, List.getElem_range]
    intro i hi hi'
    have := ((mem_strideFrom ht).mp hi).2
    have := ((mem_strideFrom ht').mp hi').2
    omega

/-- **All threads together visit each place once.** -/
theorem strided_perm {threads : ℕ} (hpos : 0 < threads) (n : ℕ) :
    (strided threads n).Perm (List.range n) := by
  refine (List.perm_ext_iff_of_nodup (strided_nodup threads n) List.nodup_range).mpr fun i => ?_
  rw [strided, List.mem_flatMap, List.mem_range]
  constructor
  · rintro ⟨tid, htid, hi⟩
    exact ((mem_strideFrom (List.mem_range.mp htid)).mp hi).1
  · intro hlt
    have hmod := Nat.mod_lt i hpos
    exact ⟨i % threads, List.mem_range.mpr hmod, (mem_strideFrom hmod).mpr ⟨hlt, rfl⟩⟩

/-- **What is stored at the places `0, ..., n - 1` is taken out**, each item from its place. -/
theorem exchange_perm {threads n : ℕ} (hpos : 0 < threads) {ws : List (ℕ × α)}
    (hws : ws.map Prod.fst = List.range n) :
    ((strided threads n).map fun i => (i, store ws i)).Perm (ws.map fun w => (w.1, some w.2)) := by
  have hnodup : (ws.map Prod.fst).Nodup := hws ▸ List.nodup_range
  have hread : ws.map (fun w => (w.1, some w.2)) = (List.range n).map fun i => (i, store ws i) := by
    rw [← hws, List.map_map]
    refine List.map_congr_left fun w hw => ?_
    simp only [Function.comp_apply, store_of_mem hnodup w hw]
  rw [hread]
  exact (strided_perm hpos n).map _

/-! ## 2. Selected items -/

/-- **The numbers of selected items are consecutive.** -/
theorem map_countP_filter (p : ℕ → Bool) (c : ℕ) : ∀ n,
    ((List.range n).filter p).map (fun i => c + (List.range i).countP p) =
      List.range' c ((List.range n).countP p)
  | 0 => rfl
  | n + 1 => by
    rw [List.range_succ, List.filter_append, List.map_append, map_countP_filter p c n,
      List.countP_append]
    cases hp : p n with
    | true => simp [hp, List.range'_concat]
    | false => simp [hp]

theorem countP_range_lt {p : ℕ → Bool} {i n : ℕ} (hi : i < n) (hp : p i = true) :
    (List.range i).countP p < (List.range n).countP p := by
  obtain ⟨k, rfl⟩ := Nat.exists_eq_add_of_lt hi
  rw [Nat.add_assoc, List.range_eq_range', List.range_eq_range', ← List.range'_append_1, List.countP_append,
    Nat.zero_add, Nat.add_comm k 1, Nat.add_comm 1 k, List.range'_succ, List.countP_cons_of_pos hp]
  omega

theorem flatMap_filter {β : Type*} (p : ℕ → Bool) (f : ℕ → List β) : ∀ l : List ℕ,
    (l.filter p).flatMap f = l.flatMap fun i => if p i then f i else []
  | [] => rfl
  | i :: l => by
    cases h : p i <;> simp [h, flatMap_filter p f l]

theorem filter_range_lt {m n : ℕ} (h : m ≤ n) :
    (List.range n).filter (fun i => decide (i < m)) = List.range m := by
  obtain ⟨k, rfl⟩ := Nat.exists_eq_add_of_le h
  rw [List.range_add, List.filter_append, List.filter_eq_self.mpr fun i hi => ?_,
    List.filter_eq_nil_iff.mpr fun i hi => ?_, List.append_nil]
  · obtain ⟨j, -, rfl⟩ := List.mem_map.mp hi
    rw [decide_eq_true_eq]
    omega
  · exact decide_eq_true (List.mem_range.mp hi)

/-- **The second phase writes what the selected items would write**: the selected items are found at the first
places, in their order. -/
theorem flatMap_places {β : Type*} (p : ℕ → Bool) (n : ℕ) (f : ℕ → List β) :
    ((List.range n).flatMap fun place => if place < (List.range n).countP p then f place else []) =
      (List.range n).flatMap fun i => if p i then f ((List.range i).countP p) else [] := by
  have hle : (List.range n).countP p ≤ n :=
    List.countP_le_length.trans (Nat.le_of_eq List.length_range)
  have hnumbers := map_countP_filter p 0 n
  simp only [Nat.zero_add, ← List.range_eq_range'] at hnumbers
  have hplaces := flatMap_filter (fun place => decide (place < (List.range n).countP p)) f (List.range n)
  rw [filter_range_lt hle] at hplaces
  simp only [decide_eq_true_eq] at hplaces
  rw [← hplaces, ← hnumbers, List.flatMap_map, flatMap_filter]

/-- **Items with consecutive numbers are written to them through the exchange memory.** -/
theorem compact_perm {β : Type*} {threads start n : ℕ} (hpos : 0 < threads) {items : List β}
    {index : β → ℕ} (item : β → α) (h : items.map index = List.range' start n) :
    ((strided threads n).map fun i =>
        (start + i, store (items.map fun b => (index b - start, item b)) i)).Perm
      (items.map fun b => (index b, some (item b))) := by
  have hplaces : (items.map fun b => (index b - start, item b)).map Prod.fst = List.range n := by
    have hshift : (List.range' start n).map (fun i => i - start) = List.range n := by
      rw [List.range_eq_range']
      simp only [List.map_sub_range', Nat.le_refl, Nat.sub_self]
    rw [List.map_map, ← hshift, ← h, List.map_map]
    rfl
  have hwrites : items.map (fun b => (index b, some (item b))) =
      ((items.map fun b => (index b - start, item b)).map fun w => (w.1, some w.2)).map
        fun w => (start + w.1, w.2) := by
    rw [List.map_map, List.map_map]
    refine List.map_congr_left fun b hb => ?_
    have hle : start ≤ index b := by
      have hmem : index b ∈ List.range' start n := h ▸ List.mem_map_of_mem hb
      exact (List.mem_range'_1.mp hmem).1
    simp only [Function.comp_apply, Nat.add_sub_cancel' hle]
  rw [hwrites]
  have hperm := (exchange_perm hpos hplaces).map fun w : ℕ × Option α => (start + w.1, w.2)
  rw [List.map_map] at hperm
  exact hperm

theorem flatMap_range_mul {β : Type*} (f : ℕ → List β) (b : ℕ) : ∀ n,
    (List.range (n * b)).flatMap f =
      (List.range n).flatMap fun k => (List.range b).flatMap fun i => f (k * b + i)
  | 0 => by rw [Nat.zero_mul]; rfl
  | n + 1 => by
    rw [Nat.succ_mul, List.range_add, List.flatMap_append, flatMap_range_mul f b n, List.range_succ,
      List.flatMap_append, List.flatMap_singleton, List.flatMap_map]

end Cccl.Exchange
