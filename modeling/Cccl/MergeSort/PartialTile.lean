/-
# The partial sort of a tile

A thread that has some valid items pads the others with a bound of its valid keys, so that its sort leaves
the padding behind these (`sortPartialThread_spec`).  What the default is does not matter: it can only make
the bound larger.  The items of a thread are then a sorted run, and the rounds merge the runs
(`sortPartialTile_isStableSort`).
-/
import Cccl.MergeSort.BlockSorted

namespace Cccl.MergeSort

open Chunks StableSort

variable {α K V : Type}

namespace BlockMergeSortStrategy

variable {B : BlockMergeSortStrategy}

section Order

variable {lt : K → K → Bool} [IsStrictWeakOrder K fun a b => lt a b = true]

/-! ## 1. Padding -/

omit [IsStrictWeakOrder K fun a b => lt a b = true] in
theorem padItems_of_le {validItems : ℕ} (maxKey : K) : ∀ (l : List (K × V)) {i : ℕ}, validItems ≤ i →
    padItems lt validItems i maxKey l = l.map fun a => (maxKey, a.2)
  | [], _, _ => rfl
  | (key, item) :: l, i, h => by
    rw [padItems, if_neg (by omega), padItems_of_le maxKey l (h.trans (Nat.le_succ i)), List.map_cons]

/-- **The padding:** valid items stay, and the key of the others is below no valid one. -/
theorem padItems_spec (validItems : ℕ) : ∀ (l : List (K × V)) (i : ℕ) (maxKey : K),
    ∃ bound pads, padItems lt validItems i maxKey l = l.take (validItems - i) ++ pads ∧
      (∀ a ∈ pads, a.1 = bound) ∧ lt bound maxKey = false ∧
      (∀ a ∈ l.take (validItems - i), lt bound a.1 = false) ∧
      pads.length = l.length - (validItems - i)
  | [], i, maxKey => ⟨maxKey, [], by rw [padItems, List.take_nil, List.append_nil], by simp,
      below_irrefl maxKey, by simp, by simp⟩
  | (key, item) :: l, i, maxKey => by
    rcases Nat.lt_or_ge i validItems with hlt | hge
    · have hsub : validItems - i = validItems - (i + 1) + 1 := by omega
      obtain ⟨bound, pads, heq, hpads, hmax, hvalid, hlen⟩ :=
        padItems_spec validItems l (i + 1) (if lt maxKey key then key else maxKey)
      have hboth : lt bound maxKey = false ∧ lt bound key = false := by
        split at hmax
        · rename_i hbelow
          exact ⟨notAbove_trans (below_asymm hbelow) hmax, hmax⟩
        · rename_i hbelow
          exact ⟨hmax, notAbove_trans (Bool.eq_false_iff.mpr hbelow) hmax⟩
      refine ⟨bound, pads, ?_, hpads, hboth.1, ?_, ?_⟩
      · rw [padItems, if_pos hlt, heq, hsub, List.take_succ_cons, List.cons_append]
      · intro a ha
        rw [hsub, List.take_succ_cons] at ha
        rcases List.mem_cons.mp ha with rfl | ha
        · exact hboth.2
        · exact hvalid a ha
      · rw [List.length_cons]
        omega
    · have hsub : validItems - i = 0 := by omega
      refine ⟨maxKey, ((key, item) :: l).map fun a => (maxKey, a.2), ?_, ?_, below_irrefl maxKey, ?_, ?_⟩
      · rw [padItems_of_le maxKey _ hge, hsub, List.take_zero, List.nil_append]
      · intro a ha
        obtain ⟨a', -, rfl⟩ := List.mem_map.mp ha
        rfl
      · rw [hsub, List.take_zero]
        simp
      · rw [List.length_map, hsub, Nat.sub_zero]

/-- Elements with one key that is below no other one are left at the end. -/
theorem stableOddEvenSort_append {l pads : List (K × V)} {bound : K} (hpads : ∀ a ∈ pads, a.1 = bound)
    (hl : ∀ a ∈ l, lt bound a.1 = false) :
    stableOddEvenSort (keyBelow lt) (l ++ pads) = stableOddEvenSort (keyBelow lt) l ++ pads := by
  have hsort : IsStableSort (keyBelow lt) l (stableOddEvenSort (keyBelow lt) l) :=
    stableOddEvenSort_isStableSort l
  refine (stableOddEvenSort_isStableSort (l ++ pads)).unique ⟨?_, fun k => ?_⟩
  · rw [List.pairwise_append]
    refine ⟨hsort.sorted, ?_, fun a ha b hb => ?_⟩
    · refine List.pairwise_of_forall_mem_list fun a ha b hb => ?_
      rw [keyBelow, hpads a ha, hpads b hb]
      exact below_irrefl bound
    · rw [keyBelow, hpads b hb]
      exact hl a (hsort.mem_iff.mp ha)
  · rw [List.filter_append, List.filter_append, hsort.stable k]

theorem sortPartialThread_cons (B : BlockMergeSortStrategy) (lt : K → K → Bool)
    [IsStrictWeakOrder K fun a b => lt a b = true] (oobDefault : Option K) {validItems tid : ℕ} (key : K) (item : V)
    (rest : List (K × V)) (hvalid : B.itemsPerThread * tid < validItems) :
    ∃ maxKey, lt maxKey key = false ∧
      B.sortPartialThread lt oobDefault validItems tid ((key, item) :: rest) =
        stableOddEvenSort (keyBelow lt) ((key, item) ::
          padItems lt validItems (B.itemsPerThread * tid + 1) maxKey rest) := by
  cases oobDefault with
  | none => exact ⟨key, below_irrefl key, if_pos hvalid⟩
  | some oob =>
    refine ⟨if lt key oob then oob else key, ?_, if_pos hvalid⟩
    split
    · exact below_asymm ‹_›
    · exact below_irrefl key

/-- **A thread sorts its valid items,** whatever the default is. -/
theorem sortPartialThread_spec (oobDefault : Option K) (validItems tid : ℕ) (regs : List (K × V)) :
    (B.sortPartialThread lt oobDefault validItems tid regs).length = regs.length ∧
      IsStableSort (keyBelow lt) (regs.take (validItems - B.itemsPerThread * tid))
        ((B.sortPartialThread lt oobDefault validItems tid regs).take
          (validItems - B.itemsPerThread * tid)) := by
  cases regs with
  | nil =>
    rw [sortPartialThread, List.take_nil]
    exact ⟨rfl, .nil⟩
  | cons first rest =>
    obtain ⟨key, item⟩ := first
    rcases Nat.lt_or_ge (B.itemsPerThread * tid) validItems with hlt | hge
    · have hsub : validItems - B.itemsPerThread * tid =
          validItems - (B.itemsPerThread * tid + 1) + 1 := by omega
      obtain ⟨maxKey, hkey, hthread⟩ :=
        sortPartialThread_cons B lt oobDefault key item rest hlt
      obtain ⟨bound, pads, heq, hpads, hmax, hvalid, hlen⟩ := @padItems_spec K V lt _
        validItems rest (B.itemsPerThread * tid + 1) maxKey
      have hitems : ∀ a ∈ (key, item) :: rest.take (validItems - (B.itemsPerThread * tid + 1)),
          lt bound a.1 = false := by
        intro a ha
        rcases List.mem_cons.mp ha with rfl | ha
        · exact notAbove_trans hkey hmax
        · exact hvalid a ha
      rw [hthread, heq, ← List.cons_append, stableOddEvenSort_append hpads hitems]
      refine ⟨?_, ?_⟩
      · rw [List.length_append, length_stableOddEvenSort, List.length_cons, List.length_cons,
          List.length_take, hlen]
        omega
      · have hsort : IsStableSort (keyBelow lt) _ _ := stableOddEvenSort_isStableSort
          ((key, item) :: rest.take (validItems - (B.itemsPerThread * tid + 1)))
        rw [hsub, List.take_succ_cons]
        convert hsort using 1
        rcases Nat.lt_or_ge rest.length (validItems - (B.itemsPerThread * tid + 1)) with hshort | hlong
        · obtain rfl : pads = [] := List.length_eq_zero_iff.mp (by omega)
          rw [List.append_nil, List.take_of_length_le]
          rw [length_stableOddEvenSort, List.length_cons, List.length_take]
          omega
        · refine List.take_left' ?_
          rw [length_stableOddEvenSort, List.length_cons, List.length_take, Nat.min_eq_left hlong]
    · have hsub : validItems - B.itemsPerThread * tid = 0 := by omega
      rw [sortPartialThread.eq_def]
      dsimp only
      rw [if_neg (by omega), hsub]
      exact ⟨rfl, .nil⟩

/-! ## 2. The tile -/

omit [IsStrictWeakOrder K fun a b => lt a b = true] in
theorem chunk_flatten {validItems : ℕ} {tile : List (List α)} (h : B.Shaped tile) (g : ℕ) :
    chunk B.itemsPerThread g (tile.flatten.take validItems) =
      (tile[g]?.getD []).take (validItems - B.itemsPerThread * g) := by
  refine List.ext_getElem? fun i => ?_
  have hn := B.itemsPerThread_pos
  have hlen : (tile[g]?.getD []).length ≤ B.itemsPerThread := by
    cases hg : tile[g]? with
    | none => exact Nat.zero_le _
    | some regs => exact (h.items regs (List.mem_of_getElem? hg)).le
  rw [getElem?_chunk, List.getElem?_take, List.getElem?_take]
  rcases Nat.lt_or_ge i B.itemsPerThread with hlt | hge
  · rw [if_pos hlt, getElem?_flatten hn _ h.items, Nat.mul_add_div hn, Nat.div_eq_of_lt hlt,
      Nat.mul_add_mod, Nat.mod_eq_of_lt hlt, Nat.add_zero]
    have hvalid : B.itemsPerThread * g + i < validItems ↔ i < validItems - B.itemsPerThread * g := by
      omega
    rw [if_congr hvalid rfl rfl]
    cases tile[g]? with
    | none => rfl
    | some regs => rfl
  · rw [if_neg (by omega), List.getElem?_eq_none (l := tile[g]?.getD []) (by omega), ite_self]

/-- **The partial sort of a tile.**  Whatever the default is, the valid positions have a stable sort of
the valid items; and there is a result, so that shared memory is accessed within its size. -/
theorem sortPartialTile_isStableSort (B : BlockMergeSortStrategy) (lt : K → K → Bool)
    [IsStrictWeakOrder K fun a b => lt a b = true] (oobDefault : Option K) (validItems : ℕ)
    (tile : Tile K V) (hshaped : B.Shaped tile) (hvalid : validItems ≤ B.itemsPerTile) :
    ∃ tile', B.sortPartialTile lt oobDefault validItems tile = some tile' ∧ B.Shaped tile' ∧
      IsStableSort (keyBelow lt) (tile.flatten.take validItems) (tile'.flatten.take validItems) := by
  obtain ⟨tile0, htile0, hlen0, hregs0⟩ := forThreads_spec (l := tile)
    (f := fun tid items => some (B.sortPartialThread lt oobDefault validItems tid items))
    (X := fun tid regs => ∃ items, tile[tid]? = some items ∧
      regs = B.sortPartialThread lt oobDefault validItems tid items)
    fun tid items hitems => ⟨_, rfl, items, hitems, rfl⟩
  have hshaped0 : B.Shaped tile0 := by
    refine ⟨hlen0.trans hshaped.threads, fun regs hregs => ?_⟩
    obtain ⟨tid, htid⟩ := List.mem_iff_getElem?.mp hregs
    obtain ⟨items, hitems, rfl⟩ := hregs0 tid regs htid
    rw [(sortPartialThread_spec oobDefault validItems tid items).1]
    exact hshaped.items items (List.mem_of_getElem? hitems)
  have hruns : B.RunsSorted lt validItems tile.flatten (B.itemsPerThread * 2 ^ 0) tile0 := by
    refine ⟨hshaped0, fun g => ?_⟩
    rw [Nat.pow_zero, Nat.mul_one, chunk_flatten hshaped, chunk_flatten hshaped0]
    cases hg : tile0[g]? with
    | none =>
      have hnone : tile[g]? = none := by
        rw [List.getElem?_eq_none_iff] at hg ⊢
        omega
      rw [hnone, Option.getD_none, List.take_nil]
      exact .nil
    | some regs =>
      obtain ⟨items, hitems, rfl⟩ := hregs0 g regs hg
      rw [hitems, Option.getD_some, Option.getD_some]
      exact (sortPartialThread_spec oobDefault validItems g items).2
  have hone : 2 ^ 0 ≤ B.numThreads := numThreads_pos
  have hfuel : B.numThreads < 2 ^ (0 + B.numThreads) := by
    rw [Nat.zero_add]
    exact Nat.lt_two_pow_self
  obtain ⟨tile', htile', hresult⟩ := RunsSorted.rounds hvalid B.numThreads 0 hruns hone hfuel
  refine ⟨tile', ?_, hresult⟩
  simp only [sortPartialTile, htile0, Option.bind_eq_bind, Option.bind_some]
  exact htile'

/-- A partial tile of two threads.  The default is below most keys. -/
theorem sortPartialTile_isStableSort_two : ∃ tile',
    sortPartialTile ⟨2, 2, ⟨1, rfl⟩, by decide⟩ (fun a b => decide (a < b)) (some 1) 3
      [[(5, 0), (2, 1)], [(4, 2), (0, 3)]] = some tile' ∧
    Shaped ⟨2, 2, ⟨1, rfl⟩, by decide⟩ tile' ∧
    IsStableSort (keyBelow fun a b : ℕ => decide (a < b)) [(5, 0), (2, 1), (4, 2)]
      (tile'.flatten.take 3) :=
  sortPartialTile_isStableSort ⟨2, 2, ⟨1, rfl⟩, by decide⟩ _ (some 1) 3
    [[(5, 0), (2, 1)], [(4, 2), (0, 3)]] ⟨rfl, by decide⟩ (by decide)

end Order

end BlockMergeSortStrategy

end Cccl.MergeSort
