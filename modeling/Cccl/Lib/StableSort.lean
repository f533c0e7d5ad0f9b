/-
# Stable sorting by a strict weak order

Two elements are equivalent if none is below the other one.  A list is a stable sort of another one if
no element is below an earlier one, and the elements of each class are those of the other list, in the
order in which they are there (`IsStableSort`).  There is only one such list (`IsStableSort.unique`).

Runs are merged by taking the head of the second one if it is below that of the first one.  Merged stable
sorts of two lists are a stable sort of the lists one after the other (`IsStableSort.merge`).  A merge can
be cut into pieces: if no element of the first pieces belongs behind one of the second pieces, then each
pair of pieces can be merged by itself (`merge_append`).
-/
import Mathlib.Data.List.Basic
import Mathlib.Order.Lattice

namespace Cccl.StableSort

variable {α : Type*} {lt : α → α → Bool}

/-! ## 1. Strict weak orders -/

/-- The second element is not below the first one. -/
def notAbove (lt : α → α → Bool) (a b : α) : Bool := !lt b a

/-- None is below the other one. -/
def equivalent (lt : α → α → Bool) (a b : α) : Bool := !lt a b && !lt b a

theorem notAbove_iff {a b : α} : notAbove lt a b = true ↔ lt b a = false := by
  rw [notAbove, Bool.not_eq_true']

theorem equivalent_iff {a b : α} : equivalent lt a b = true ↔ lt a b = false ∧ lt b a = false := by
  rw [equivalent, Bool.and_eq_true, Bool.not_eq_true', Bool.not_eq_true']

instance isStrictWeakOrder_lt [LinearOrder α] [DecidableLT α] :
    IsStrictWeakOrder α fun a b => decide (a < b) = true where
  irrefl a h := lt_irrefl a (of_decide_eq_true h)
  trans _ _ _ hab hbc := decide_eq_true (lt_trans (of_decide_eq_true hab) (of_decide_eq_true hbc))
  incomp_trans a b c hab hbc := by
    simp only [decide_eq_true_eq, not_lt] at hab hbc ⊢
    exact ⟨le_trans hbc.1 hab.1, le_trans hab.2 hbc.2⟩

section Order

variable [IsStrictWeakOrder α fun a b => lt a b = true]

theorem below_irrefl (a : α) : lt a a = false :=
  Bool.eq_false_iff.mpr (irrefl (r := fun a b => lt a b = true) a)

theorem below_trans {a b c : α} (hab : lt a b = true) (hbc : lt b c = true) : lt a c = true :=
  IsTrans.trans (r := fun a b => lt a b = true) a b c hab hbc

theorem below_asymm {a b : α} (h : lt a b = true) : lt b a = false := by
  refine Bool.eq_false_iff.mpr fun h' => ?_
  exact Bool.eq_false_iff.mp (below_irrefl a) (below_trans h h')

/-- An element that is not above another one is not above what that is not above. -/
theorem notAbove_trans {a b c : α} (hab : lt b a = false) (hbc : lt c b = false) :
    lt c a = false := by
  refine Bool.eq_false_iff.mpr fun hca => ?_
  rw [Bool.eq_false_iff] at hab hbc
  rcases Classical.em (lt a b = true) with h | h
  · exact hbc (below_trans hca h)
  · rcases Classical.em (lt b c = true) with h' | h'
    · exact hab (below_trans h' hca)
    · have hincomp := ‹IsStrictWeakOrder α fun a b => lt a b = true›.incomp_trans a b c
      exact (hincomp ⟨h, hab⟩ ⟨h', hbc⟩).2 hca

theorem below_of_notAbove {a b c : α} (hab : lt b a = false) (hbc : lt b c = true) :
    lt a c = true := by
  refine Classical.byContradiction fun hac => ?_
  rw [notAbove_trans (Bool.eq_false_iff.mpr hac) hab] at hbc
  exact absurd hbc (by simp)

theorem below_of_below {a b c : α} (hab : lt a b = true) (hbc : lt c b = false) :
    lt a c = true := by
  refine Classical.byContradiction fun hac => ?_
  rw [notAbove_trans hbc (Bool.eq_false_iff.mpr hac)] at hab
  exact absurd hab (by simp)

theorem equivalent_refl (a : α) : equivalent lt a a = true :=
  equivalent_iff.mpr ⟨below_irrefl a, below_irrefl a⟩

theorem equivalent_trans {a b c : α} (hab : equivalent lt a b = true)
    (hbc : equivalent lt b c = true) : equivalent lt a c = true := by
  rw [equivalent_iff] at hab hbc ⊢
  exact ⟨notAbove_trans hbc.1 hab.1, notAbove_trans hab.2 hbc.2⟩

end Order

theorem equivalent_symm {a b : α} (h : equivalent lt a b = true) : equivalent lt b a = true := by
  rw [equivalent_iff] at h ⊢
  exact h.symm

/-! ## 2. Stable sorts -/

/-- No element is below an earlier one, and each class is in its old order. -/
structure IsStableSort (lt : α → α → Bool) (input output : List α) : Prop where
  sorted : output.Pairwise fun a b => lt b a = false
  stable : ∀ k, output.filter (equivalent lt k) = input.filter (equivalent lt k)

theorem IsStableSort.nil : IsStableSort lt [] [] := ⟨.nil, fun _ => rfl⟩

section Sorts

variable [IsStrictWeakOrder α fun a b => lt a b = true]

theorem IsStableSort.mem_iff {input output : List α} (h : IsStableSort lt input output) {a : α} :
    a ∈ output ↔ a ∈ input := by
  have hfilter := h.stable a
  have hself : ∀ l : List α, a ∈ l ↔ a ∈ l.filter (equivalent lt a) := fun l => by
    rw [List.mem_filter]
    exact ⟨fun hl => ⟨hl, equivalent_refl a⟩, fun hl => hl.1⟩
  rw [hself, hself input, hfilter]

theorem IsStableSort.perm {input output : List α} (h : IsStableSort lt input output) :
    output.Perm input := by
  classical
  rw [List.perm_iff_count]
  intro a
  have ha : equivalent lt a a = true := equivalent_refl a
  rw [← List.count_filter ha, h.stable a, List.count_filter ha]

theorem eq_of_filter_eq : ∀ {l l' : List α}, (l.Pairwise fun a b => lt b a = false) →
    (l'.Pairwise fun a b => lt b a = false) →
    (∀ k, l.filter (equivalent lt k) = l'.filter (equivalent lt k)) → l = l'
  | [], [], _, _, _ => rfl
  | [], b :: l', _, _, h => by
    have := h b
    rw [List.filter_cons_of_pos (equivalent_refl b)] at this
    exact absurd this (by simp)
  | a :: l, [], _, _, h => by
    have := h a
    rw [List.filter_cons_of_pos (equivalent_refl a)] at this
    exact absurd this (by simp)
  | a :: l, b :: l', hl, hl', h => by
    rw [List.pairwise_cons] at hl hl'
    have hmem : ∀ {c : α} {m m' : List α},
        m.filter (equivalent lt c) = m'.filter (equivalent lt c) → c ∈ m → c ∈ m' := by
      intro c m m' heq hc
      have : c ∈ m.filter (equivalent lt c) := List.mem_filter.mpr ⟨hc, equivalent_refl c⟩
      rw [heq] at this
      exact (List.mem_filter.mp this).1
    -- the first elements are equivalent, so that both are the first one of their class
    have hba : lt b a = false := by
      rcases List.mem_cons.mp (hmem (h b).symm List.mem_cons_self) with rfl | hb
      · exact below_irrefl b
      · exact hl.1 b hb
    have hab : lt a b = false := by
      rcases List.mem_cons.mp (hmem (h a) List.mem_cons_self) with rfl | ha
      · exact below_irrefl a
      · exact hl'.1 a ha
    have hhead := h a
    rw [List.filter_cons_of_pos (equivalent_refl a),
      List.filter_cons_of_pos (equivalent_iff.mpr ⟨hab, hba⟩)] at hhead
    obtain ⟨rfl, -⟩ := List.cons.inj hhead
    rw [eq_of_filter_eq hl.2 hl'.2 fun k => ?_]
    have hclass := h k
    rw [List.filter_cons, List.filter_cons] at hclass
    split at hclass
    · exact (List.cons.inj hclass).2
    · exact hclass

/-- **There is one stable sort only.** -/
theorem IsStableSort.unique {input l l' : List α} (h : IsStableSort lt input l)
    (h' : IsStableSort lt input l') : l = l' :=
  eq_of_filter_eq h.sorted h'.sorted fun k => (h.stable k).trans (h'.stable k).symm

/-! ## 3. Merging -/

theorem merge_sorted {l l' : List α} (h : l.Pairwise fun a b => lt b a = false)
    (h' : l'.Pairwise fun a b => lt b a = false) :
    (l.merge l' (notAbove lt)).Pairwise fun a b => lt b a = false := by
  have htrans : ∀ a b c : α, notAbove lt a b = true → notAbove lt b c = true →
      notAbove lt a c = true := fun a b c hab hbc => by
    rw [notAbove_iff] at hab hbc ⊢
    exact notAbove_trans hab hbc
  have htotal : ∀ a b : α, (notAbove lt a b || notAbove lt b a) = true := fun a b => by
    rw [Bool.or_eq_true, notAbove_iff, notAbove_iff]
    rcases Classical.em (lt b a = true) with hba | hba
    · exact Or.inr (below_asymm hba)
    · exact Or.inl (Bool.eq_false_iff.mpr hba)
  have hmerge := List.pairwise_merge htrans htotal l l' (h.imp notAbove_iff.mpr)
    (h'.imp notAbove_iff.mpr)
  exact hmerge.imp notAbove_iff.mp

/-- In a merge the elements of a class in the first list are before those in the second one. -/
theorem filter_merge (k : α) : ∀ {l l' : List α}, (l.Pairwise fun a b => lt b a = false) →
    (l.merge l' (notAbove lt)).filter (equivalent lt k) =
      l.filter (equivalent lt k) ++ l'.filter (equivalent lt k)
  | [], l', _ => by rw [List.nil_merge, List.filter_nil, List.nil_append]
  | a :: l, [], _ => by rw [List.merge_right, List.filter_nil, List.append_nil]
  | a :: l, b :: l', h => by
    rw [List.cons_merge_cons]
    split
    · rw [List.filter_cons, filter_merge k (List.pairwise_cons.mp h).2, List.filter_cons (x := a)]
      split
      · rfl
      · rfl
    · rename_i hba
      rw [notAbove_iff, Bool.not_eq_false] at hba
      rw [List.filter_cons, filter_merge k h, List.filter_cons (x := b)]
      split
      · -- `b` is below all elements of the first list, so that its class is not there
        rename_i hkb
        have hnone : (a :: l).filter (equivalent lt k) = [] := by
          rw [List.filter_eq_nil_iff]
          intro c hc hkc
          have hac : lt c a = false := by
            rcases List.mem_cons.mp hc with rfl | hc
            · exact below_irrefl c
            · exact (List.pairwise_cons.mp h).1 c hc
          have hbc := equivalent_trans (equivalent_symm hkb) hkc
          have := below_of_below hba hac
          rw [(equivalent_iff.mp hbc).1] at this
          exact absurd this (by simp)
        rw [hnone, List.nil_append, List.nil_append]
      · rfl

/-- **Merged stable sorts** are a stable sort of the lists one after the other. -/
theorem IsStableSort.merge {l l' m m' : List α} (h : IsStableSort lt l m)
    (h' : IsStableSort lt l' m') : IsStableSort lt (l ++ l') (m.merge m' (notAbove lt)) := by
  refine ⟨merge_sorted h.sorted h'.sorted, fun k => ?_⟩
  rw [filter_merge k h.sorted, List.filter_append, h.stable k, h'.stable k]

end Sorts

/-- **A merge in pieces.**  No element of the first pieces belongs behind one of the second pieces. -/
theorem merge_append : ∀ (l m l' m' : List α), (∀ a ∈ l, ∀ b ∈ m', lt b a = false) →
    (∀ b ∈ l', ∀ a ∈ m, lt b a = true) →
    (l ++ m).merge (l' ++ m') (notAbove lt) =
      l.merge l' (notAbove lt) ++ m.merge m' (notAbove lt)
  | [], m, [], m', _, _ => by rw [List.nil_append, List.nil_append, List.nil_merge, List.nil_append]
  | [], [], b :: l', m', _, _ => by
    rw [List.nil_append, List.nil_merge, List.nil_merge, List.nil_merge]
  | [], a :: m, b :: l', m', h, h' => by
    have hba := h' b List.mem_cons_self a List.mem_cons_self
    have hrest := merge_append [] (a :: m) l' m' h
      fun b' hb' => h' b' (List.mem_cons_of_mem _ hb')
    rw [List.nil_append, List.nil_merge] at hrest
    rw [List.nil_append, List.nil_merge, List.cons_append, List.cons_merge_cons, notAbove, hba,
      if_neg (by simp), hrest, List.cons_append]
  | a :: l, m, [], [], _, _ => by
    rw [List.nil_append, List.merge_right, List.merge_right, List.merge_right]
  | a :: l, m, [], b :: m', h, h' => by
    have hba := h a List.mem_cons_self b List.mem_cons_self
    have hrest := merge_append l m [] (b :: m')
      (fun a' ha' => h a' (List.mem_cons_of_mem _ ha')) h'
    rw [List.nil_append, List.merge_right] at hrest
    rw [List.nil_append, List.merge_right, List.cons_append, List.cons_merge_cons, notAbove, hba,
      if_pos (by simp), hrest, List.cons_append]
  | a :: l, m, b :: l', m', h, h' => by
    have hleft := merge_append l m (b :: l') m'
      (fun a' ha' => h a' (List.mem_cons_of_mem _ ha')) h'
    have hright := merge_append (a :: l) m l' m' h
      fun b' hb' => h' b' (List.mem_cons_of_mem _ hb')
    rw [List.cons_append, List.cons_append, List.cons_merge_cons, List.cons_merge_cons]
    split
    · rw [List.cons_append] at hleft
      rw [hleft, List.cons_append]
    · rw [List.cons_append] at hright
      rw [hright, List.cons_append]
termination_by l _ l' _ => l.length + l'.length

end Cccl.StableSort
