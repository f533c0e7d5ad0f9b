/-
# Merging in pieces

`MergePath` and `serial_merge` of `block_merge_sort.cuh`.

The merge of two sorted runs is cut at diagonals.  `MergePath` finds by binary search how many of the
first `diag` keys of the merge are from the first run; what is before and what is behind can then be
merged by itself (`merge_slices`).  `serial_merge` merges some items from there on.  It reads one key
ahead, and goes on when both runs are at their end: the keys that it returns then have no meaning, but the
reads stay within `size` as long as the first run begins early enough (`serialMergeLoop_spec`).

Keys are read through functions that have no result outside of the storage.
-/
import Mathlib.Order.Nat
import Cccl.Lib.StableSort

namespace Cccl.MergeSort

open StableSort

variable {K V : Type} (lt : K → K → Bool)

/-! ## 1. The code -/

/-- The loop of `MergePath`.  With too little fuel there is no result. -/
def mergePathLoop (keys1 keys2 : ℕ → Option K) (diag : ℕ) : ℕ → ℕ → ℕ → Option ℕ
  | 0, _, _ => none
  | fuel + 1, keys1Begin, keys1End =>
    if keys1Begin < keys1End then do
      let mid := keys1Begin + (keys1End - keys1Begin) / 2
      let key1 ← keys1 mid
      let key2 ← keys2 (diag - 1 - mid)
      if lt key2 key1 then mergePathLoop keys1 keys2 diag fuel keys1Begin mid
      else mergePathLoop keys1 keys2 diag fuel (mid + 1) keys1End
    else some keys1Begin

/-- `MergePath`.  The interval shrinks in each iteration. -/
def mergePath (keys1 keys2 : ℕ → Option K) (keys1Count keys2Count diag : ℕ) : Option ℕ :=
  let keys1Begin := if diag < keys2Count then 0 else diag - keys2Count
  let keys1End := min diag keys1Count
  mergePathLoop lt keys1 keys2 diag (keys1End - keys1Begin + 1) keys1Begin keys1End

/-- The loop of `serial_merge`: the keys, with the positions they are from. -/
def serialMergeLoop (keysShared : ℕ → Option K) (keys1End keys2End : ℕ) :
    ℕ → ℕ → ℕ → K → K → Option (List (K × ℕ))
  | 0, _, _, _, _ => some []
  | items + 1, keys1Beg, keys2Beg, key1, key2 =>
    if keys2Beg < keys2End ∧ (keys1End ≤ keys1Beg ∨ lt key2 key1 = true) then do
      let next ← keysShared (keys2Beg + 1)
      let rest ← serialMergeLoop keysShared keys1End keys2End items keys1Beg (keys2Beg + 1) key1 next
      some ((key2, keys2Beg) :: rest)
    else do
      let next ← keysShared (keys1Beg + 1)
      let rest ← serialMergeLoop keysShared keys1End keys2End items (keys1Beg + 1) keys2Beg next key2
      some ((key1, keys1Beg) :: rest)

/-- The first key of a run, or a default for an empty one. -/
def firstKey (keysShared : ℕ → Option K) (beg count : ℕ) (oobDefault : K) : Option K :=
  if count ≠ 0 then keysShared beg else some oobDefault

def serialMerge (keysShared : ℕ → Option K) (items keys1Beg keys2Beg keys1Count keys2Count : ℕ)
    (oobDefault : K) : Option (List (K × ℕ)) := do
  let key1 ← firstKey keysShared keys1Beg keys1Count oobDefault
  let key2 ← firstKey keysShared keys2Beg keys2Count oobDefault
  serialMergeLoop lt keysShared (keys1Beg + keys1Count) (keys2Beg + keys2Count) items keys1Beg
    keys2Beg key1 key2

/-! ## 2. The diagonal -/

variable {lt}

section Path

variable {keys1 keys2 : ℕ → Option K} {k1 k2 : ℕ → K} {keys1Count keys2Count diag : ℕ}

/-- The end of the search: the comparisons at both sides of its result, if they are possible. -/
structure IsCut (lt : K → K → Bool) (k1 k2 : ℕ → K) (keys1Count keys2Count diag p : ℕ) : Prop where
  le_count : p ≤ keys1Count
  le_diag : p ≤ diag
  rest_le : diag ≤ p + keys2Count
  before : 0 < p → diag - p < keys2Count → lt (k2 (diag - p)) (k1 (p - 1)) = false
  behind : p < keys1Count → 0 < diag - p → lt (k2 (diag - 1 - p)) (k1 p) = true

/-- What the binary search knows about its bounds. -/
structure SearchInv (lt : K → K → Bool) (k1 k2 : ℕ → K) (keys1Count keys2Count diag b e : ℕ) : Prop where
  le : b ≤ e
  le_count : e ≤ keys1Count
  le_diag : e ≤ diag
  rest_le : diag ≤ b + keys2Count
  before : 0 < b → diag - b < keys2Count → lt (k2 (diag - b)) (k1 (b - 1)) = false
  behind : e < keys1Count → e < diag → lt (k2 (diag - 1 - e)) (k1 e) = true

theorem mergePathLoop_spec (h1 : ∀ i < keys1Count, keys1 i = some (k1 i))
    (h2 : ∀ i < keys2Count, keys2 i = some (k2 i)) : ∀ fuel b e,
      SearchInv lt k1 k2 keys1Count keys2Count diag b e → e - b < fuel →
      ∃ p, mergePathLoop lt keys1 keys2 diag fuel b e = some p ∧
        IsCut lt k1 k2 keys1Count keys2Count diag p
  | fuel + 1, b, e, h, hfuel => by
    have hle := h.le
    have hcount := h.le_count
    have hdiag := h.le_diag
    have hrest := h.rest_le
    unfold mergePathLoop
    split
    · rename_i hlt
      obtain ⟨mid, hmid⟩ : ∃ mid, b + (e - b) / 2 = mid := ⟨_, rfl⟩
      have hmid1 : b ≤ mid := by omega
      have hmid2 : mid < e := by omega
      simp only [hmid, h1 mid (by omega), h2 (diag - 1 - mid) (by omega), Option.bind_eq_bind,
        Option.bind_some]
      split
      · rename_i hbelow
        refine mergePathLoop_spec h1 h2 fuel b mid ?_ (by omega)
        exact ⟨hmid1, by omega, by omega, hrest, h.before, fun _ _ => hbelow⟩
      · rename_i hbelow
        refine mergePathLoop_spec h1 h2 fuel (mid + 1) e ?_ (by omega)
        refine ⟨by omega, hcount, hdiag, by omega, fun _ _ => ?_, h.behind⟩
        rw [Nat.add_sub_cancel, Nat.add_comm mid 1, ← Nat.sub_sub]
        exact Bool.eq_false_iff.mpr hbelow
    · obtain rfl : b = e := by omega
      exact ⟨b, rfl, hcount, hdiag, hrest, h.before, fun hc hd => h.behind hc (by omega)⟩

/-- **`MergePath` finds a cut.** -/
theorem mergePath_spec (h1 : ∀ i < keys1Count, keys1 i = some (k1 i))
    (h2 : ∀ i < keys2Count, keys2 i = some (k2 i)) (hdiag : diag ≤ keys1Count + keys2Count) :
    ∃ p, mergePath lt keys1 keys2 keys1Count keys2Count diag = some p ∧
      IsCut lt k1 k2 keys1Count keys2Count diag p := by
  unfold mergePath
  refine mergePathLoop_spec h1 h2 _ _ _ ?_ (Nat.lt_succ_self _)
  split
  · exact ⟨Nat.zero_le _, Nat.min_le_right _ _, Nat.min_le_left _ _, by omega, by omega, by omega⟩
  · exact ⟨by omega, Nat.min_le_right _ _, Nat.min_le_left _ _, by omega, by omega, by omega⟩

end Path

/-! ## 3. Slices -/

/-- The contents from `b` up to `e`. -/
def slice {α : Type} (f : ℕ → α) (b e : ℕ) : List α := (List.range' b (e - b)).map f

section Slice

variable {α : Type} {f : ℕ → α} {b m e : ℕ}

theorem length_slice : (slice f b e).length = e - b := by
  rw [slice, List.length_map, List.length_range']

theorem slice_of_le (h : e ≤ b) : slice f b e = [] := by
  rw [slice, Nat.sub_eq_zero_of_le h]
  rfl

theorem slice_succ (h : b < e) : slice f b e = f b :: slice f (b + 1) e := by
  have hlen : e - b = e - (b + 1) + 1 := by omega
  rw [slice, hlen, List.range'_succ, List.map_cons, slice]

theorem slice_append (h : b ≤ m) (h' : m ≤ e) : slice f b m ++ slice f m e = slice f b e := by
  obtain ⟨k, rfl⟩ := Nat.exists_eq_add_of_le h
  obtain ⟨n, rfl⟩ := Nat.exists_eq_add_of_le h'
  have hall : b + k + n - b = k + n := by omega
  rw [slice, slice, slice, Nat.add_sub_cancel_left, Nat.add_sub_cancel_left, hall,
    ← List.range'_append_1, List.map_append]

theorem mem_slice {a : α} : a ∈ slice f b e ↔ ∃ i, b ≤ i ∧ i < e ∧ f i = a := by
  rw [slice, List.mem_map]
  constructor
  · rintro ⟨i, hi, rfl⟩
    rw [List.mem_range'_1] at hi
    exact ⟨i, hi.1, by omega, rfl⟩
  · rintro ⟨i, hle, hlt, rfl⟩
    exact ⟨i, List.mem_range'_1.mpr ⟨hle, by omega⟩, rfl⟩

theorem getElem?_slice {i : ℕ} (h : b + i < e) : (slice f b e)[i]? = some (f (b + i)) := by
  rw [slice, List.getElem?_map, List.getElem?_range' (by omega), Nat.one_mul, Option.map_some]

theorem slice_pairwise {R : α → α → Prop} :
    (slice f b e).Pairwise R ↔ ∀ i j, b ≤ i → i < j → j < e → R (f i) (f j) := by
  rw [slice, List.pairwise_map, List.pairwise_iff_getElem]
  simp only [List.length_range', List.getElem_range', Nat.one_mul]
  constructor
  · intro h i j hi hij hj
    have := h (i - b) (j - b) (by omega) (by omega) (by omega)
    rwa [Nat.add_sub_cancel' hi, Nat.add_sub_cancel' (by omega)] at this
  · intro h i j hi hj hij
    exact h (b + i) (b + j) (by omega) (by omega) (by omega)

end Slice

/-- Items are compared by their keys. -/
def keyBelow (lt : K → K → Bool) (a b : K × V) : Bool := lt a.1 b.1

section Order

variable [IsStrictWeakOrder K fun a b => lt a b = true]

instance : IsStrictWeakOrder (K × V) fun a b => keyBelow lt a b = true where
  irrefl a := irrefl (r := fun a b => lt a b = true) a.1
  trans a b c := IsTrans.trans (r := fun a b => lt a b = true) a.1 b.1 c.1
  incomp_trans a b c :=
    ‹IsStrictWeakOrder K fun a b => lt a b = true›.incomp_trans a.1 b.1 c.1

section Cut

variable {P : ℕ → K × V} {b1 e1 b2 e2 diag p : ℕ}

/-- An item of a sorted run is not above the later ones, nor above itself. -/
theorem not_below_of_le {b e : ℕ} (h : (slice P b e).Pairwise fun a b => keyBelow lt b a = false) {i j : ℕ}
    (hi : b ≤ i) (hij : i ≤ j) (hj : j < e) : keyBelow lt (P j) (P i) = false := by
  rcases Nat.eq_or_lt_of_le hij with rfl | hlt
  · exact below_irrefl (P i)
  · exact slice_pairwise.mp h i j hi hlt hj

/-- **What is before a cut of two sorted runs and what is behind it can be merged by itself.** -/
theorem IsCut.merge_eq
    (h : IsCut lt (fun i => (P (b1 + i)).1) (fun i => (P (b2 + i)).1) (e1 - b1) (e2 - b2) diag p)
    (hb1 : b1 ≤ e1) (hb2 : b2 ≤ e2)
    (h1 : (slice P b1 e1).Pairwise fun a b => keyBelow lt b a = false)
    (h2 : (slice P b2 e2).Pairwise fun a b => keyBelow lt b a = false) :
    (slice P b1 e1).merge (slice P b2 e2) (notAbove (keyBelow lt)) =
      (slice P b1 (b1 + p)).merge (slice P b2 (b2 + (diag - p))) (notAbove (keyBelow lt)) ++
        (slice P (b1 + p) e1).merge (slice P (b2 + (diag - p)) e2) (notAbove (keyBelow lt)) := by
  obtain ⟨hcount, hdiag, hrest, hbefore, hbehind⟩ := h
  have hfirst : ∀ a ∈ slice P b1 (b1 + p), ∀ b ∈ slice P (b2 + (diag - p)) e2,
      keyBelow lt b a = false := by
    intro a ha b hb
    obtain ⟨i, hi, hi', rfl⟩ := mem_slice.mp ha
    obtain ⟨j, hj, hj', rfl⟩ := mem_slice.mp hb
    have hcut : keyBelow lt (P (b2 + (diag - p))) (P (b1 + (p - 1))) = false :=
      hbefore (by omega) (by omega)
    have hleft := not_below_of_le h1 (i := i) (j := b1 + (p - 1)) hi (by omega) (by omega)
    have hright := not_below_of_le h2 (i := b2 + (diag - p)) (j := j) (by omega) hj hj'
    exact notAbove_trans (notAbove_trans hleft hcut) hright
  have hsecond : ∀ b ∈ slice P b2 (b2 + (diag - p)), ∀ a ∈ slice P (b1 + p) e1,
      keyBelow lt b a = true := by
    intro b hb a ha
    obtain ⟨j, hj, hj', rfl⟩ := mem_slice.mp hb
    obtain ⟨i, hi, hi', rfl⟩ := mem_slice.mp ha
    have hcut : keyBelow lt (P (b2 + (diag - 1 - p))) (P (b1 + p)) = true :=
      hbehind (by omega) (by omega)
    have hleft := not_below_of_le h2 (i := j) (j := b2 + (diag - 1 - p)) hj (by omega) (by omega)
    have hright := not_below_of_le h1 (i := b1 + p) (j := i) (by omega) hi hi'
    exact below_of_below (below_of_notAbove hleft hcut) hright
  have hmerge := merge_append _ _ _ _ hfirst hsecond
  rwa [slice_append (by omega) (by omega), slice_append (by omega) (by omega)] at hmerge

omit [IsStrictWeakOrder K fun a b => lt a b = true] in
theorem IsCut.length_before
    (h : IsCut lt (fun i => (P (b1 + i)).1) (fun i => (P (b2 + i)).1) (e1 - b1) (e2 - b2) diag p) :
    ((slice P b1 (b1 + p)).merge (slice P b2 (b2 + (diag - p))) (notAbove (keyBelow lt))).length = diag := by
  have hdiag := h.le_diag
  rw [List.length_merge, length_slice, length_slice]
  omega

/-- What is behind a cut of two sorted runs can be merged by itself. -/
theorem IsCut.drop_merge
    (h : IsCut lt (fun i => (P (b1 + i)).1) (fun i => (P (b2 + i)).1) (e1 - b1) (e2 - b2) diag p)
    (hb1 : b1 ≤ e1) (hb2 : b2 ≤ e2)
    (h1 : (slice P b1 e1).Pairwise fun a b => keyBelow lt b a = false)
    (h2 : (slice P b2 e2).Pairwise fun a b => keyBelow lt b a = false) :
    ((slice P b1 e1).merge (slice P b2 e2) (notAbove (keyBelow lt))).drop diag =
      (slice P (b1 + p) e1).merge (slice P (b2 + diag - p) e2) (notAbove (keyBelow lt)) := by
  have hsum : b2 + diag - p = b2 + (diag - p) := Nat.add_sub_assoc h.le_diag b2
  rw [h.merge_eq hb1 hb2 h1 h2, List.drop_left' h.length_before, hsum]

theorem IsCut.le_of_le {diag' p' : ℕ}
    (h : IsCut lt (fun i => (P (b1 + i)).1) (fun i => (P (b2 + i)).1) (e1 - b1) (e2 - b2) diag p)
    (h' : IsCut lt (fun i => (P (b1 + i)).1) (fun i => (P (b2 + i)).1) (e1 - b1) (e2 - b2) diag' p')
    (h1 : (slice P b1 e1).Pairwise fun a b => keyBelow lt b a = false)
    (h2 : (slice P b2 e2).Pairwise fun a b => keyBelow lt b a = false) (hle : diag ≤ diag') :
    p ≤ p' ∧ diag - p ≤ diag' - p' := by
  obtain ⟨hcount, hdiag, hrest, hbefore, hbehind⟩ := h
  obtain ⟨hcount', hdiag', hrest', hbefore', hbehind'⟩ := h'
  constructor
  · -- else an item before the first cut would be above one before the second cut
    by_contra hmore
    have hcut : keyBelow lt (P (b2 + (diag - p))) (P (b1 + (p - 1))) = false :=
      hbefore (by omega) (by omega)
    have hcut' : keyBelow lt (P (b2 + (diag' - 1 - p'))) (P (b1 + p')) = true :=
      hbehind' (by omega) (by omega)
    have hleft := not_below_of_le h2 (i := b2 + (diag - p)) (j := b2 + (diag' - 1 - p'))
      (by omega) (by omega) (by omega)
    have hright := not_below_of_le h1 (i := b1 + p') (j := b1 + (p - 1)) (by omega) (by omega) (by omega)
    have hbelow := below_of_below (below_of_notAbove hleft hcut') hright
    rw [hcut] at hbelow
    cases hbelow
  · by_contra hmore
    have hcut : keyBelow lt (P (b2 + (diag - 1 - p))) (P (b1 + p)) = true :=
      hbehind (by omega) (by omega)
    have hcut' : keyBelow lt (P (b2 + (diag' - p'))) (P (b1 + (p' - 1))) = false :=
      hbefore' (by omega) (by omega)
    have hleft := not_below_of_le h2 (i := b2 + (diag' - p')) (j := b2 + (diag - 1 - p))
      (by omega) (by omega) (by omega)
    have hright := not_below_of_le h1 (i := b1 + p) (j := b1 + (p' - 1)) (by omega) (by omega) (by omega)
    have hbelow := below_of_below (below_of_notAbove hleft hcut) hright
    rw [hcut'] at hbelow
    cases hbelow

/-- **What is between two cuts can be merged by itself.** -/
theorem IsCut.merge_between {diag' p' : ℕ}
    (h : IsCut lt (fun i => (P (b1 + i)).1) (fun i => (P (b2 + i)).1) (e1 - b1) (e2 - b2) diag p)
    (h' : IsCut lt (fun i => (P (b1 + i)).1) (fun i => (P (b2 + i)).1) (e1 - b1) (e2 - b2) diag' p')
    (hb1 : b1 ≤ e1) (hb2 : b2 ≤ e2)
    (h1 : (slice P b1 e1).Pairwise fun a b => keyBelow lt b a = false)
    (h2 : (slice P b2 e2).Pairwise fun a b => keyBelow lt b a = false) (hle : diag ≤ diag') :
    (slice P (b1 + p) (b1 + p')).merge (slice P (b2 + (diag - p)) (b2 + (diag' - p'))) (notAbove (keyBelow lt)) =
      (((slice P b1 e1).merge (slice P b2 e2) (notAbove (keyBelow lt))).drop diag).take (diag' - diag) := by
  obtain ⟨hp, hq⟩ := h.le_of_le h' h1 h2 hle
  have hcount' := h'.le_count
  have hrest' := h'.rest_le
  have hdiag' := h'.le_diag
  -- the first cut is one of what is before the second cut
  have hcut : IsCut lt (fun i => (P (b1 + i)).1) (fun i => (P (b2 + i)).1) (b1 + p' - b1)
      (b2 + (diag' - p') - b2) diag p := by
    obtain ⟨hcount, hdiag, hrest, hbefore, hbehind⟩ := h
    exact ⟨by omega, hdiag, by omega, fun hpos hlt => hbefore hpos (by omega),
      fun hlt hpos => hbehind (by omega) hpos⟩
  have hsorted1 : (slice P b1 (b1 + p')).Pairwise fun a b => keyBelow lt b a = false :=
    slice_pairwise.mpr fun i j hi hij hj => slice_pairwise.mp h1 i j hi hij (by omega)
  have hsorted2 : (slice P b2 (b2 + (diag' - p'))).Pairwise fun a b => keyBelow lt b a = false :=
    slice_pairwise.mpr fun i j hi hij hj => slice_pairwise.mp h2 i j hi hij (by omega)
  have hdrop := hcut.drop_merge (by omega) (by omega) hsorted1 hsorted2
  rw [Nat.add_sub_assoc hcut.le_diag] at hdrop
  rw [← hdrop, ← List.drop_take, h'.merge_eq hb1 hb2 h1 h2, List.take_left' h'.length_before]

end Cut

end Order

/-! ## 4. The serial merge -/

section Serial

variable {P : ℕ → K × V} {size : ℕ} {keysShared : ℕ → Option K}

/-- **The loop of `serial_merge`** returns the first items of the merge, as far as there are any.  It
reads `keysShared` up to `size`. -/
theorem serialMergeLoop_spec (hload : ∀ i ≤ size, keysShared i = some (P i).1) {e1 e2 : ℕ}
    (he2 : e2 ≤ size) : ∀ items b1 b2 key1 key2, b2 ≤ e2 → b1 + items ≤ size →
      (b1 < e1 → key1 = (P b1).1) → (b2 < e2 → key2 = (P b2).1) →
      ∃ out, serialMergeLoop lt keysShared e1 e2 items b1 b2 key1 key2 = some out ∧
        out.length = items ∧ (∀ o ∈ out, o.2 < size) ∧
        (out.take (e1 - b1 + (e2 - b2))).map (fun o => (o.1, (P o.2).2)) =
          ((slice P b1 e1).merge (slice P b2 e2) (notAbove (keyBelow lt))).take items
  | 0, b1, b2, key1, key2, _, _, _, _ => ⟨[], rfl, rfl, by simp, by simp⟩
  | items + 1, b1, b2, key1, key2, hle2, hfit, hkey1, hkey2 => by
    unfold serialMergeLoop
    split
    · -- the item is from the second run
      rename_i hsecond
      obtain ⟨hlt, hfirst⟩ := hsecond
      obtain ⟨out, hout, hlen, hin, hmerge⟩ := serialMergeLoop_spec hload he2 items b1 (b2 + 1) key1
        (P (b2 + 1)).1 (by omega) (by omega) hkey1 fun _ => rfl
      refine ⟨(key2, b2) :: out, ?_, by rw [List.length_cons, hlen], ?_, ?_⟩
      · simp only [hload (b2 + 1) (by omega), Option.bind_eq_bind, Option.bind_some, hout]
      · exact List.forall_mem_cons.mpr ⟨by simp only; omega, hin⟩
      · have hcount : e1 - b1 + (e2 - b2) = e1 - b1 + (e2 - (b2 + 1)) + 1 := by omega
        have hhead : (slice P b1 e1).merge (slice P b2 e2) (notAbove (keyBelow lt)) =
            P b2 :: (slice P b1 e1).merge (slice P (b2 + 1) e2) (notAbove (keyBelow lt)) := by
          rw [slice_succ hlt]
          rcases Nat.lt_or_ge b1 e1 with hb1 | hb1
          · have hbelow : keyBelow lt (P b2) (P b1) = true := by
              rw [keyBelow, ← hkey1 hb1, ← hkey2 hlt]
              exact hfirst.resolve_left (by omega)
            rw [slice_succ hb1, List.cons_merge_cons, notAbove, hbelow, if_neg (by simp)]
          · rw [slice_of_le hb1, List.nil_merge, List.nil_merge]
        rw [hcount, List.take_succ_cons, List.map_cons, hmerge, hhead, List.take_succ_cons,
          hkey2 hlt]
    · rename_i hnot
      obtain ⟨out, hout, hlen, hin, hmerge⟩ := serialMergeLoop_spec hload he2 items (b1 + 1) b2
        (P (b1 + 1)).1 key2 hle2 (by omega) (fun _ : b1 + 1 < e1 => rfl) hkey2
      refine ⟨(key1, b1) :: out, ?_, by rw [List.length_cons, hlen], ?_, ?_⟩
      · simp only [hload (b1 + 1) (by omega), Option.bind_eq_bind, Option.bind_some, hout]
      · exact List.forall_mem_cons.mpr ⟨by simp only; omega, hin⟩
      rcases Nat.lt_or_ge b1 e1 with hb1 | hb1
      · have hcount : e1 - b1 + (e2 - b2) = e1 - (b1 + 1) + (e2 - b2) + 1 := by omega
        have hhead : (slice P b1 e1).merge (slice P b2 e2) (notAbove (keyBelow lt)) =
            P b1 :: (slice P (b1 + 1) e1).merge (slice P b2 e2) (notAbove (keyBelow lt)) := by
          rw [slice_succ hb1]
          rcases Nat.lt_or_ge b2 e2 with hb2 | hb2
          · have hbelow : keyBelow lt (P b2) (P b1) = false := by
              rw [keyBelow, ← hkey1 hb1, ← hkey2 hb2]
              exact Bool.eq_false_iff.mpr fun h => hnot ⟨hb2, Or.inr h⟩
            rw [slice_succ hb2, List.cons_merge_cons, notAbove, hbelow, if_pos (by simp)]
          · rw [slice_of_le hb2, List.merge_right, List.merge_right]
        rw [hcount, List.take_succ_cons, List.map_cons, hmerge, hhead, List.take_succ_cons,
          hkey1 hb1]
      · -- both runs are at their end
        have hb2 : e2 ≤ b2 := Nat.not_lt.mp fun h => hnot ⟨h, Or.inl hb1⟩
        rw [slice_of_le hb1, slice_of_le hb2, List.nil_merge, List.take_nil,
          Nat.sub_eq_zero_of_le hb1, Nat.sub_eq_zero_of_le hb2, Nat.add_zero, List.take_zero,
          List.map_nil]

/-- **`serial_merge`.** -/
theorem serialMerge_spec (lt : K → K → Bool) (hload : ∀ i ≤ size, keysShared i = some (P i).1)
    (items b1 e1 b2 e2 : ℕ) (hb1 : b1 ≤ e1) (hb2 : b2 ≤ e2) (he1 : e1 ≤ size) (he2 : e2 ≤ size)
    (hfit : b1 + items ≤ size) (oobDefault : K) : ∃ out,
      serialMerge lt keysShared items b1 b2 (e1 - b1) (e2 - b2) oobDefault = some out ∧
        out.length = items ∧ (∀ o ∈ out, o.2 < size) ∧
        (out.take (e1 - b1 + (e2 - b2))).map (fun o => (o.1, (P o.2).2)) =
          ((slice P b1 e1).merge (slice P b2 e2) (notAbove (keyBelow lt))).take items := by
  have hfirst : ∀ {b e : ℕ}, e ≤ size → ∃ key,
      firstKey keysShared b (e - b) oobDefault = some key ∧ (b < e → key = (P b).1) := by
    intro b e he
    unfold firstKey
    rcases Nat.lt_or_ge b e with hlt | hge
    · exact ⟨(P b).1, by rw [if_pos (by omega), hload b (by omega)], fun _ => rfl⟩
    · exact ⟨oobDefault, by rw [if_neg (by omega)], fun hlt => absurd hlt (by omega)⟩
  obtain ⟨key1, hread1, hkey1⟩ := hfirst he1 (b := b1)
  obtain ⟨key2, hread2, hkey2⟩ := hfirst he2 (b := b2)
  unfold serialMerge
  simp only [hread1, hread2, Option.bind_eq_bind, Option.bind_some, Nat.add_sub_cancel' hb1,
    Nat.add_sub_cancel' hb2]
  exact serialMergeLoop_spec hload he2 items b1 b2 key1 key2 hb2 hfit hkey1 hkey2

end Serial

end Cccl.MergeSort
