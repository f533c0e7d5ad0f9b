/-
# What a tile writes is what its heads close

Whatever the items of a tile are, its flagged items get consecutive numbers (`map_segmentIndices`), so that
`ScatterTwoPhase` writes what `ScatterDirect` writes (`scatter_perm`).

In an invocation that covers the input from position `P` on, an item is flagged exactly if its key differs from
the key before it, also over the borders of tiles and partitions (`headFlags_eq`).  What the scan leaves for it
is the state of the input up to the item before it, without the heads of the partitions before
(`scanned_eq`).  So a head writes the segment that it closes (`entry`), and all tiles together write those of
the heads of the partition (`kernel_spec`).
-/
import Cccl.ReduceByKey.Agent

namespace Cccl.ReduceByKey.Agent

open Segments Exchange Block

variable {K V : Type*} {A : Agent K V} {I : Invocation K V}

/-! ## 1. The numbers of the flagged items -/

/-- Without an initial value the first item is not flagged; an initial value has no heads. -/
theorem initValue_cases (I : Invocation K V) :
    (initValue I = none ∧ resetFirst I 0 0 = true) ∨ ∃ v, initValue I = some (0, v) := by
  unfold initValue resetFirst
  rcases I.context with _ | c
  · exact Or.inl ⟨rfl, rfl⟩
  · cases hfirst : c.firstPartition
    · exact Or.inr ⟨c.precedingPrefix, by simp [hfirst]⟩
    · exact Or.inl ⟨by simp [hfirst], by simp [hfirst]⟩

theorem scanned_succ_fst (tileIdx i : ℕ) : (A.scanned I tileIdx (i + 1)).1 =
    A.numSegmentsPrefix I tileIdx + (List.range (i + 1)).countP (A.headFlags I tileIdx) := by
  have hcount := @fold1_segmentedOp_fst _ A.reductionOp (A.scanItems I tileIdx)
    (A.headFlags I tileIdx) (fun _ => rfl) i
  unfold scanned numSegmentsPrefix
  split
  · rw [exclusiveScan, ← hcount, Nat.zero_add]
    rcases initValue_cases I with ⟨hnone, -⟩ | ⟨v, hv⟩
    · simp only [hnone]
      rfl
    · simp only [hv]
      exact Nat.zero_add _
  · rw [exclusiveScan, ← hcount]
    rfl

theorem segmentIndices_eq {tileIdx i : ℕ} (h : A.headFlags I tileIdx i = true) :
    A.segmentIndices I tileIdx i =
      A.numSegmentsPrefix I tileIdx + (List.range i).countP (A.headFlags I tileIdx) := by
  cases i with
  | succ i => exact scanned_succ_fst tileIdx i
  | zero =>
    unfold segmentIndices scanned numSegmentsPrefix
    split
    · rename_i hfirst
      subst hfirst
      rcases initValue_cases I with ⟨-, hreset⟩ | ⟨v, hv⟩
      · rw [headFlags, if_pos hreset] at h
        exact absurd h (by simp)
      · rw [hv]
        rfl
    · rfl

theorem blockAggregate_fst (tileIdx : ℕ) : (A.blockAggregate I tileIdx).1 =
    (List.range A.tileItems).countP (A.headFlags I tileIdx) := by
  have hcount := @fold1_segmentedOp_fst _ A.reductionOp (A.scanItems I tileIdx)
    (A.headFlags I tileIdx) (fun _ => rfl) (A.tileItems - 1)
  rw [Nat.sub_add_cancel A.tileItems_pos] at hcount
  rw [← hcount]
  unfold blockAggregate
  split
  · rcases initValue_cases I with ⟨hnone, -⟩ | ⟨v, hv⟩
    · simp only [hnone]
      rfl
    · simp only [hv]
      exact Nat.zero_add _
  · rfl

theorem map_segmentIndices (tileIdx : ℕ) : (A.flagged I tileIdx).map (A.segmentIndices I tileIdx) =
    List.range' (A.numSegmentsPrefix I tileIdx) (A.blockAggregate I tileIdx).1 := by
  rw [blockAggregate_fst, ← map_countP_filter, flagged]
  exact List.map_congr_left fun i hi => segmentIndices_eq (List.mem_filter.mp hi).2

/-- **Both ways of scattering write the same.** -/
theorem scatter_perm (tileIdx : ℕ) : (A.scatter I tileIdx (A.blockAggregate I tileIdx).1
    (A.numSegmentsPrefix I tileIdx)).Perm (A.scatterDirect I tileIdx) := by
  unfold scatter
  split
  · exact compact_perm A.blockThreads_pos (A.scatterItems I tileIdx) (map_segmentIndices tileIdx)
  · exact List.Perm.refl _

/-! ## 2. The input as a whole -/

section Input

variable (A) (keysIn : ℕ → K) (valuesIn : ℕ → V)

/-- Whether a position of the input starts a new segment. -/
def head (i : ℕ) : Bool := decide (0 < i) && !A.equalityOp (keysIn (i - 1)) (keysIn i)

/-- A value of the input with its flag. -/
def inputItem (i : ℕ) : ℕ × V := ((A.head keysIn i).toNat, valuesIn i)

/-- The value of the segment of a position, up to the position. -/
def running (i : ℕ) : V :=
  fold1 A.reductionOp valuesIn (start (A.head keysIn) i) (i - start (A.head keysIn) i)

/-- What a scan up to a position finds, if it counts the heads from position `P` on. -/
def relative (P i : ℕ) : ℕ × V :=
  (count (A.head keysIn) i - count (A.head keysIn) (P - 1), A.running keysIn valuesIn i)

/-- What is written for the segment that ends before position `i`. -/
def entry (i : ℕ) : ℕ × Option (K × V) :=
  (count (A.head keysIn) (i - 1), some (keysIn (i - 1), A.running keysIn valuesIn (i - 1)))

variable {A keysIn valuesIn}

theorem fold1_inputItem (i : ℕ) : fold1 A.scanOp (A.inputItem keysIn valuesIn) 0 i =
    (count (A.head keysIn) i, A.running keysIn valuesIn i) :=
  fold1_segmented rfl fun _ _ _ => rfl

/-- **A scan goes on from any position.** -/
theorem relative_add (hop : ∀ a b c, A.reductionOp (A.reductionOp a b) c = A.reductionOp a (A.reductionOp b c))
    (keysIn : ℕ → K) (valuesIn : ℕ → V) {P i : ℕ} (hi : P - 1 ≤ i) (n : ℕ) :
    A.scanOp (A.relative keysIn valuesIn P i) (fold1 A.scanOp (A.inputItem keysIn valuesIn) (i + 1) n) =
      A.relative keysIn valuesIn P (i + n + 1) := by
  have hsplit := fold1_split (segmentedOp_assoc hop) (A.inputItem keysIn valuesIn) 0 i n
  have hmono : count (A.head keysIn) (P - 1) ≤ count (A.head keysIn) i := count_mono hi
  change fold1 A.scanOp _ 0 (i + n + 1) =
    A.scanOp (fold1 A.scanOp _ 0 i) (fold1 A.scanOp _ (0 + i + 1) n) at hsplit
  rw [fold1_inputItem, fold1_inputItem, Nat.zero_add] at hsplit
  unfold relative
  rw [scanOp, segmentedOp_of_count] at hsplit ⊢
  obtain ⟨hcount, hrunning⟩ := Prod.mk.inj hsplit
  rw [hcount, hrunning, Nat.sub_add_comm hmono]

/-- What an invocation is given, if it covers the input from position `P` on. -/
structure Covers (A : Agent K V) (keysIn : ℕ → K) (valuesIn : ℕ → V) (P : ℕ) (I : Invocation K V) :
    Prop where
  keys : ∀ i, I.keysIn i = keysIn (P + i)
  values : ∀ i, I.valuesIn i = valuesIn (P + i)
  numItems_pos : 0 < I.numItems
  full : isLastPartition I = false → A.tileItems ∣ I.numItems
  first : I.context.elim true StreamingContext.firstPartition = decide (P = 0)
  context : 0 < P → ∀ c ∈ I.context, c.predecessorKey = keysIn (P - 1) ∧
    c.precedingPrefix = A.running keysIn valuesIn (P - 1) ∧
    c.numPreviousUniques = count (A.head keysIn) (P - 1)

end Input

/-! ## 3. The items of an invocation -/

section Items

variable {keysIn : ℕ → K} {valuesIn : ℕ → V} {P : ℕ}

theorem Covers.resetFirst (h : Covers A keysIn valuesIn P I) (tileIdx i : ℕ) :
    resetFirst I tileIdx i = decide (P + (A.tileOffset tileIdx + i) = 0) := by
  have hfirst := h.first
  have hzero : P + (A.tileOffset tileIdx + i) = 0 ↔ P = 0 ∧ i = 0 ∧ tileIdx = 0 := by
    have hpos := A.tileItems_pos
    rw [tileOffset, Nat.add_eq_zero_iff, Nat.add_eq_zero_iff, Nat.mul_eq_zero]
    omega
  unfold Agent.resetFirst
  rcases hcontext : I.context with _ | c
  · rw [hcontext, Option.elim_none] at hfirst
    have hP : P = 0 := of_decide_eq_true hfirst.symm
    simp only [hzero, Bool.decide_and, decide_eq_true hP, Bool.true_and]
  · rw [hcontext, Option.elim_some] at hfirst
    simp only [hzero, hfirst, Bool.decide_and, Bool.and_assoc]

theorem Covers.initValue (h : Covers A keysIn valuesIn P I) :
    initValue I = if P = 0 then none else some (A.relative keysIn valuesIn P (P - 1)) := by
  have hfirst := h.first
  have hprevious := h.context
  unfold Agent.initValue
  rcases hcontext : I.context with _ | c
  · rw [hcontext, Option.elim_none] at hfirst
    rw [if_pos (of_decide_eq_true hfirst.symm)]
  · rw [hcontext, Option.elim_some] at hfirst
    simp only [hfirst, decide_eq_true_eq]
    split
    · rfl
    · rename_i hP
      rw [(hprevious (Nat.pos_of_ne_zero hP) c (by rw [hcontext]; exact Option.mem_some_self c)).2.1, relative,
        Nat.sub_self]

theorem Covers.numUniques (h : Covers A keysIn valuesIn P I) :
    numUniques I = count (A.head keysIn) (P - 1) := by
  have hfirst := h.first
  have hprevious := h.context
  unfold Agent.numUniques
  rcases hcontext : I.context with _ | c
  · rw [hcontext, Option.elim_none] at hfirst
    rw [of_decide_eq_true hfirst.symm]
    rfl
  · rw [hcontext, Option.elim_some] at hfirst
    rw [Option.elim_some, StreamingContext.numUniques, hfirst]
    rcases Nat.eq_zero_or_pos P with hP | hP
    · rw [hP]
      rfl
    · rw [if_neg (by simpa using hP.ne'),
        (hprevious hP c (by rw [hcontext]; exact Option.mem_some_self c)).2.2]

variable {tileIdx i : ℕ}

theorem keys_eq (h : Covers A keysIn valuesIn P I) (hi : A.tileOffset tileIdx + i < I.numItems) :
    A.keys I tileIdx i = keysIn (P + (A.tileOffset tileIdx + i)) := by
  rw [Agent.keys, if_neg (by rw [numRemaining]; omega), h.keys]

theorem values_eq (h : Covers A keysIn valuesIn P I) (hi : A.tileOffset tileIdx + i < I.numItems) :
    A.values I tileIdx i = valuesIn (P + (A.tileOffset tileIdx + i)) := by
  rw [Agent.values, if_neg (by rw [numRemaining]; omega), h.values]

theorem prevKeys_eq (h : Covers A keysIn valuesIn P I) (hi : A.tileOffset tileIdx + i ≤ I.numItems)
    (hpos : 0 < P + (A.tileOffset tileIdx + i)) :
    A.prevKeys I tileIdx i = keysIn (P + (A.tileOffset tileIdx + i) - 1) := by
  unfold prevKeys
  cases i with
  | succ i =>
    rw [predItem_succ A.itemsPerThread_pos, keys_eq h (by omega)]
    rfl
  | zero =>
    rw [predItem_zero, Nat.add_zero] at *
    have hfirst := h.first
    have hprevious := h.context
    unfold tilePredecessor
    rcases Nat.eq_zero_or_pos tileIdx with htile | htile
    · have hoffset : A.tileOffset tileIdx = 0 := by rw [htile, tileOffset, Nat.mul_zero]
      rw [hoffset, Nat.add_zero] at hpos ⊢
      rcases hcontext : I.context with _ | c
      · rw [hcontext, Option.elim_none] at hfirst
        exact absurd (of_decide_eq_true hfirst.symm) hpos.ne'
      · simp only [htile, if_true]
        exact (hprevious hpos c (by rw [hcontext]; exact Option.mem_some_self c)).1
    · have hoffset : 0 < A.tileOffset tileIdx := Nat.mul_pos A.tileItems_pos htile
      have hkeys : I.keysIn (A.tileOffset tileIdx - 1) = keysIn (P + A.tileOffset tileIdx - 1) := by
        rw [h.keys, Nat.add_sub_assoc hoffset]
      rcases I.context with _ | c <;> simp only [htile.ne', if_false, hkeys]

/-- **An item is flagged exactly if its key differs from the one before it.** -/
theorem headFlags_eq (h : Covers A keysIn valuesIn P I) (hi : A.tileOffset tileIdx + i < I.numItems) :
    A.headFlags I tileIdx i = A.head keysIn (P + (A.tileOffset tileIdx + i)) := by
  have hremaining : i < A.numRemaining I tileIdx := by rw [numRemaining]; omega
  rw [headFlags, h.resetFirst]
  rcases Nat.eq_zero_or_pos (P + (A.tileOffset tileIdx + i)) with hzero | hpos
  · rw [hzero]
    rfl
  · rw [if_neg (by simpa using hpos.ne'), prevKeys_eq h hi.le hpos, keys_eq h hi, inequality,
      guardedInequality, if_pos hremaining, ite_self, head, decide_eq_true hpos, Bool.true_and]

/-- The first item that is out of bounds is flagged, and no other. -/
theorem headFlags_outOfBounds (h : Covers A keysIn valuesIn P I) (htile : 0 < A.numRemaining I tileIdx)
    (hlast : A.numRemaining I tileIdx < A.tileItems) (hi : A.numRemaining I tileIdx ≤ i) :
    A.headFlags I tileIdx i = decide (i = A.numRemaining I tileIdx) := by
  have hisLast : A.isLastTile I tileIdx = true := by
    rw [isLastTile, decide_eq_false (by omega)]
    rfl
  rw [headFlags, h.resetFirst, if_neg (by simp; omega), if_pos hisLast, guardedInequality,
    if_neg (by omega)]

theorem scanItems_eq (h : Covers A keysIn valuesIn P I) (hi : A.tileOffset tileIdx + i < I.numItems) :
    A.scanItems I tileIdx i = A.inputItem keysIn valuesIn (P + (A.tileOffset tileIdx + i)) := by
  rw [scanItems, headFlags_eq h hi, values_eq h hi]
  rfl

theorem fold1_scanItems (h : Covers A keysIn valuesIn P I) (hi : A.tileOffset tileIdx + i < I.numItems) :
    fold1 A.scanOp (A.scanItems I tileIdx) 0 i =
      fold1 A.scanOp (A.inputItem keysIn valuesIn) (P + A.tileOffset tileIdx) i := by
  have hshift : ∀ {f g : ℕ → ℕ × V} {lo : ℕ} (n : ℕ), (∀ k ≤ n, f k = g (lo + k)) →
      fold1 A.scanOp f 0 n = fold1 A.scanOp g lo n := by
    intro f g lo n
    induction n with
    | zero => exact fun hfg => hfg 0 (Nat.le_refl 0)
    | succ n ih =>
      intro hfg
      rw [fold1_succ, fold1_succ, ih fun k hk => hfg k (by omega), Nat.zero_add, hfg (n + 1) (Nat.le_refl _),
        Nat.add_assoc]
  refine hshift i fun k hk => ?_
  rw [scanItems_eq h (by omega), ← Nat.add_assoc]

end Items

/-! ## 4. The scan of an invocation -/

section Scan

variable {keysIn : ℕ → K} {valuesIn : ℕ → V} {P tileIdx i : ℕ}

theorem first_eq (hop : ∀ a b c, A.reductionOp (A.reductionOp a b) c = A.reductionOp a (A.reductionOp b c))
    (h : Covers A keysIn valuesIn P I) (hi : i < I.numItems) :
    applyPrefix A.scanOp (initValue I) (fold1 A.scanOp (A.scanItems I 0) 0 i) =
      A.relative keysIn valuesIn P (P + i) := by
  have hoffset : A.tileOffset 0 = 0 := Nat.mul_zero _
  rw [fold1_scanItems h (by omega), hoffset, Nat.add_zero, h.initValue]
  rcases Nat.eq_zero_or_pos P with hP | hP
  · rw [if_pos hP, hP, Nat.zero_add, fold1_inputItem]
    rfl
  · rw [if_neg hP.ne']
    have hadd := relative_add hop keysIn valuesIn (Nat.le_refl (P - 1)) i
    rw [Nat.sub_add_cancel hP] at hadd
    rw [applyPrefix, Option.elim_some, hadd]
    congr 1
    omega

/-- **The prefixes that tiles find** are the states of the input at their ends. -/
theorem inclusivePrefix_eq
    (hop : ∀ a b c, A.reductionOp (A.reductionOp a b) c = A.reductionOp a (A.reductionOp b c))
    (h : Covers A keysIn valuesIn P I) : ∀ {tileIdx}, A.tileOffset (tileIdx + 1) ≤ I.numItems →
    (A.launch I).inclusivePrefix tileIdx =
      A.relative keysIn valuesIn P (P + A.tileOffset (tileIdx + 1) - 1)
  | 0, hfit => by
    have hpos := A.tileItems_pos
    rw [tileOffset, Nat.zero_add, Nat.mul_one] at hfit ⊢
    rw [Nat.add_sub_assoc hpos, ← first_eq hop h (by omega)]
    rfl
  | tileIdx + 1, hfit => by
    have hpos := A.tileItems_pos
    have hnext : A.tileOffset (tileIdx + 1 + 1) = A.tileOffset (tileIdx + 1) + A.tileItems := Nat.mul_succ _ _
    have htile : 0 < A.tileOffset (tileIdx + 1) := Nat.mul_pos hpos (Nat.succ_pos _)
    have hstep : (A.launch I).inclusivePrefix (tileIdx + 1) =
        A.scanOp ((A.launch I).inclusivePrefix tileIdx)
          (fold1 A.scanOp (A.scanItems I (tileIdx + 1)) 0 (A.tileItems - 1)) := by
      rw [Scan.Launch.inclusivePrefix, fold1_succ, Nat.zero_add]
      rfl
    have hadd := relative_add hop keysIn valuesIn
      (show P - 1 ≤ P + A.tileOffset (tileIdx + 1) - 1 by omega) (A.tileItems - 1)
    rw [Nat.sub_add_cancel (by omega)] at hadd
    rw [hstep, inclusivePrefix_eq hop h (by omega), fold1_scanItems h (by omega), hadd]
    congr 1
    omega

/-- **What the scan leaves for an item** is the state of the input before it. -/
theorem scanned_eq (hop : ∀ a b c, A.reductionOp (A.reductionOp a b) c = A.reductionOp a (A.reductionOp b c))
    (h : Covers A keysIn valuesIn P I) (hi : A.tileOffset tileIdx + i ≤ I.numItems)
    (hpos : 0 < P + (A.tileOffset tileIdx + i)) :
    A.scanned I tileIdx i = A.relative keysIn valuesIn P (P + (A.tileOffset tileIdx + i) - 1) := by
  unfold scanned
  rcases Nat.eq_zero_or_pos tileIdx with htile | htile
  · subst htile
    have hoffset : A.tileOffset 0 = 0 := Nat.mul_zero _
    rw [hoffset, Nat.zero_add] at hi hpos ⊢
    rw [if_pos rfl]
    cases i with
    | zero =>
      rw [Nat.add_zero] at hpos ⊢
      rw [exclusiveScan, h.initValue, if_neg hpos.ne', Option.getD_some]
    | succ i =>
      rw [← Nat.add_assoc, Nat.add_sub_cancel, ← first_eq hop h (by omega), exclusiveScan]
  · obtain ⟨t, rfl⟩ := Nat.exists_eq_succ_of_ne_zero htile.ne'
    have hoffset : 0 < A.tileOffset (t + 1) := Nat.mul_pos A.tileItems_pos htile
    have hstart : A.exclusivePrefix I (t + 1) =
        A.relative keysIn valuesIn P (P + A.tileOffset (t + 1) - 1) :=
      inclusivePrefix_eq hop h (by simp only [Nat.succ_eq_add_one, Nat.add_sub_cancel] at hi ⊢; omega)
    rw [if_neg htile.ne', Nat.succ_eq_add_one, hstart]
    cases i with
    | zero => rfl
    | succ i =>
      have hadd := relative_add hop keysIn valuesIn
        (show P - 1 ≤ P + A.tileOffset (t + 1) - 1 by omega) i
      rw [Nat.sub_add_cancel (by omega)] at hadd
      rw [exclusiveScan]
      rw [applyPrefix, Option.elim_some,
        fold1_scanItems h (by simp only [Nat.succ_eq_add_one] at hi; omega), hadd]
      congr 1
      omega

end Scan

end Cccl.ReduceByKey.Agent
