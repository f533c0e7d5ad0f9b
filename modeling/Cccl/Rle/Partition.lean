/-
# A partition of the input

In an invocation that covers the sequence from position `P` on, items are heads and tails exactly where they
are in the sequence, also at the borders of tiles and partitions (`headFlags_eq`, `tailFlags_eq`), and the scan
counts the starts of the sequence (`found_fst`).

The length of the last run before the partition is added to the first item.  That is right if this item goes on
with a run, or has no run before it (`found_snd`).  But if a run starts with the first item, and a run is before
it, then what is in front of the first item is nothing: the length that is written is 0 (`itemLength_severed`).
-/
import Cccl.Rle.Scatter

namespace Cccl.Rle.Agent

open Segments Exchange Block Scan

variable {T : Type*} {A : Agent T} {S : Sequence T} {P : ℕ} {I : Invocation T} {tileIdx i : ℕ}

/-- What an invocation is given, if it covers the sequence from position `P` on. -/
structure Covers (A : Agent T) (S : Sequence T) (P : ℕ) (I : Invocation T) : Prop where
  equalityOp : A.equalityOp = S.equalityOp
  input : ∀ i, I.input i = S.input (P + i)
  precedingItem : 0 < P → I.precedingItem = S.input (P - 1)
  numItems_pos : 0 < I.numItems
  last : isLastPartition I = true → P + I.numItems = S.numItems
  full : isLastPartition I = false → A.tileItems ∣ I.numItems ∧ P + I.numItems < S.numItems
  first : isFirstPartition I = decide (P = 0)
  baseOffset : baseOffset I = P
  numUniques : numUniques I = (S.state P).1

/-- The length that is kept from the partitions before. -/
def HasLength (S : Sequence T) (P : ℕ) (I : Invocation T) : Prop :=
  0 < P → ∀ c ∈ I.context, c.precedingLength = (S.state P).2

/-- A run starts with the partition, and there is a run before. -/
def Severed (S : Sequence T) (P : ℕ) : Prop := S.starts P = true ∧ ∃ i < P, S.starts i = true

theorem severed_iff : Severed S P ↔ S.starts P = true ∧ 0 < (S.state P).1 := by
  rw [Severed, S.state_fst, List.countP_pos_iff]
  simp only [List.mem_range]

/-! ## 1. Heads and tails -/

theorem tileOffset_succ (tileIdx : ℕ) : A.tileOffset (tileIdx + 1) = A.tileOffset tileIdx + A.tileItems :=
  Nat.succ_mul _ _

theorem isLastTile_iff :
    A.isLastTile I tileIdx = true ↔ I.numItems ≤ A.tileOffset tileIdx + A.tileItems := by
  have hpos := A.tileItems_pos
  have hlt : tileIdx < A.numTiles I - 1 ↔ A.tileOffset (tileIdx + 1) < I.numItems := by
    rw [Nat.lt_sub_iff_add_lt, ← Nat.succ_le_iff, numTiles, Nat.le_div_iff_mul_le hpos, tileOffset,
      Nat.succ_mul]
    omega
  rw [isLastTile, Bool.not_eq_true', decide_eq_false_iff_not, hlt, tileOffset_succ, Nat.not_lt]

theorem blockThreads_pos (A : Agent T) : 0 < A.blockThreads := Nat.mul_pos (by decide) A.warps_pos

section Items

variable (h : Covers A S P I)
include h

theorem items_eq (hi : A.tileOffset tileIdx + i < I.numItems) :
    A.items I tileIdx i = S.input (P + (A.tileOffset tileIdx + i)) := by
  rw [items, if_neg (by rw [numRemaining]; omega), h.input]

theorem oobInequality_eq (hi : A.tileOffset tileIdx + i < I.numItems) (a b : T) :
    A.oobInequality I tileIdx a b i = !S.equalityOp a b := by
  have hremaining : i < A.numRemaining I tileIdx := by rw [numRemaining]; omega
  rw [oobInequality, decide_eq_true hremaining, Bool.or_true, if_pos rfl, h.equalityOp]

/-- **An item is head-flagged where a run starts.** -/
theorem headFlags_eq (hi : A.tileOffset tileIdx + i < I.numItems) :
    A.headFlags I tileIdx i = S.isHead (P + (A.tileOffset tileIdx + i)) := by
  have hpos := A.tileItems_pos
  have hfirst : (firstTile I tileIdx = true ∧ i = 0) ↔ P + (A.tileOffset tileIdx + i) = 0 := by
    rw [firstTile, h.first, Bool.and_eq_true, decide_eq_true_eq, decide_eq_true_eq, tileOffset,
      Nat.add_eq_zero_iff, Nat.add_eq_zero_iff, Nat.mul_eq_zero]
    omega
  unfold headFlags Sequence.isHead
  simp only [hfirst]
  split
  · rename_i hzero
    rw [decide_eq_true hzero, Bool.true_or]
  · rename_i hzero
    rw [decide_eq_false hzero, Bool.false_or, oobInequality_eq h hi, items_eq h hi]
    congr 2
    cases i with
    | succ i =>
      rw [predItem_succ A.itemsPerThread_pos, items_eq h (by omega)]
      rfl
    | zero =>
      rw [predItem_zero, Nat.add_zero, before]
      rw [Nat.add_zero] at hzero
      split
      · rename_i hoffset
        rw [hoffset, Nat.add_zero] at hzero ⊢
        exact h.precedingItem (Nat.pos_of_ne_zero hzero)
      · rename_i hoffset
        rw [h.input, Nat.add_sub_assoc (Nat.pos_of_ne_zero hoffset)]

/-- **An item is tail-flagged where a run ends.** -/
theorem tailFlags_eq (hi : A.tileOffset tileIdx + i < I.numItems) (htile : i < A.tileItems) :
    A.tailFlags I tileIdx i = S.isTail (P + (A.tileOffset tileIdx + i)) := by
  have hpos := A.tileItems_pos
  have hoffset : A.tileOffset tileIdx < I.numItems := by omega
  have hlast : A.isLastTile I tileIdx = true ↔ _ := isLastTile_iff
  -- the item behind
  have hsucc : ∀ (_ : A.tileOffset tileIdx + i + 1 < I.numItems ∨ i + 1 = A.tileItems),
      succItem A.blockThreads A.itemsPerThread (A.items I tileIdx)
        (I.input (A.tileOffset tileIdx + A.tileItems)) i = S.input (P + (A.tileOffset tileIdx + i) + 1) := by
    intro hbehind
    rcases Nat.lt_or_ge (i + 1) A.tileItems with hlt | hge
    · rw [succItem_of_lt A.itemsPerThread_pos _ _ hlt, items_eq h (by omega)]
      rfl
    · have heq : i + 1 = A.tileItems := by omega
      rw [succItem_last A.blockThreads_pos A.itemsPerThread_pos _ _ heq, h.input, ← heq]
      rfl
  unfold tailFlags Sequence.isTail
  by_cases hend : A.lastTile I tileIdx = true ∧ A.tileOffset tileIdx + i + 1 = I.numItems
  · -- the last item of the sequence
    obtain ⟨hlastTile, hitem⟩ := hend
    have hpartition : isLastPartition I = true := (Bool.and_eq_true _ _ ▸ hlastTile).2
    have hnum := h.last hpartition
    rw [decide_eq_true (by omega), Bool.true_or]
    split
    · rfl
    · rw [oobInequality, hlastTile, decide_eq_false (by rw [numRemaining]; omega)]
      rfl
  · have hcompared : ¬ (A.lastTile I tileIdx = true ∧ i = A.tileItems - 1) := by
      rintro ⟨hlastTile, hitem⟩
      have hle := hlast.mp (Bool.and_eq_true _ _ ▸ hlastTile).1
      exact hend ⟨hlastTile, by omega⟩
    have hnotLast : P + (A.tileOffset tileIdx + i) + 1 ≠ S.numItems ∧
        (A.tileOffset tileIdx + i + 1 < I.numItems ∨ i + 1 = A.tileItems) ∧
        (A.lastTile I tileIdx = false ∨ i + 1 < A.numRemaining I tileIdx) := by
      cases hpartition : isLastPartition I with
      | true =>
        have hnum := h.last hpartition
        cases hisLast : A.isLastTile I tileIdx with
        | true =>
          have hlastTile : A.lastTile I tileIdx = true := by rw [lastTile, hisLast, hpartition]; rfl
          have hne : A.tileOffset tileIdx + i + 1 ≠ I.numItems := fun heq => hend ⟨hlastTile, heq⟩
          rw [numRemaining]
          omega
        | false =>
          have hlastTile : A.lastTile I tileIdx = false := by rw [lastTile, hisLast]; rfl
          have hlt : A.tileOffset tileIdx + A.tileItems < I.numItems :=
            Nat.lt_of_not_ge fun hle => by simp [hlast.mpr hle] at hisLast
          refine ⟨by omega, by omega, Or.inl hlastTile⟩
      | false =>
        obtain ⟨hdvd, hnum⟩ := h.full hpartition
        have hlastTile : A.lastTile I tileIdx = false := by rw [lastTile, hpartition, Bool.and_false]
        -- the partition is made of whole tiles
        obtain ⟨q, hq⟩ := hdvd
        have hwhole : A.tileOffset (tileIdx + 1) ≤ I.numItems := by
          rw [tileOffset, Nat.mul_comm, hq]
          refine Nat.mul_le_mul_left _ (Nat.succ_le_of_lt (Nat.lt_of_mul_lt_mul_left (a := A.tileItems) ?_))
          rw [← hq, Nat.mul_comm]
          exact hoffset
        rw [tileOffset_succ] at hwhole
        refine ⟨by omega, by omega, Or.inl hlastTile⟩
    obtain ⟨hne, hbehind, hin⟩ := hnotLast
    rw [if_neg hcompared, decide_eq_false hne, Bool.false_or, oobInequality, hsucc hbehind, items_eq h hi,
      h.equalityOp, if_pos]
    rcases hin with hin | hin
    · rw [hin]
      rfl
    · rw [decide_eq_true hin, Bool.or_true]

theorem isStart_eq (hi : A.tileOffset tileIdx + i < I.numItems) (htile : i < A.tileItems) :
    A.isStart I tileIdx i = S.starts (P + (A.tileOffset tileIdx + i)) := by
  rw [isStart, headFlags_eq h hi, tailFlags_eq h hi htile]
  rfl

theorem selections_eq (hi : A.tileOffset tileIdx + i < I.numItems) (htile : i < A.tileItems) :
    A.selections I tileIdx i = S.item (P + (A.tileOffset tileIdx + i)) := by
  rw [selections, headFlags_eq h hi, tailFlags_eq h hi htile]
  rfl

theorem isLastPartition_of_outOfBounds (hoffset : A.tileOffset tileIdx < I.numItems)
    (hi : I.numItems ≤ A.tileOffset tileIdx + i) (htile : i < A.tileItems) : isLastPartition I = true := by
  by_contra hne
  obtain ⟨⟨q, hq⟩, -⟩ := h.full (Bool.not_eq_true _ ▸ hne)
  have hlt : tileIdx < q := by
    refine Nat.lt_of_mul_lt_mul_left (a := A.tileItems) ?_
    rw [← hq, Nat.mul_comm]
    exact hoffset
  have hle := Nat.mul_le_mul_left A.tileItems (Nat.succ_le_of_lt hlt)
  rw [← hq, Nat.mul_succ, Nat.mul_comm] at hle
  rw [tileOffset] at hi
  omega

theorem flags_outOfBounds (hoffset : A.tileOffset tileIdx < I.numItems)
    (hi : I.numItems ≤ A.tileOffset tileIdx + i) (htile : i < A.tileItems) :
    A.headFlags I tileIdx i = true ∧ A.tailFlags I tileIdx i = true := by
  have hisLast : A.isLastTile I tileIdx = true := isLastTile_iff.mpr (by omega)
  have hpartition := isLastPartition_of_outOfBounds h hoffset hi htile
  have hlastTile : A.lastTile I tileIdx = true := by rw [lastTile, hisLast, hpartition]; rfl
  constructor
  · unfold headFlags
    split
    · rfl
    · rw [oobInequality, hlastTile, decide_eq_false (by rw [numRemaining]; omega)]
      rfl
  · unfold tailFlags
    split
    · rfl
    · rw [oobInequality, hlastTile, decide_eq_false (by rw [numRemaining]; omega)]
      rfl

theorem isStart_outOfBounds (hoffset : A.tileOffset tileIdx < I.numItems)
    (hi : I.numItems ≤ A.tileOffset tileIdx + i) (htile : i < A.tileItems) :
    A.isStart I tileIdx i = false := by
  obtain ⟨hhead, htail⟩ := flags_outOfBounds h hoffset hi htile
  rw [isStart, hhead, htail]
  rfl

theorem lengthsAndNumRuns_outOfBounds (hoffset : A.tileOffset tileIdx < I.numItems)
    (hi : I.numItems ≤ A.tileOffset tileIdx + i) (htile : i < A.tileItems) :
    A.lengthsAndNumRuns I tileIdx i = identity := by
  obtain ⟨hhead, htail⟩ := flags_outOfBounds h hoffset hi htile
  have hne : i ≠ 0 := by omega
  have hselections : A.selections I tileIdx i = identity := by
    rw [selections, hhead, htail]
    rfl
  unfold lengthsAndNumRuns
  rcases I.context with _ | c
  · exact hselections
  · dsimp only
    rw [if_neg fun hfirst => hne hfirst.2.2, hselections]

/-! ## 2. The scan -/

/-- **The scan counts the starts** of the sequence. -/
theorem found_fst_of_le : ∀ {i}, A.tileOffset tileIdx + i ≤ I.numItems → i ≤ A.tileItems →
    numUniques I + (A.found I tileIdx 0).1 = (S.state (P + A.tileOffset tileIdx)).1 →
    numUniques I + (A.found I tileIdx i).1 = (S.state (P + (A.tileOffset tileIdx + i))).1
  | 0, _, _, hstart => hstart
  | i + 1, hi, htile, hstart => by
    have ih := found_fst_of_le (i := i) (by omega) (by omega) hstart
    have hfound : (A.found I tileIdx (i + 1)).1 =
        (A.found I tileIdx i).1 + (A.isStart I tileIdx i).toNat := by
      rw [found_succ, ← lengthsAndNumRuns_fst]
      rfl
    rw [hfound, ← Nat.add_assoc, ih, isStart_eq h (by omega) (by omega)]
    exact (S.state_succ_fst _).symm

theorem found_fst_zero : ∀ {tileIdx}, A.tileOffset tileIdx ≤ I.numItems →
    numUniques I + (A.found I tileIdx 0).1 = (S.state (P + A.tileOffset tileIdx)).1
  | 0, _ => by
    rw [tileOffset, Nat.zero_mul, Nat.add_zero, h.numUniques]
    rfl
  | tileIdx + 1, hle => by
    rw [tileOffset_succ] at hle ⊢
    rw [found_next]
    exact found_fst_of_le h hle (Nat.le_refl _) (found_fst_zero (by omega))

theorem found_fst (hi : A.tileOffset tileIdx + i ≤ I.numItems) (htile : i ≤ A.tileItems) :
    numUniques I + (A.found I tileIdx i).1 = (S.state (P + (A.tileOffset tileIdx + i))).1 :=
  found_fst_of_le h hi htile (found_fst_zero h (by omega))

theorem lengthsAndNumRuns_first (hlength : HasLength S P I) :
    A.lengthsAndNumRuns I 0 0 = ((S.item P).1, (S.item P).2 + (S.state P).2) := by
  have hpos := h.numItems_pos
  have hoffset : A.tileOffset 0 = 0 := Nat.zero_mul _
  have hselections := selections_eq h
    (show A.tileOffset 0 + 0 < I.numItems by rw [hoffset]; exact hpos) A.tileItems_pos
  rw [hoffset, Nat.add_zero] at hselections
  have hfirst := h.first
  unfold isFirstPartition at hfirst
  unfold lengthsAndNumRuns
  rcases hcontext : I.context with _ | c
  · rw [hcontext, Option.elim_none] at hfirst
    rw [of_decide_eq_true hfirst.symm] at hselections ⊢
    exact hselections
  · rw [hcontext, Option.elim_some] at hfirst
    dsimp only
    split
    · rename_i hnotFirst
      rw [hnotFirst.2.1] at hfirst
      have hP : 0 < P := Nat.pos_of_ne_zero (of_decide_eq_false hfirst.symm)
      rw [hselections, hlength hP c (by rw [hcontext]; exact Option.mem_some_self c)]
    · rename_i hisFirst
      have hP : P = 0 := by
        refine of_decide_eq_true ?_
        rw [← hfirst]
        by_contra hne
        exact hisFirst ⟨rfl, Bool.not_eq_true _ ▸ hne, rfl⟩
      rw [hP] at hselections ⊢
      exact hselections

theorem lengthsAndNumRuns_eq (hi : A.tileOffset tileIdx + i < I.numItems) (htile : i < A.tileItems)
    (hpos : 0 < A.tileOffset tileIdx + i) :
    A.lengthsAndNumRuns I tileIdx i = S.item (P + (A.tileOffset tileIdx + i)) := by
  rw [← selections_eq h hi htile]
  unfold lengthsAndNumRuns
  rcases I.context with _ | c
  · rfl
  · refine if_neg ?_
    rintro ⟨rfl, -, rfl⟩
    rw [tileOffset, Nat.zero_mul] at hpos
    exact absurd hpos (by simp)

omit h in
theorem scanOp_snd_congr {a a' b : LengthOffsetPair} (heq : a.2 = a'.2) :
    (scanOp a b).2 = (scanOp a' b).2 := by
  simp only [scanOp, segmentedOp, heq]

/-- **The scan finds the lengths** of the sequence, if the partition does not begin with a run that has a run
before it. -/
theorem found_snd_of_le (hlength : HasLength S P I) (hwhole : ¬ Severed S P) : ∀ {i},
    A.tileOffset tileIdx + i ≤ I.numItems → i ≤ A.tileItems → 0 < A.tileOffset tileIdx + i →
    (0 < A.tileOffset tileIdx → (A.found I tileIdx 0).2 = (S.state (P + A.tileOffset tileIdx)).2) →
    (A.found I tileIdx i).2 = (S.state (P + (A.tileOffset tileIdx + i))).2
  | 0, _, _, hpos, hstart => hstart hpos
  | i + 1, hi, htile, hpos, hstart => by
    rw [found_succ, ← Nat.add_assoc, ← Nat.add_assoc, S.state_succ, Nat.add_assoc P]
    rcases Nat.eq_zero_or_pos (A.tileOffset tileIdx + i) with hzero | hnext
    · -- the first item of the partition
      obtain ⟨hoffset, rfl⟩ := Nat.add_eq_zero_iff.mp hzero
      obtain rfl : tileIdx = 0 :=
        (Nat.mul_eq_zero.mp hoffset).resolve_right A.tileItems_pos.ne'
      have hfirst : A.found I 0 0 = identity := rfl
      rw [hfirst, scanOp_identity_left, lengthsAndNumRuns_first h hlength, hzero, Nat.add_zero]
      cases hstarts : S.starts P with
      | false => simp [scanOp, segmentedOp, Sequence.item, hstarts, Nat.add_comm]
      | true =>
        have hnone : (S.state P).1 = 0 := Nat.eq_zero_of_not_pos fun hpos =>
          hwhole (severed_iff.mpr ⟨hstarts, hpos⟩)
        have hle : P ≤ S.numItems := by
          cases hpartition : isLastPartition I with
          | true => exact (h.last hpartition) ▸ Nat.le_add_right _ _
          | false => exact (Nat.le_add_right _ _).trans (h.full hpartition).2.le
        rw [S.state_snd_eq_zero hle hnone]
        simp [scanOp, segmentedOp, Sequence.item, hstarts]
    · rw [lengthsAndNumRuns_eq h (by omega) (by omega) hnext]
      exact scanOp_snd_congr (found_snd_of_le hlength hwhole (by omega) (by omega) hnext hstart)

theorem found_snd_zero (hlength : HasLength S P I) (hwhole : ¬ Severed S P) : ∀ {tileIdx},
    A.tileOffset tileIdx ≤ I.numItems → 0 < A.tileOffset tileIdx →
    (A.found I tileIdx 0).2 = (S.state (P + A.tileOffset tileIdx)).2
  | 0, _, hpos => absurd hpos (by rw [tileOffset, Nat.zero_mul]; exact Nat.lt_irrefl 0)
  | tileIdx + 1, hle, hpos => by
    rw [tileOffset_succ] at hle hpos ⊢
    rw [found_next]
    exact found_snd_of_le h hlength hwhole hle (Nat.le_refl _) hpos
      (found_snd_zero hlength hwhole (by omega))

theorem found_snd (hlength : HasLength S P I) (hwhole : ¬ Severed S P)
    (hi : A.tileOffset tileIdx + i ≤ I.numItems) (htile : i ≤ A.tileItems)
    (hpos : 0 < A.tileOffset tileIdx + i) :
    (A.found I tileIdx i).2 = (S.state (P + (A.tileOffset tileIdx + i))).2 :=
  found_snd_of_le h hlength hwhole hi htile hpos (found_snd_zero h hlength hwhole (by omega))

theorem found_outOfBounds (hoffset : A.tileOffset tileIdx < I.numItems) : ∀ {k},
    I.numItems - A.tileOffset tileIdx + k ≤ A.tileItems →
    A.found I tileIdx (I.numItems - A.tileOffset tileIdx + k) =
      A.found I tileIdx (I.numItems - A.tileOffset tileIdx)
  | 0, _ => rfl
  | k + 1, hk => by
    rw [← Nat.add_assoc, found_succ, lengthsAndNumRuns_outOfBounds h hoffset (by omega) (by omega),
      scanOp_identity_right, found_outOfBounds hoffset (by omega)]

/-! ## 3. What the items write -/

theorem itemOffset_eq (hi : A.tileOffset tileIdx + i < I.numItems) (htile : i < A.tileItems) :
    A.itemOffset I tileIdx i = S.startOffset (P + (A.tileOffset tileIdx + i)) := by
  rw [itemOffset, isStart_eq h hi htile, found_fst h hi.le htile.le, h.baseOffset]
  rfl

theorem itemLength_eq (hlength : HasLength S P I) (hwhole : ¬ Severed S P)
    (hi : A.tileOffset tileIdx + i < I.numItems) (htile : i < A.tileItems) :
    A.itemLength I tileIdx i = S.startLength (P + (A.tileOffset tileIdx + i)) := by
  rw [itemLength, isStart_eq h hi htile, found_fst h hi.le htile.le, Sequence.startLength,
    Sequence.lastLength]
  rcases Nat.eq_zero_or_pos (A.tileOffset tileIdx + i) with hzero | hpos
  · rw [hzero, Nat.add_zero]
    split
    · rename_i hstarts
      have hnone : ¬ 0 < (S.state P).1 := fun hpos => hwhole (severed_iff.mpr ⟨hstarts, hpos⟩)
      rw [if_neg hnone, if_neg hnone]
    · rfl
  · rw [found_snd h hlength hwhole hi.le htile.le hpos]

/-- **A run that starts with the partition writes 0** for the length of the run before. -/
theorem itemLength_severed (hsevered : Severed S P) :
    A.itemLength I 0 0 = [((S.state P).1 - 1, some 0)] := by
  have hoffset : A.tileOffset 0 = 0 := Nat.zero_mul _
  have hfound := found_fst h (show A.tileOffset 0 + 0 ≤ I.numItems by omega) (Nat.zero_le _)
  have hstart := isStart_eq h
    (show A.tileOffset 0 + 0 < I.numItems by rw [hoffset]; exact h.numItems_pos) A.tileItems_pos
  rw [hoffset, Nat.add_zero] at hfound hstart
  rw [itemLength, hstart, hsevered.1, if_pos rfl, hfound, if_pos (severed_iff.mp hsevered).2]
  rfl

theorem outOfBounds_writes (hoffset : A.tileOffset tileIdx < I.numItems)
    (hi : I.numItems ≤ A.tileOffset tileIdx + i) (htile : i < A.tileItems) :
    A.itemOffset I tileIdx i = [] ∧ A.itemLength I tileIdx i = [] := by
  rw [itemOffset, itemLength, isStart_outOfBounds h hoffset hi htile]
  exact ⟨rfl, rfl⟩

end Items

end Cccl.Rle.Agent
