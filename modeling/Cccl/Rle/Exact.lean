/-
# When run-length encoding is exact

All tiles of a partition write what the starts of the partition write, and the partition hands on the number of
runs and the length of the last one (`kernel_eq`).  So all partitions together write all runs.  There are two
exceptions.

If a run starts with a partition, and a run is before it, then its start writes 0 for the length of the run
before, and the lengths of the two runs are added up (`Severed`).  If the ranks are padded twice, then a tile
with many starts has no result (`Crowded`).  In all other cases, and in no others, the offsets, lengths and number
of runs are exact (`encode_exact_iff`).
-/
import Cccl.Rle.Partition

namespace Cccl.Rle.Agent

open Segments Exchange Block Scan

variable {T : Type*} {A : Agent T} {S : Sequence T} {P : ℕ} {I : Invocation T} {tileIdx : ℕ}

/-! ## 1. All tiles of a partition -/

theorem flatMap_range_of_nil {β : Type*} {f : ℕ → List β} {m n : ℕ} (hle : m ≤ n)
    (h : ∀ i, m ≤ i → i < n → f i = []) : (List.range n).flatMap f = (List.range m).flatMap f := by
  obtain ⟨k, rfl⟩ := Nat.exists_eq_add_of_le hle
  have hnil : ((List.range k).map (m + ·)).flatMap f = [] := by
    refine List.flatMap_eq_nil_iff.mpr fun i hi => ?_
    obtain ⟨j, hj, rfl⟩ := List.mem_map.mp hi
    exact h _ (Nat.le_add_right m j) (Nat.add_lt_add_left (List.mem_range.mp hj) m)
  rw [List.range_add, List.flatMap_append, hnil, List.append_nil]

theorem flatMap_range' {β : Type*} (f : ℕ → List β) (lo n : ℕ) :
    (List.range' lo n).flatMap f = (List.range n).flatMap fun i => f (lo + i) := by
  rw [List.range'_eq_map_range, List.flatMap_map]

/-- What the tiles before one write, for their items. -/
def lengthsBefore (A : Agent T) (I : Invocation T) (n : ℕ) : List (ℕ × Option ℕ) :=
  (List.range n).flatMap fun t => (List.range A.tileItems).flatMap (A.itemLength I t)

section Tiles

variable (h : Covers A S P I)
include h

theorem tile_offsets (hoffset : A.tileOffset tileIdx < I.numItems) :
    (List.range A.tileItems).flatMap (A.itemOffset I tileIdx) = S.startOffsets (P + A.tileOffset tileIdx)
      (min A.tileItems (I.numItems - A.tileOffset tileIdx)) := by
  have hbehind : ∀ i, min A.tileItems (I.numItems - A.tileOffset tileIdx) ≤ i → i < A.tileItems →
      A.itemOffset I tileIdx i = [] := fun i hi htile => (outOfBounds_writes h hoffset (by omega) htile).1
  rw [flatMap_range_of_nil (Nat.min_le_left _ _) hbehind, Sequence.startOffsets, flatMap_range']
  refine List.flatMap_congr fun i hi => ?_
  rw [List.mem_range] at hi
  rw [itemOffset_eq h (by omega) (by omega), Nat.add_assoc]

theorem tile_lengths (hlength : HasLength S P I) (hwhole : ¬ Severed S P)
    (hoffset : A.tileOffset tileIdx < I.numItems) :
    (List.range A.tileItems).flatMap (A.itemLength I tileIdx) = S.startLengths (P + A.tileOffset tileIdx)
      (min A.tileItems (I.numItems - A.tileOffset tileIdx)) := by
  have hbehind : ∀ i, min A.tileItems (I.numItems - A.tileOffset tileIdx) ≤ i → i < A.tileItems →
      A.itemLength I tileIdx i = [] := fun i hi htile => (outOfBounds_writes h hoffset (by omega) htile).2
  rw [flatMap_range_of_nil (Nat.min_le_left _ _) hbehind, Sequence.startLengths, flatMap_range']
  refine List.flatMap_congr fun i hi => ?_
  rw [List.mem_range] at hi
  rw [itemLength_eq h hlength hwhole (by omega) (by omega), Nat.add_assoc]

/-- What `n` tiles write for their items. -/
theorem tiles_offsets : ∀ {n}, A.tileOffset n < I.numItems + A.tileItems →
    ((List.range n).flatMap fun t => (List.range A.tileItems).flatMap (A.itemOffset I t)) =
      S.startOffsets P (min (A.tileOffset n) I.numItems)
  | 0, _ => by rw [tileOffset, Nat.zero_mul, Nat.zero_min]; rfl
  | n + 1, hn => by
    rw [tileOffset_succ] at hn ⊢
    have hmin : min (A.tileOffset n) I.numItems = A.tileOffset n := by omega
    have hnext : min (A.tileOffset n + A.tileItems) I.numItems =
        A.tileOffset n + min A.tileItems (I.numItems - A.tileOffset n) := by omega
    rw [List.range_succ, List.flatMap_append, List.flatMap_singleton, tiles_offsets (by omega), hmin, hnext,
      tile_offsets h (by omega), Sequence.startOffsets, Sequence.startOffsets, Sequence.startOffsets,
      ← List.flatMap_append, List.range'_append_1]

theorem tiles_lengths (hlength : HasLength S P I) (hwhole : ¬ Severed S P) : ∀ {n},
    A.tileOffset n < I.numItems + A.tileItems →
    A.lengthsBefore I n = S.startLengths P (min (A.tileOffset n) I.numItems)
  | 0, _ => by rw [tileOffset, Nat.zero_mul, Nat.zero_min]; rfl
  | n + 1, hn => by
    rw [tileOffset_succ] at hn ⊢
    have hmin : min (A.tileOffset n) I.numItems = A.tileOffset n := by omega
    have hnext : min (A.tileOffset n + A.tileItems) I.numItems =
        A.tileOffset n + min A.tileItems (I.numItems - A.tileOffset n) := by omega
    have ih := tiles_lengths hlength hwhole (n := n) (by omega)
    rw [lengthsBefore] at ih ⊢
    rw [List.range_succ, List.flatMap_append, List.flatMap_singleton, ih, hmin, hnext,
      tile_lengths h hlength hwhole (by omega), Sequence.startLengths, Sequence.startLengths,
      Sequence.startLengths, ← List.flatMap_append, List.range'_append_1]

theorem exists_lastTile : ∃ t, A.numTiles I = t + 1 ∧ A.tileOffset t < I.numItems ∧
    I.numItems ≤ A.tileOffset (t + 1) := by
  have hpos := A.tileItems_pos
  have hnum := h.numItems_pos
  obtain ⟨t, ht⟩ : ∃ t, A.numTiles I = t + 1 :=
    Nat.exists_eq_succ_of_ne_zero (Nat.div_pos (by omega) hpos).ne'
  have hdiv := Nat.div_add_mod (I.numItems + (A.tileItems - 1)) A.tileItems
  have hmod := Nat.mod_lt (I.numItems + (A.tileItems - 1)) hpos
  rw [show (I.numItems + (A.tileItems - 1)) / A.tileItems = t + 1 from ht, Nat.mul_comm] at hdiv
  refine ⟨t, ht, ?_, ?_⟩
  · rw [Nat.succ_mul] at hdiv
    rw [tileOffset]
    omega
  · rw [tileOffset]
    omega

/-- Which tiles of the partition have no result. -/
def Faulty (A : Agent T) (I : Invocation T) : Prop :=
  A.padsTwice = true ∧ ∃ t < A.numTiles I, A.crowded I t = true

theorem kernel_faulty (hfaulty : Faulty A I) : A.kernel I = none := by
  obtain ⟨hpads, t, ht, hcrowded⟩ := hfaulty
  refine Output.inOrder_eq_none (i := t) ?_ ht
  have hscatter := scatter_crowded hpads hcrowded
  obtain ⟨last, hlast, hoffset, -⟩ := exists_lastTile h
  unfold consumeRange
  rw [hscatter]
  split
  · rfl
  · rw [if_pos, Option.map_none]
    have hle : A.tileOffset t ≤ A.tileOffset last := Nat.mul_le_mul_right _ (by omega)
    rw [numRemaining]
    omega

/-- **All tiles of a partition** write the offsets of its starts, and the total. -/
theorem kernel_eq (hnot : ¬ Faulty A I) : A.kernel I =
    some ((Output.ofWrites (S.startOffsets P I.numItems) (A.lengthsBefore I (A.numTiles I))).andThen
      (A.writeTotal I (A.numTiles I - 1))) := by
  obtain ⟨last, hlast, hoffset, hend⟩ := exists_lastTile h
  have hscatter : ∀ t ≤ last, A.scatter I t = some (Output.ofWrites
      ((List.range A.tileItems).flatMap (A.itemOffset I t))
      ((List.range A.tileItems).flatMap (A.itemLength I t))) := by
    intro t ht
    refine scatter_eq ?_
    cases hpads : A.padsTwice with
    | false => exact Or.inl rfl
    | true =>
      refine Or.inr (Bool.not_eq_true _ ▸ fun hcrowded => hnot ⟨hpads, t, ?_, hcrowded⟩)
      omega
  have hbefore : Output.inOrder (A.consumeRange I) last = some (Output.ofWrites
      ((List.range last).flatMap fun t => (List.range A.tileItems).flatMap (A.itemOffset I t))
      (A.lengthsBefore I last)) := by
    refine Output.inOrder_eq fun t ht => ?_
    rw [consumeRange, if_pos (by omega), hscatter t (by omega)]
  have hmin : min (A.tileOffset (last + 1)) I.numItems = I.numItems := by omega
  have hoffsets := tiles_offsets h (n := last + 1) (by rw [tileOffset_succ]; omega)
  rw [hmin, List.range_succ, List.flatMap_append, List.flatMap_singleton] at hoffsets
  rw [kernel, hlast, Output.inOrder, hbefore, Option.bind_some, consumeRange, if_neg (by omega),
    if_pos (by rw [numRemaining]; omega), hscatter last (Nat.le_refl _), Option.map_some, Option.map_some,
    Nat.add_sub_cancel, ← hoffsets, lengthsBefore, lengthsBefore, List.range_succ, List.flatMap_append,
    List.flatMap_singleton]
  simp only [Output.andThen, Output.ofWrites, List.append_assoc, Option.or_none]

/-- The total of all tiles is the state of the sequence at the end of the partition. -/
theorem runningTotal_last : numUniques I + (A.runningTotal I (A.numTiles I - 1)).1 =
      (S.state (P + I.numItems)).1 ∧
    (HasLength S P I → ¬ Severed S P →
      (A.runningTotal I (A.numTiles I - 1)).2 = (S.state (P + I.numItems)).2) := by
  obtain ⟨last, hlast, hoffset, hend⟩ := exists_lastTile h
  rw [tileOffset_succ] at hend
  have hitem : A.tileOffset last + (I.numItems - A.tileOffset last) = I.numItems := by omega
  have htotal : A.runningTotal I (A.numTiles I - 1) =
      A.found I last (I.numItems - A.tileOffset last) := by
    obtain ⟨k, hk⟩ := Nat.exists_eq_add_of_le (show I.numItems - A.tileOffset last ≤ A.tileItems by omega)
    rw [hlast, Nat.add_sub_cancel, runningTotal_eq, hk, found_outOfBounds h hoffset hk.ge]
  rw [htotal]
  have hfst := found_fst h hitem.le (by omega)
  rw [hitem] at hfst
  refine ⟨hfst, fun hlength hwhole => ?_⟩
  have hsnd := found_snd h hlength hwhole hitem.le (by omega) (by have := h.numItems_pos; omega)
  rw [hitem] at hsnd
  exact hsnd

end Tiles

/-! ## 2. Tiles with many starts -/

/-- A tile of the sequence with so many starts that they are put next to each other first. -/
def CrowdedTile (A : Agent T) (S : Sequence T) (tileIdx : ℕ) : Prop :=
  A.blockThreads ≤ (List.range A.tileItems).countP fun i =>
    decide (A.tileOffset tileIdx + i < S.numItems) && S.starts (A.tileOffset tileIdx + i)

/-- **Some tile has many starts**, and the ranks are padded twice. -/
def Crowded (A : Agent T) (S : Sequence T) : Prop := A.padsTwice = true ∧ ∃ tileIdx, CrowdedTile A S tileIdx

theorem CrowdedTile.exists_start (h : CrowdedTile A S tileIdx) : ∃ i < A.tileItems,
    A.tileOffset tileIdx + i < S.numItems ∧ S.starts (A.tileOffset tileIdx + i) = true := by
  obtain ⟨i, hi, hstart⟩ := List.countP_pos_iff.mp (A.blockThreads_pos.trans_le h)
  rw [Bool.and_eq_true, decide_eq_true_eq] at hstart
  exact ⟨i, List.mem_range.mp hi, hstart⟩

theorem crowded_iff {p : ℕ} (h : Covers A S (A.tileOffset p) I) (hoffset : A.tileOffset tileIdx < I.numItems) :
    A.crowded I tileIdx = true ↔ CrowdedTile A S (p + tileIdx) := by
  have hstart : ∀ i ∈ List.range A.tileItems, A.isStart I tileIdx i =
      (decide (A.tileOffset (p + tileIdx) + i < S.numItems) && S.starts (A.tileOffset (p + tileIdx) + i)) := by
    intro i hi
    have htile := List.mem_range.mp hi
    have hadd : A.tileOffset (p + tileIdx) + i = A.tileOffset p + (A.tileOffset tileIdx + i) := by
      rw [tileOffset, Nat.add_mul, Nat.add_assoc]
      rfl
    have hend : A.tileOffset p + I.numItems ≤ S.numItems := by
      cases hpartition : isLastPartition I with
      | true => exact (h.last hpartition).le
      | false => exact (h.full hpartition).2.le
    rw [hadd]
    rcases Nat.lt_or_ge (A.tileOffset tileIdx + i) I.numItems with hin | hout
    · rw [isStart_eq h hin htile, decide_eq_true (by omega), Bool.true_and]
    · have hlast := h.last (isLastPartition_of_outOfBounds h hoffset hout htile)
      rw [isStart_outOfBounds h hoffset hout htile, decide_eq_false (by omega), Bool.false_and]
  rw [crowded, decide_eq_true_eq, CrowdedTile, List.countP_congr fun i hi => by rw [hstart i hi]]

/-- A partition is without result if one of its tiles has many starts. -/
theorem faulty_iff {p : ℕ} (h : Covers A S (A.tileOffset p) I) : Faulty A I ↔
    A.padsTwice = true ∧ ∃ t, A.tileOffset t < I.numItems ∧ CrowdedTile A S (p + t) := by
  obtain ⟨last, hlast, hoffset, hend⟩ := exists_lastTile h
  have hiff : ∀ t, t < A.numTiles I ↔ A.tileOffset t < I.numItems := by
    intro t
    rw [hlast]
    constructor
    · intro ht
      exact (Nat.mul_le_mul_right A.tileItems (Nat.le_of_lt_succ ht)).trans_lt hoffset
    · intro ht
      by_contra hge
      exact absurd (Nat.mul_le_mul_right A.tileItems (Nat.le_of_not_lt hge))
        (Nat.not_le.mpr (ht.trans_le hend))
  refine and_congr_right fun _ => exists_congr fun t => ?_
  rw [hiff]
  exact and_congr_right fun ht => crowded_iff h ht

/-! ## 3. All partitions -/

/-- The positions where partitions begin. -/
def boundaries (P : ℕ) : List ℕ → List ℕ
  | [] => []
  | size :: sizes => P :: boundaries (P + size) sizes

/-- What the loop of the dispatch has before a partition. -/
structure LoopAt (A : Agent T) (S : Sequence T) (partitionIdx p : ℕ) (sizes : List ℕ) (b : Buffers) : Prop where
  equalityOp : A.equalityOp = S.equalityOp
  split : IsSplit A.tileItems sizes
  sum : A.tileOffset p + sizes.sum = S.numItems
  first : partitionIdx = 0 ↔ A.tileOffset p = 0
  numUniques : partitionIdx ≠ 0 → b.tmpNumUniques (partitionIdx % 2) = (S.state (A.tileOffset p)).1

/-- The length that is kept in the buffers. -/
def KeepsLength (S : Sequence T) (P partitionIdx : ℕ) (b : Buffers) : Prop :=
  partitionIdx ≠ 0 → b.tmpPrefix (partitionIdx % 2) = (S.state P).2

theorem Buffers.after_tmpPrefix (b : Buffers) (bufferSelector : ℕ) (out : Output) :
    (b.after bufferSelector out).tmpPrefix bufferSelector =
      out.lengthOut.getD (b.tmpPrefix bufferSelector) := Function.update_self ..

theorem Buffers.after_tmpNumUniques (b : Buffers) (bufferSelector : ℕ) (out : Output) :
    (b.after bufferSelector out).tmpNumUniques bufferSelector =
      out.accumulatedUniques.getD (b.tmpNumUniques bufferSelector) := Function.update_self ..

section Loop

variable {partitionIdx p size : ℕ} {sizes : List ℕ} {b : Buffers}

theorem LoopAt.covers (h : LoopAt A S partitionIdx p (size :: sizes) b) : Covers A S (A.tileOffset p)
    (partition S.input partitionIdx (A.tileOffset p) size sizes.isEmpty b) where
  equalityOp := h.equalityOp
  input i := rfl
  precedingItem _ := rfl
  numItems_pos := h.split.pos
  last hlast := by
    have hsum := h.sum
    rw [List.isEmpty_iff.mp hlast, List.sum_singleton] at hsum
    exact hsum
  full hlast := by
    have hsum := h.sum
    have hsplit := h.split
    cases sizes with
    | nil => exact absurd hlast (by simp [isLastPartition, partition])
    | cons size' sizes =>
      have hpos := hsplit.2.2.pos
      rw [List.sum_cons, List.sum_cons] at hsum
      refine ⟨hsplit.2.1, ?_⟩
      change A.tileOffset p + size < S.numItems
      omega
  first := decide_eq_decide.mpr h.first
  baseOffset := rfl
  numUniques := by
    change (if decide (partitionIdx = 0) = true then 0 else b.tmpNumUniques (partitionIdx % 2)) = _
    split
    · rename_i hzero
      rw [h.first.mp (of_decide_eq_true hzero)]
      rfl
    · rename_i hne
      exact h.numUniques fun hzero => hne (decide_eq_true hzero)

theorem LoopAt.hasLength (h : LoopAt A S partitionIdx p (size :: sizes) b)
    (hlength : KeepsLength S (A.tileOffset p) partitionIdx b) : HasLength S (A.tileOffset p)
      (partition S.input partitionIdx (A.tileOffset p) size sizes.isEmpty b) := by
  intro hpos c hc
  obtain rfl := Option.mem_some_iff.mp hc
  exact hlength fun hzero => absurd (h.first.mp hzero) hpos.ne'

/-- **The next partition** begins with a tile, and finds the number of runs in the buffers. -/
theorem LoopAt.next {size' : ℕ} {out : Output} {n : ℕ}
    (h : LoopAt A S partitionIdx p (size :: size' :: sizes) b)
    (hout : out.accumulatedUniques = some n) (hn : n = (S.state (A.tileOffset p + size)).1) :
    ∃ q, A.tileOffset p + size = A.tileOffset q ∧
      LoopAt A S (partitionIdx + 1) q (size' :: sizes) (b.after ((partitionIdx + 1) % 2) out) := by
  obtain ⟨hpos, ⟨k, hk⟩, hsplit⟩ := h.split
  have hoffset : A.tileOffset p + size = A.tileOffset (p + k) := by
    rw [tileOffset, tileOffset, Nat.add_mul, hk, Nat.mul_comm A.tileItems]
  have hsum := h.sum
  rw [List.sum_cons] at hsum
  refine ⟨p + k, hoffset, h.equalityOp, hsplit, by omega, ?_, fun _ => ?_⟩
  · rw [← hoffset]
    omega
  · rw [Buffers.after_tmpNumUniques, hout, Option.getD_some, hn, hoffset]

/-- What a partition that is not the last leaves in the buffers. -/
theorem keepsLength_after {out : Output} {P l : ℕ} (hout : out.lengthOut = some l)
    (hl : l = (S.state P).2) : KeepsLength S P (partitionIdx + 1) (b.after ((partitionIdx + 1) % 2) out) := by
  intro _
  rw [Buffers.after_tmpPrefix, hout, Option.getD_some, hl]

/-- What a partition writes, and keeps for the next one. -/
structure PartitionWritten (S : Sequence T) (P : ℕ) (I : Invocation T) (out : Output) : Prop where
  offsets : out.offsets = S.startOffsets P I.numItems
  lengths : HasLength S P I → ¬ Severed S P → out.lengths = S.startLengths P I.numItems ++
    if isLastPartition I then S.lastLength (P + I.numItems) else []
  severed : Severed S P → ((S.state P).1 - 1, some 0) ∈ out.lengths
  numRuns : out.numRuns = if isLastPartition I then some (S.state (P + I.numItems)).1 else none
  accumulatedUniques : isLastPartition I = false →
    out.accumulatedUniques = some (S.state (P + I.numItems)).1
  lengthOut : HasLength S P I → ¬ Severed S P → isLastPartition I = false →
    out.lengthOut = some (S.state (P + I.numItems)).2

theorem kernel_written (h : Covers A S P I) (hnot : ¬ Faulty A I) :
    ∃ out, A.kernel I = some out ∧ PartitionWritten S P I out := by
  obtain ⟨last, hlast, hoffset, hend⟩ := exists_lastTile h
  obtain ⟨hcount, hlength⟩ := runningTotal_last h
  have hall : A.tileOffset (A.numTiles I) < I.numItems + A.tileItems := by
    rw [hlast, tileOffset_succ]
    omega
  have hmin : min (A.tileOffset (A.numTiles I)) I.numItems = I.numItems := by
    rw [hlast]
    omega
  refine ⟨_, kernel_eq h hnot, ?_, fun hkept hwhole => ?_, fun hsevered => ?_, ?_, fun hpartition => ?_,
    fun hkept hwhole hpartition => ?_⟩
  · exact List.append_nil _
  · change A.lengthsBefore I (A.numTiles I) ++ (if isLastPartition I = true ∧ _ then _ else _) = _
    rw [tiles_lengths h hkept hwhole hall, hmin, Nat.add_comm _ (numUniques I), hcount,
      hlength hkept hwhole, Sequence.lastLength]
    cases isLastPartition I <;> simp
  · refine List.mem_append_left _ (List.mem_flatMap.mpr ⟨0, List.mem_range.mpr (by omega), ?_⟩)
    refine List.mem_flatMap.mpr ⟨0, List.mem_range.mpr A.tileItems_pos, ?_⟩
    rw [itemLength_severed h hsevered]
    exact List.mem_singleton_self _
  · change (if isLastPartition I = true then some (numUniques I + _) else none).or none = _
    rw [hcount, Option.or_none]
  · change (if isLastPartition I = true then none else some (numUniques I + _)).or none = _
    rw [hcount, hpartition]
    rfl
  · change (if isLastPartition I = true then none else some _).or none = _
    rw [hlength hkept hwhole, hpartition]
    rfl

/-- What the partitions from position `P` on write; the lengths only if the one before is `kept`. -/
structure Written (S : Sequence T) (P : ℕ) (sizes : List ℕ) (kept : Prop) (out : Output) : Prop where
  offsets : out.offsets = S.startOffsets P (S.numItems - P)
  lengths : kept → (∀ P' ∈ boundaries P sizes, ¬ Severed S P') →
    out.lengths = S.startLengths P (S.numItems - P) ++ S.lastLength S.numItems
  severed : ∀ P' ∈ boundaries P sizes, Severed S P' → ((S.state P').1 - 1, some 0) ∈ out.lengths
  numRuns : out.numRuns = some (S.state S.numItems).1

/-- **All partitions write all starts**, if no tile has too many of them. -/
theorem partitions_written : ∀ {sizes partitionIdx p b}, LoopAt A S partitionIdx p sizes b →
    (A.padsTwice = true → ∀ t, p ≤ t → ¬ CrowdedTile A S t) →
    ∃ out, A.partitions S.input partitionIdx (A.tileOffset p) sizes b = some out ∧
      Written S (A.tileOffset p) sizes (KeepsLength S (A.tileOffset p) partitionIdx b) out
  | size :: sizes, partitionIdx, p, b, h, hnot => by
    have hcovers := h.covers
    have hfaulty : ¬ Faulty A (partition S.input partitionIdx (A.tileOffset p) size sizes.isEmpty b) := by
      rw [faulty_iff hcovers]
      rintro ⟨hpads, t, -, hcrowded⟩
      exact hnot hpads (p + t) (Nat.le_add_right p t) hcrowded
    obtain ⟨out, hout, hwritten⟩ := kernel_written hcovers hfaulty
    have hsum := h.sum
    rw [partitions, hout, Option.bind_some]
    cases sizes with
    | nil =>
      rw [List.sum_singleton] at hsum
      have hend : S.numItems - A.tileOffset p = size := by omega
      refine ⟨_, rfl, ?_, fun hkept hwhole => ?_, fun P' hP' hsevered => ?_, ?_⟩
      · rw [hend]
        exact (List.append_nil _).trans hwritten.offsets
      · have hlengths := hwritten.lengths (h.hasLength hkept) (hwhole _ (List.mem_singleton_self _))
        rw [hend, ← hsum, ← List.append_nil (_ ++ _)]
        exact congrArg (· ++ []) hlengths
      · rw [List.mem_singleton.mp hP'] at hsevered ⊢
        exact List.mem_append_left _ (hwritten.severed hsevered)
      · rw [← hsum]
        exact hwritten.numRuns
    | cons size' sizes =>
      have hpartition : isLastPartition (partition S.input partitionIdx (A.tileOffset p) size
        (size' :: sizes).isEmpty b) = false := rfl
      obtain ⟨q, hq, hnext⟩ := h.next (hwritten.accumulatedUniques hpartition) rfl
      obtain ⟨out', hout', hwritten'⟩ := partitions_written hnext fun hpads t ht => hnot hpads t <| by
        refine Nat.le_of_mul_le_mul_right (?_ : p * A.tileItems ≤ t * A.tileItems) A.tileItems_pos
        have hle : q * A.tileItems ≤ t * A.tileItems := Nat.mul_le_mul_right _ ht
        rw [tileOffset, tileOffset] at hq
        omega
      rw [List.sum_cons] at hsum
      have hbehind : S.numItems - A.tileOffset p = size + (S.numItems - A.tileOffset q) := by
        rw [← hq]
        omega
      have hboundaries : boundaries (A.tileOffset p) (size :: size' :: sizes) =
          A.tileOffset p :: boundaries (A.tileOffset q) (size' :: sizes) := by rw [← hq]; rfl
      rw [hq, hout']
      refine ⟨_, rfl, ?_, fun hkept hwhole => ?_, fun P' hP' hsevered => ?_, ?_⟩
      · change out.offsets ++ out'.offsets = _
        rw [hbehind, hwritten.offsets, hwritten'.offsets, ← hq, Sequence.startOffsets, Sequence.startOffsets,
          Sequence.startOffsets, ← List.flatMap_append, ← List.range'_append_1]
        rfl
      · rw [hboundaries] at hwhole
        have hfirst := hwhole _ List.mem_cons_self
        have hlengths := hwritten.lengths (h.hasLength hkept) hfirst
        have hlengthOut := hwritten.lengthOut (h.hasLength hkept) hfirst hpartition
        have hlengths' := hwritten'.lengths (hq ▸ keepsLength_after hlengthOut rfl)
          fun P' hP' => hwhole P' (List.mem_cons_of_mem _ hP')
        change out.lengths ++ out'.lengths = _
        rw [hbehind, hlengths, hlengths', hpartition, if_neg Bool.false_ne_true, List.append_nil, ← List.append_assoc,
          ← hq, Sequence.startLengths, Sequence.startLengths, Sequence.startLengths, ← List.flatMap_append,
          ← List.range'_append_1]
        rfl
      · rw [hboundaries] at hP'
        rcases List.mem_cons.mp hP' with rfl | hP'
        · exact List.mem_append_left _ (hwritten.severed hsevered)
        · exact List.mem_append_right _ (hwritten'.severed P' hP' hsevered)
      · change out'.numRuns.or out.numRuns = _
        rw [hwritten'.numRuns]
        rfl

/-- **A tile with too many starts** leaves the partitions without result. -/
theorem partitions_crowded (hpads : A.padsTwice = true) : ∀ {sizes partitionIdx p b},
    LoopAt A S partitionIdx p sizes b → (∃ t, p ≤ t ∧ CrowdedTile A S t) →
    A.partitions S.input partitionIdx (A.tileOffset p) sizes b = none
  | size :: sizes, partitionIdx, p, b, h, ⟨t, ht, hcrowded⟩ => by
    have hcovers := h.covers
    rw [partitions]
    by_cases hfaulty : Faulty A (partition S.input partitionIdx (A.tileOffset p) size sizes.isEmpty b)
    · rw [kernel_faulty hcovers hfaulty]
      rfl
    · obtain ⟨out, hout, hwritten⟩ := kernel_written hcovers hfaulty
      obtain ⟨k, rfl⟩ := Nat.exists_eq_add_of_le ht
      have hadd : A.tileOffset (p + k) = A.tileOffset p + A.tileOffset k := Nat.add_mul p k A.tileItems
      -- the tile is in a later partition
      have hlater : size ≤ A.tileOffset k := by
        by_contra hlt
        exact hfaulty ((faulty_iff hcovers).mpr ⟨hpads, k, Nat.lt_of_not_le hlt, hcrowded⟩)
      obtain ⟨i, -, hi, -⟩ := hcrowded.exists_start
      have hsum := h.sum
      rw [hout, Option.bind_some]
      cases sizes with
      | nil =>
        rw [List.sum_singleton] at hsum
        omega
      | cons size' sizes =>
        obtain ⟨q, hq, hnext⟩ := h.next (hwritten.accumulatedUniques rfl) rfl
        have hle : q ≤ p + k := by
          refine Nat.le_of_mul_le_mul_right (?_ : q * A.tileItems ≤ (p + k) * A.tileItems) A.tileItems_pos
          change A.tileOffset q ≤ A.tileOffset (p + k)
          omega
        rw [hq, partitions_crowded hpads hnext ⟨p + k, hle, hcrowded⟩]
        rfl

end Loop

/-! ## 4. Exactness -/

/-- The input of an agent, as a sequence. -/
def sequence (A : Agent T) (input : ℕ → T) (numItems : ℕ) : Sequence T := ⟨A.equalityOp, input, numItems⟩

/-- **All runs of more than one item are written**, the offset and the length of each once, and their number. -/
structure Exact (S : Sequence T) (out : Output) : Prop where
  offsets : out.offsets.Perm (Sequence.offsetsOf S.runs)
  lengths : out.lengths.Perm (Sequence.lengthsOf S.runs)
  numRuns : out.numRuns = some S.runs.length

theorem Exact.initialized_andThen {out : Output} (hpos : 0 < S.numItems)
    (hoffsets : out.offsets = S.startOffsets 0 S.numItems)
    (hlengths : out.lengths = S.startLengths 0 S.numItems ++ S.lastLength S.numItems)
    (hnumRuns : out.numRuns = some (S.state S.numItems).1) : Exact S (initialized.andThen out) := by
  obtain ⟨hcount, hoffsetsOf, hlengthsOf⟩ := Sequence.written_runs hpos
  refine ⟨.of_eq ?_, .of_eq ?_, ?_⟩
  · exact hoffsets.trans hoffsetsOf
  · exact hlengths.trans hlengthsOf
  · change out.numRuns.or (some 0) = _
    rw [hnumRuns, hcount]
    rfl

theorem Exact.ne_zero {out : Output} (h : Exact S out) (slot : ℕ) : (slot, some 0) ∉ out.lengths := by
  intro hmem
  obtain ⟨run, hrun, heq⟩ := List.mem_map.mp (h.lengths.mem_iff.mp hmem)
  have hlong := (List.mem_filter.mp (List.fst_mem_of_mem_zipIdx hrun)).2
  rw [decide_eq_true_eq] at hlong
  simp only [Prod.mk.injEq, Option.some.injEq] at heq
  omega

theorem exact_initialized (h : S.numItems ≤ 1) : Exact S initialized := by
  have hruns : S.runs = [] := by
    rw [Sequence.runs]
    rcases Nat.le_one_iff_eq_zero_or_eq_one.mp h with h | h <;> rw [h] <;> rfl
  refine ⟨?_, ?_, ?_⟩ <;> rw [hruns]
  · exact .nil
  · exact .nil
  · rfl

theorem not_crowdedTile (h : S.numItems ≤ 1) : ¬ CrowdedTile A S tileIdx := by
  intro hcrowded
  obtain ⟨i, -, hi, hstart⟩ := hcrowded.exists_start
  have htail : S.isTail (A.tileOffset tileIdx + i) = true := by
    rw [Sequence.isTail, decide_eq_true (by omega), Bool.true_or]
  rw [Sequence.starts, htail] at hstart
  simp at hstart

theorem not_severed_zero : ¬ Severed S 0 := fun ⟨_, _, hi, _⟩ => absurd hi (Nat.not_lt_zero _)

theorem dispatch_exact_iff (A : Agent T) (input : ℕ → T) (numItems : ℕ) :
    (∃ out, A.dispatch input numItems = some out ∧ Exact (sequence A input numItems) out) ↔
      ¬ Crowded A (sequence A input numItems) := by
  unfold dispatch
  split
  · rename_i h
    exact iff_of_true ⟨_, rfl, exact_initialized h⟩ fun hcrowded => hcrowded.2.elim fun _ => not_crowdedTile h
  · rename_i h
    have hzero : A.tileOffset 0 = 0 := Nat.zero_mul _
    have hcovers : Covers A (sequence A input numItems) (A.tileOffset 0) ⟨input, input 0, numItems, none⟩ := by
      rw [hzero]
      exact ⟨rfl, fun i => by rw [Nat.zero_add]; rfl, fun h => absurd h (Nat.lt_irrefl 0), by change 0 < numItems; omega,
        fun _ => Nat.zero_add _, fun h => Bool.noConfusion h, rfl, rfl, rfl⟩
    have hfaulty : Faulty A ⟨input, input 0, numItems, none⟩ ↔ Crowded A (sequence A input numItems) := by
      rw [faulty_iff hcovers, Crowded]
      refine and_congr_right fun _ => ⟨fun ⟨t, _, ht⟩ => ⟨0 + t, ht⟩, fun ⟨t, ht⟩ => ⟨t, ?_, by rwa [Nat.zero_add]⟩⟩
      obtain ⟨i, -, hi, -⟩ := ht.exists_start
      exact (Nat.le_add_right _ _).trans_lt hi
    rw [← hfaulty]
    constructor
    · rintro ⟨out, hout, -⟩ hnone
      rw [kernel_faulty hcovers hnone] at hout
      exact absurd hout (by simp)
    · intro hnot
      obtain ⟨out, hout, hwritten⟩ := kernel_written hcovers hnot
      rw [hzero] at hwritten
      have hlengths := hwritten.lengths (fun hpos => absurd hpos (Nat.lt_irrefl 0)) not_severed_zero
      have hnumRuns := hwritten.numRuns
      simp only [Nat.zero_add] at hlengths hnumRuns
      rw [hout]
      refine ⟨_, rfl, Exact.initialized_andThen (by change 0 < numItems; omega) hwritten.offsets ?_ ?_⟩
      · exact hlengths
      · exact hnumRuns

theorem dispatchStreaming_exact_iff (A : Agent T) (input : ℕ → T) (b : Buffers) :
    ∀ sizes, sizes = [] ∨ IsSplit A.tileItems sizes →
    ((∃ out, A.dispatchStreaming input sizes b = some out ∧ Exact (sequence A input sizes.sum) out) ↔
      ¬ Crowded A (sequence A input sizes.sum) ∧
        ∀ P ∈ boundaries 0 sizes, ¬ Severed (sequence A input sizes.sum) P) := by
  intro sizes hsizes
  have hzero : A.tileOffset 0 = 0 := Nat.zero_mul _
  unfold dispatchStreaming
  split
  · rename_i h
    refine iff_of_true ⟨_, rfl, exact_initialized h⟩
      ⟨fun hcrowded => hcrowded.2.elim fun _ => not_crowdedTile h, fun P hP => ?_⟩
    -- there is at most one partition
    match sizes, hsizes, h, hP with
    | [size], _, _, hP =>
      rw [List.mem_singleton.mp hP]
      exact not_severed_zero
    | size :: size' :: sizes, hsizes, h, _ =>
      obtain ⟨hpos, -, hsplit⟩ := hsizes.resolve_left (List.cons_ne_nil _ _)
      have hpos' := hsplit.pos
      rw [List.sum_cons, List.sum_cons] at h
      omega
  · rename_i h
    have hsplit : IsSplit A.tileItems sizes := hsizes.resolve_left fun hnil => h (by rw [hnil]; decide)
    have hloop : LoopAt A (sequence A input sizes.sum) 0 0 sizes b :=
      ⟨rfl, hsplit, by rw [hzero, Nat.zero_add]; rfl, iff_of_true rfl hzero, fun hne => absurd rfl hne⟩
    have hpos : 0 < (sequence A input sizes.sum).numItems := by change 0 < sizes.sum; omega
    by_cases hcrowded : Crowded A (sequence A input sizes.sum)
    · obtain ⟨hpads, t, ht⟩ := hcrowded
      have hnone := partitions_crowded hpads hloop ⟨t, Nat.zero_le t, ht⟩
      rw [hzero] at hnone
      refine iff_of_false ?_ fun hnot => hnot.1 ⟨hpads, t, ht⟩
      rintro ⟨out, hout, -⟩
      rw [show A.partitions input 0 0 sizes b = none from hnone] at hout
      exact absurd hout (by simp)
    · obtain ⟨out, hout, hwritten⟩ := partitions_written hloop fun hpads t _ ht => hcrowded ⟨hpads, t, ht⟩
      rw [hzero] at hout hwritten
      rw [show A.partitions input 0 0 sizes b = some out from hout, Option.map_some]
      constructor
      · rintro ⟨out', hout', hexact⟩
        obtain rfl := Option.some.inj hout'
        exact ⟨hcrowded, fun P hP hsevered => hexact.ne_zero _ (hwritten.severed P hP hsevered)⟩
      · rintro ⟨-, hwhole⟩
        exact ⟨_, rfl, Exact.initialized_andThen hpos hwritten.offsets
          (hwritten.lengths (fun hne => absurd rfl hne) hwhole) hwritten.numRuns⟩

/-- **Run-length encoding is exact if and only if** no tile has so many starts that they are exchanged twice with
ranks that are padded, and no partition begins with the start of a run that has a run before it. -/
theorem encode_exact_iff (A : Agent T) (input : ℕ → T) :
    (∀ numItems, (∃ out, A.dispatch input numItems = some out ∧ Exact (sequence A input numItems) out) ↔
      ¬ Crowded A (sequence A input numItems)) ∧
    ∀ b sizes, sizes = [] ∨ IsSplit A.tileItems sizes →
      ((∃ out, A.dispatchStreaming input sizes b = some out ∧ Exact (sequence A input sizes.sum) out) ↔
        ¬ Crowded A (sequence A input sizes.sum) ∧
          ∀ P ∈ boundaries 0 sizes, ¬ Severed (sequence A input sizes.sum) P) :=
  ⟨dispatch_exact_iff A input, dispatchStreaming_exact_iff A input⟩

/-- One warp, and tiles of 32 items. -/
def oneItemPerThread : Agent ℕ := ⟨1, 1, false, Nat.beq, 0, Nat.one_pos, Nat.one_pos⟩

/-- One warp, and tiles of 256 items: the ranks are padded, and offsets and lengths are exchanged apart. -/
def eightItemsPerThread : Agent ℕ := ⟨1, 8, false, Nat.beq, 0, Nat.one_pos, Nat.succ_pos 7⟩

/-- A run that goes on over the border of the partitions is written as one. -/
theorem encode_exact_over_border :
    ∃ out, oneItemPerThread.dispatchStreaming (fun _ => 7) [32, 5] ⟨fun _ => 0, fun _ => 0⟩ = some out ∧
      Exact (sequence oneItemPerThread (fun _ => 7) 37) out := by
  have hsplit : IsSplit oneItemPerThread.tileItems [32, 5] := ⟨by decide, by decide, show 0 < _ by decide⟩
  refine ((encode_exact_iff oneItemPerThread fun _ => 7).2 ⟨fun _ => 0, fun _ => 0⟩ [32, 5] (Or.inr hsplit)).mpr
    ⟨fun hcrowded => absurd hcrowded.1 (by decide), fun P hP => ?_⟩
  rw [show boundaries 0 [32, 5] = [0, 32] from rfl] at hP
  rcases List.mem_pair.mp hP with rfl | rfl
  · exact not_severed_zero
  · exact fun hsevered => absurd hsevered.1 (by decide)

/-- Two runs of 32 items, with the border of the partitions between them; and pairs of items, with padded ranks:
nothing that is written is exact. -/
theorem encode_not_exact :
    (¬ ∃ out, oneItemPerThread.dispatchStreaming (fun i => i / 32) [32, 32] ⟨fun _ => 0, fun _ => 0⟩ = some out ∧
      Exact (sequence oneItemPerThread (fun i => i / 32) 64) out) ∧
    ¬ ∃ out, eightItemsPerThread.dispatch (fun i => i / 2) 256 = some out ∧
      Exact (sequence eightItemsPerThread (fun i => i / 2) 256) out := by
  constructor
  · have hsplit : IsSplit oneItemPerThread.tileItems [32, 32] := ⟨by decide, by decide, show 0 < _ by decide⟩
    intro hexact
    have hwhole := ((dispatchStreaming_exact_iff oneItemPerThread (fun i => i / 32) ⟨fun _ => 0, fun _ => 0⟩ [32, 32]
      (Or.inr hsplit)).mp hexact).2
    exact hwhole 32 (by decide) ⟨by decide, 0, by decide, by decide⟩
  · intro hexact
    refine (dispatch_exact_iff eightItemsPerThread (fun i => i / 2) 256).mp hexact ⟨by decide, 0, ?_⟩
    change 32 ≤ (List.range 256).countP _
    decide +kernel

end Cccl.Rle.Agent
