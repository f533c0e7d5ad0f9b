/-
# Reduce-by-key is exact

Each head of the input is in one tile of one partition, and writes the segment that ends before it
(`kernel_full`).  The last segment is closed by the first item out of bounds if there is one, and by the last
thread if not, in the last partition only (`kernel_spec`); the partitions before hand on the value of the
segment that stays open.  So all partitions together write all segments, each at its number, and each
once (`reduceByKey_exact`).
-/
import Cccl.ReduceByKey.Tiles
import Mathlib

namespace Cccl.ReduceByKey.Agent

open Segments Exchange Block

variable {K V : Type*} {A : Agent K V} {I : Invocation K V} {keysIn : ℕ → K} {valuesIn : ℕ → V}
  {P tileIdx i : ℕ}

/-! ## 1. A tile -/

section Tile

variable (hop : ∀ a b c, A.reductionOp (A.reductionOp a b) c = A.reductionOp a (A.reductionOp b c))
  (h : Covers A keysIn valuesIn P I)
include h

/-- A flagged item has a predecessor, and is not far out of bounds. -/
theorem flagged_bounds (htile : 0 < A.numRemaining I tileIdx) (hi : i ∈ A.flagged I tileIdx) :
    A.tileOffset tileIdx + i ≤ I.numItems ∧ 0 < P + (A.tileOffset tileIdx + i) := by
  obtain ⟨hlt, hflag⟩ := List.mem_filter.mp hi
  rw [List.mem_range] at hlt
  constructor
  · rcases Nat.lt_or_ge i (A.numRemaining I tileIdx) with hin | hout
    · rw [numRemaining] at hin
      omega
    · rw [headFlags_outOfBounds h htile (by omega) hout, decide_eq_true_eq] at hflag
      rw [hflag, numRemaining] at *
      omega
  · rw [headFlags, h.resetFirst] at hflag
    split at hflag
    · exact absurd hflag (by simp)
    · rename_i hne
      exact Nat.pos_of_ne_zero (by simpa only [decide_eq_true_eq] using hne)

include hop in
/-- **A flagged item writes the segment that it closes.** -/
theorem shift_scatterDirect (htile : 0 < A.numRemaining I tileIdx) :
    shift I (A.scatterDirect I tileIdx) = ((A.flagged I tileIdx).map fun i =>
      P + (A.tileOffset tileIdx + i)).map (A.entry keysIn valuesIn) := by
  rw [shift, scatterDirect, List.map_map, List.map_map]
  refine List.map_congr_left fun i hi => ?_
  obtain ⟨hle, hpos⟩ := flagged_bounds h htile hi
  have hmono : count (A.head keysIn) (P - 1) ≤
      count (A.head keysIn) (P + (A.tileOffset tileIdx + i) - 1) := count_mono (by omega)
  simp only [Function.comp_apply, segmentIndices, scatterItems, scanned_eq hop h hle hpos,
    prevKeys_eq h hle hpos, h.numUniques, entry, relative, Nat.add_sub_cancel' hmono]

/-- The flagged items of a tile without items out of bounds are the heads. -/
theorem flagged_full (hfit : A.tileItems ≤ A.numRemaining I tileIdx) :
    ((A.flagged I tileIdx).map fun i => P + (A.tileOffset tileIdx + i)) =
      (List.range' (P + A.tileOffset tileIdx) A.tileItems).filter (A.head keysIn) := by
  rw [List.range'_eq_map_range, List.filter_map]
  refine congrArg₂ _ (funext fun i => (Nat.add_assoc _ _ _).symm) (List.filter_congr fun i hi => ?_)
  rw [List.mem_range] at hi
  rw [numRemaining] at hfit
  rw [Function.comp_apply, headFlags_eq h (by omega), Nat.add_assoc]

/-- In a partial tile the first item out of bounds is one more. -/
theorem flagged_short (htile : 0 < A.numRemaining I tileIdx)
    (hshort : A.numRemaining I tileIdx < A.tileItems) :
    ((A.flagged I tileIdx).map fun i => P + (A.tileOffset tileIdx + i)) =
      (List.range' (P + A.tileOffset tileIdx) (A.numRemaining I tileIdx)).filter (A.head keysIn) ++
        [P + I.numItems] := by
  obtain ⟨rest, hrest⟩ := Nat.exists_eq_add_of_lt hshort
  have hin : (List.range (A.numRemaining I tileIdx)).filter (A.headFlags I tileIdx) =
      (List.range (A.numRemaining I tileIdx)).filter
        fun i => A.head keysIn (P + A.tileOffset tileIdx + i) := by
    refine List.filter_congr fun i hi => ?_
    rw [List.mem_range, numRemaining] at hi
    rw [headFlags_eq h (by omega), Nat.add_assoc]
  have hout : (List.range' (A.numRemaining I tileIdx + 1) rest).filter (A.headFlags I tileIdx) = [] := by
    refine List.filter_eq_nil_iff.mpr fun i hi => ?_
    obtain ⟨hle, -⟩ := List.mem_range'_1.mp hi
    rw [headFlags_outOfBounds h htile hshort (by omega), decide_eq_true_eq]
    omega
  have hphantom : A.headFlags I tileIdx (A.numRemaining I tileIdx) = true := by
    rw [headFlags_outOfBounds h htile hshort (Nat.le_refl _), decide_eq_true_eq]
  have hend : A.tileOffset tileIdx + A.numRemaining I tileIdx = I.numItems := by
    rw [numRemaining] at htile ⊢
    omega
  have hsplit : List.range A.tileItems = List.range (A.numRemaining I tileIdx) ++
      A.numRemaining I tileIdx :: List.range' (A.numRemaining I tileIdx + 1) rest := by
    rw [List.range_eq_range', List.range_eq_range', hrest, Nat.add_assoc,
      ← List.range'_append_1, Nat.zero_add, List.range'_succ]
  rw [flagged, hsplit, List.filter_append, List.filter_cons_of_pos hphantom, hin, hout, List.map_append,
    List.map_singleton, hend, List.range'_eq_map_range, List.filter_map]
  congr 2
  exact funext fun i => (Nat.add_assoc _ _ _).symm

end Tile

/-! ## 2. All tiles of an invocation -/

section Kernel

variable (hop : ∀ a b c, A.reductionOp (A.reductionOp a b) c = A.reductionOp a (A.reductionOp b c))
  (h : Covers A keysIn valuesIn P I)
include h

include hop in
theorem consumeRange_full (hfull : A.tileItems < A.numRemaining I tileIdx) :
    ∃ writes, A.consumeRange I tileIdx = ⟨writes, none, none, none⟩ ∧
      writes.Perm (((List.range' (P + A.tileOffset tileIdx) A.tileItems).filter (A.head keysIn)).map
        (A.entry keysIn valuesIn)) := by
  have hnotLast : A.isLastTile I tileIdx = false := by
    rw [isLastTile, decide_eq_true hfull]
    rfl
  refine ⟨shift I (A.scatter I tileIdx (A.blockAggregate I tileIdx).1 (A.numSegmentsPrefix I tileIdx)),
    ?_, ?_⟩
  · rw [consumeRange, if_pos (Nat.zero_lt_of_lt hfull), consumeTile, hnotLast]
    simp [Output.andThen, Output.empty]
  · rw [← flagged_full h hfull.le, ← shift_scatterDirect hop h (Nat.zero_lt_of_lt hfull)]
    exact (scatter_perm tileIdx).map _

include hop in
/-- **The tiles before the last one** write the segments that are closed by their heads. -/
theorem kernel_full : ∀ {n}, A.tileOffset n < I.numItems →
    ∃ writes, A.kernel I n = ⟨writes, none, none, none⟩ ∧
      writes.Perm (((List.range' P (A.tileOffset n)).filter (A.head keysIn)).map
        (A.entry keysIn valuesIn))
  | 0, _ => ⟨[], rfl, by rw [tileOffset, Nat.mul_zero]; exact List.Perm.refl _⟩
  | n + 1, hn => by
    have hnext : A.tileOffset (n + 1) = A.tileOffset n + A.tileItems := Nat.mul_succ _ _
    obtain ⟨writes, hkernel, hperm⟩ := kernel_full (n := n) (by omega)
    have hfull : A.tileItems < A.numRemaining I n := by rw [numRemaining]; omega
    obtain ⟨writes', hrange, hperm'⟩ := consumeRange_full hop h hfull
    refine ⟨writes ++ writes', ?_, ?_⟩
    · rw [kernel, hkernel, hrange]
      rfl
    · rw [hnext, ← List.range'_append_1, List.filter_append, List.map_append]
      exact hperm.append hperm'

include hop in
/-- The number of segments up to the last tile, with the one of the item out of bounds. -/
theorem numSegments_eq (hnot : A.tileOffset tileIdx + A.numRemaining I tileIdx = I.numItems)
    (hpos : 0 < A.numRemaining I tileIdx) (hle : A.numRemaining I tileIdx ≤ A.tileItems) :
    numUniques I + (A.numSegmentsPrefix I tileIdx + (A.blockAggregate I tileIdx).1) =
      count (A.head keysIn) (P + I.numItems - 1) +
        if A.numRemaining I tileIdx = A.tileItems then 0 else 1 := by
  have hscanned := scanned_eq hop h hnot.le (by rw [hnot]; exact Nat.add_pos_right P h.numItems_pos)
  have hmono : count (A.head keysIn) (P - 1) ≤ count (A.head keysIn) (P + I.numItems - 1) :=
    count_mono (by have := h.numItems_pos; omega)
  obtain ⟨n, hn⟩ := Nat.exists_eq_succ_of_ne_zero hpos.ne'
  have hcount := congrArg Prod.fst hscanned
  rw [hnot, hn, scanned_succ_fst, ← Nat.succ_eq_add_one, ← hn] at hcount
  rw [h.numUniques, blockAggregate_fst]
  simp only [relative] at hcount
  split
  · rename_i hfull
    rw [← hfull]
    omega
  · rename_i hne
    -- only the first item out of bounds is counted besides
    obtain ⟨rest, hrest⟩ := Nat.exists_eq_add_of_lt (Nat.lt_of_le_of_ne hle hne)
    have hout : (List.range' (A.numRemaining I tileIdx + 1) rest).countP (A.headFlags I tileIdx) = 0 := by
      refine List.countP_eq_zero.mpr fun i hi => ?_
      obtain ⟨hle', -⟩ := List.mem_range'_1.mp hi
      rw [headFlags_outOfBounds h hpos (by omega) (by omega), decide_eq_true_eq]
      omega
    have hphantom : A.headFlags I tileIdx (A.numRemaining I tileIdx) = true := by
      rw [headFlags_outOfBounds h hpos (by omega) (Nat.le_refl _), decide_eq_true_eq]
    have hsplit : List.range A.tileItems = List.range (A.numRemaining I tileIdx) ++
        A.numRemaining I tileIdx :: List.range' (A.numRemaining I tileIdx + 1) rest := by
      rw [List.range_eq_range', List.range_eq_range', hrest, Nat.add_assoc,
        ← List.range'_append_1, Nat.zero_add, List.range'_succ]
    rw [hsplit, List.countP_append, List.countP_cons_of_pos hphantom, hout]
    omega

end Kernel

/-- What an invocation has to write. -/
structure Complete (A : Agent K V) (keysIn : ℕ → K) (valuesIn : ℕ → V) (P n : ℕ) (isLast : Bool)
    (out : Output K V) : Prop where
  writes : out.writes.Perm (((List.range' P n).filter (A.head keysIn)).map (A.entry keysIn valuesIn) ++
    if isLast then [A.entry keysIn valuesIn (P + n)] else [])
  numRuns : isLast = true → out.numRuns = some (count (A.head keysIn) (P + n - 1) + 1)
  prefixOut : isLast = false → out.prefixOut = some (A.running keysIn valuesIn (P + n - 1))
  accumulatedUniques : isLast = false →
    out.accumulatedUniques = some (count (A.head keysIn) (P + n - 1))

section Kernel

variable (hop : ∀ a b c, A.reductionOp (A.reductionOp a b) c = A.reductionOp a (A.reductionOp b c))
  (h : Covers A keysIn valuesIn P I)
include hop h

/-- The aggregate of all tiles is what the scan would leave for the item after them. -/
theorem totalAggregate_eq (hend : A.tileOffset tileIdx + A.tileItems = I.numItems) :
    (A.totalAggregate I tileIdx).2 = A.running keysIn valuesIn (P + I.numItems - 1) := by
  have hpos := A.tileItems_pos
  have hscanned := scanned_eq hop h hend.le (by rw [hend]; exact Nat.add_pos_right P h.numItems_pos)
  have htotal : A.totalAggregate I tileIdx = A.scanned I tileIdx A.tileItems := by
    obtain ⟨n, hn⟩ := Nat.exists_eq_succ_of_ne_zero hpos.ne'
    unfold totalAggregate scanned blockAggregate itemsAggregate
    rw [hn]
    split <;> rfl
  rw [htotal, hscanned, hend]
  rfl

/-- **All tiles of an invocation** write the segments that are closed there. -/
theorem kernel_spec :
    Complete A keysIn valuesIn P I.numItems (isLastPartition I) (A.kernel I (A.numTiles I)) := by
  have hpos := A.tileItems_pos
  obtain ⟨t, hnum⟩ : ∃ t, A.numTiles I = t + 1 := by
    refine Nat.exists_eq_succ_of_ne_zero (Nat.div_pos ?_ hpos).ne'
    have := h.numItems_pos
    omega
  -- the last tile begins before the end, and ends there or behind
  have hdiv := Nat.div_add_mod (I.numItems + (A.tileItems - 1)) A.tileItems
  have hmod := Nat.mod_lt (I.numItems + (A.tileItems - 1)) hpos
  rw [show (I.numItems + (A.tileItems - 1)) / A.tileItems = t + 1 from hnum, Nat.mul_succ] at hdiv
  have hstart : A.tileOffset t < I.numItems := by
    rw [tileOffset]
    omega
  have hle : A.numRemaining I t ≤ A.tileItems := by
    rw [numRemaining, tileOffset]
    omega
  have hremaining : 0 < A.numRemaining I t := Nat.sub_pos_of_lt hstart
  have hend : A.tileOffset t + A.numRemaining I t = I.numItems := Nat.add_sub_cancel' hstart.le
  have hisLast : A.isLastTile I t = true := by
    rw [isLastTile, decide_eq_false (by omega)]
    rfl
  obtain ⟨writes, hkernel, hperm⟩ := kernel_full hop h hstart
  have hscatter := (scatter_perm (A := A) (I := I) t).map fun w : ℕ × Option (K × V) => (numUniques I + w.1, w.2)
  change (shift I _).Perm (shift I _) at hscatter
  rw [shift_scatterDirect hop h hremaining] at hscatter
  have hnumSegments := numSegments_eq hop h hend hremaining hle
  have hwhole : List.range' P I.numItems =
      List.range' P (A.tileOffset t) ++ List.range' (P + A.tileOffset t) (A.numRemaining I t) := by
    rw [List.range'_append_1, hend]
  rw [hnum, kernel, hkernel, consumeRange, if_pos hremaining, consumeTile, hisLast, if_pos rfl]
  by_cases hfull : A.numRemaining I t = A.tileItems
  · -- the tile is full: the last thread closes the last segment
    rw [if_pos hfull, Nat.add_zero] at hnumSegments
    rw [flagged_full h hfull.ge] at hscatter
    have htile : A.tileOffset t + A.tileItems = I.numItems := by omega
    have hrunning := totalAggregate_eq hop h htile
    have hkey : A.keys I t (A.tileItems - 1) = keysIn (P + I.numItems - 1) := by
      rw [keys_eq h (by omega)]
      congr 1
      omega
    have hall := hperm.append hscatter
    rw [← List.map_append, ← List.filter_append, ← hfull, ← hwhole] at hall
    cases hpartition : isLastPartition I with
    | true =>
      refine ⟨?_, fun _ => ?_, fun hfalse => absurd hfalse (by simp), fun hfalse => absurd hfalse (by simp)⟩
      · simp only [Output.andThen, writeLast, hpartition, decide_eq_true hfull, Bool.and_self, if_true,
          hkey, hrunning, shift, List.map_cons, List.map_nil, hnumSegments]
        rw [← List.append_assoc]
        exact hall.append (List.Perm.refl _)
      · simp only [Output.andThen, writeLast, hpartition, decide_eq_true hfull, Bool.and_self, if_true,
          Option.some_or]
        rw [← Nat.add_assoc, hnumSegments]
    | false =>
      refine ⟨?_, fun htrue => absurd htrue (by simp), fun _ => ?_, fun _ => ?_⟩
      · simp only [Output.andThen, writeLast, hpartition, Bool.and_false, Bool.false_eq_true, if_false,
          List.append_nil]
        exact hall
      · simp [Output.andThen, writeLast, hpartition, hfull, hrunning]
      · simp only [Output.andThen, writeLast, hpartition, Bool.and_false, Bool.false_eq_true, if_false,
          hnumSegments, Option.some_or]
  · -- the first item out of bounds has closed it
    have hshort : A.numRemaining I t < A.tileItems := Nat.lt_of_le_of_ne hle hfull
    have hpartition : isLastPartition I = true := by
      by_contra hne
      have hdvd := (Nat.dvd_add_right (Nat.dvd_mul_right A.tileItems t)).mp
        (hend ▸ h.full (Bool.not_eq_true _ ▸ hne))
      exact absurd (Nat.le_of_dvd hremaining hdvd) (by omega)
    rw [if_neg hfull] at hnumSegments
    rw [flagged_short h hremaining hshort, List.map_append, List.map_singleton] at hscatter
    have hall := hperm.append hscatter
    rw [← List.append_assoc, ← List.map_append, ← List.filter_append, ← hwhole] at hall
    rw [hpartition]
    refine ⟨?_, fun _ => ?_, fun hfalse => absurd hfalse (by simp), fun hfalse => absurd hfalse (by simp)⟩
    · simp only [Output.andThen, writeLast, decide_eq_false hfull, Bool.false_and, Bool.false_eq_true,
        if_false, if_true, List.append_nil]
      exact hall
    · simp only [Output.andThen, writeLast, decide_eq_false hfull, Bool.false_and, Bool.false_eq_true,
        if_false, hpartition, if_true, Option.some_or, hnumSegments]

end Kernel

/-! ## 3. All partitions -/

/-- What the buffers hold when the partition from position `P` on is launched. -/
structure BuffersOk (A : Agent K V) (keysIn : ℕ → K) (valuesIn : ℕ → V) (partitionIdx P : ℕ)
    (b : Buffers V) : Prop where
  first : partitionIdx = 0 ↔ P = 0
  tmpPrefix : 0 < P → b.tmpPrefix (partitionIdx % 2) = A.running keysIn valuesIn (P - 1)
  tmpNumUniques : 0 < P → b.tmpNumUniques (partitionIdx % 2) = count (A.head keysIn) (P - 1)

section Partitions

variable {partitionIdx size : ℕ} {sizes : List ℕ} {b : Buffers V}

theorem Buffers.after_tmpPrefix (b : Buffers V) (i : ℕ) (out : Output K V) :
    (b.after i out).tmpPrefix i = out.prefixOut.getD (b.tmpPrefix i) := Function.update_self _ _ _

theorem Buffers.after_tmpNumUniques (b : Buffers V) (i : ℕ) (out : Output K V) :
    (b.after i out).tmpNumUniques i = out.accumulatedUniques.getD (b.tmpNumUniques i) :=
  Function.update_self _ _ _

theorem covers_partition (hsplit : IsSplit A.tileItems (size :: sizes))
    (hb : BuffersOk A keysIn valuesIn partitionIdx P b) :
    Covers A keysIn valuesIn P (partition keysIn valuesIn partitionIdx P size sizes.isEmpty b) where
  keys _ := rfl
  values _ := rfl
  numItems_pos := hsplit.pos
  full hlast := by
    cases sizes with
    | nil => exact absurd hlast (by simp [isLastPartition, partition])
    | cons size' sizes => exact hsplit.2.1
  first := by simp only [partition, Option.elim_some, hb.first]
  context hP c hc := by
    obtain rfl := Option.some_inj.mp hc
    exact ⟨if_neg (hb.first.not.mpr hP.ne'), hb.tmpPrefix hP, hb.tmpNumUniques hP⟩

theorem isLastPartition_partition : isLastPartition
    (partition keysIn valuesIn partitionIdx P size sizes.isEmpty b) = sizes.isEmpty := rfl

/-- **The partitions write all segments** from the start of the first one on, and close the last one. -/
theorem dispatchStreaming_spec
    (hop : ∀ a b c, A.reductionOp (A.reductionOp a b) c = A.reductionOp a (A.reductionOp b c)) :
    ∀ {sizes : List ℕ} {partitionIdx P : ℕ} {b : Buffers V}, IsSplit A.tileItems sizes →
    BuffersOk A keysIn valuesIn partitionIdx P b →
    Complete A keysIn valuesIn P sizes.sum true (A.dispatchStreaming keysIn valuesIn partitionIdx P sizes b)
  | [size], partitionIdx, P, b, hsplit, hb => by
    have hspec := kernel_spec hop (covers_partition hsplit hb)
    rw [isLastPartition_partition] at hspec
    refine ⟨?_, fun _ => ?_, fun hfalse => absurd hfalse (by simp), fun hfalse => absurd hfalse (by simp)⟩
    · rw [dispatchStreaming, dispatchStreaming, List.sum_singleton]
      simp only [Output.andThen, Output.empty, List.append_nil]
      exact hspec.writes
    · rw [dispatchStreaming, dispatchStreaming, List.sum_singleton]
      simp only [Output.andThen, Output.empty, Option.none_or]
      exact hspec.numRuns rfl
  | size :: size' :: sizes, partitionIdx, P, b, hsplit, hb => by
    have hpos : 0 < size := hsplit.1
    have hspec : Complete A keysIn valuesIn P size false _ := kernel_spec hop (covers_partition hsplit hb)
    have hnext : BuffersOk A keysIn valuesIn (partitionIdx + 1) (P + size)
        (b.after ((partitionIdx + 1) % 2) (A.kernel
          (partition keysIn valuesIn partitionIdx P size (size' :: sizes).isEmpty b)
          (A.numTiles (partition keysIn valuesIn partitionIdx P size (size' :: sizes).isEmpty b)))) := by
      refine ⟨by omega, fun _ => ?_, fun _ => ?_⟩
      · rw [Buffers.after_tmpPrefix, hspec.prefixOut rfl]
        rfl
      · rw [Buffers.after_tmpNumUniques, hspec.accumulatedUniques rfl]
        rfl
    have hrest := dispatchStreaming_spec hop hsplit.2.2 hnext
    refine ⟨?_, fun _ => ?_, fun hfalse => absurd hfalse (by simp), fun hfalse => absurd hfalse (by simp)⟩
    · have hwrites := hspec.writes.append hrest.writes
      simp only [Bool.false_eq_true, if_false, List.append_nil] at hwrites
      rw [← List.append_assoc, ← List.map_append, ← List.filter_append, List.range'_append_1,
        Nat.add_assoc] at hwrites
      rw [dispatchStreaming, List.sum_cons]
      exact hwrites
    · rw [dispatchStreaming, List.sum_cons, ← Nat.add_assoc, Output.andThen, hrest.numRuns rfl]
      rfl

end Partitions

/-! ## 4. The segments of the input -/

/-- What is to be written for a segment: its last key and the fold of its values, in their order. -/
def aggregate (A : Agent K V) (keysIn : ℕ → K) (valuesIn : ℕ → V) : List ℕ → Option (K × V)
  | [] => none
  | i :: is => some (keysIn ((i :: is).getLast (List.cons_ne_nil i is)),
      is.foldl (fun v j => A.reductionOp v (valuesIn j)) (valuesIn i))

/-- The segments are the groups of neighbours with keys that are the same. -/
def expected (A : Agent K V) (keysIn : ℕ → K) (valuesIn : ℕ → V) (n : ℕ) : List (Option (K × V)) :=
  ((List.range n).splitBy fun i j => A.equalityOp (keysIn i) (keysIn j)).map
    (A.aggregate keysIn valuesIn)

theorem aggregate_positions (i : ℕ) : A.aggregate keysIn valuesIn
    (positions (start (A.head keysIn) i, i + 1)) = some (keysIn i, A.running keysIn valuesIn i) := by
  have hle : start (A.head keysIn) i ≤ i := start_le i
  have hlast : (positions (start (A.head keysIn) i, i + 1)).getLast? = some i := by
    rw [positions_start_succ, List.getLast?_concat]
  have hcons : positions (start (A.head keysIn) i, i + 1) =
      start (A.head keysIn) i ::
        List.range' (start (A.head keysIn) i + 1) (i - start (A.head keysIn) i) := by
    rw [positions, Nat.succ_sub hle, List.range'_succ]
  rw [hcons] at hlast ⊢
  rw [List.getLast?_eq_some_getLast (List.cons_ne_nil _ _)] at hlast
  rw [aggregate, Option.some_inj.mp hlast, foldl_range']
  rfl

/-- The entries of the heads, and of the end, are those of the segments. -/
theorem expected_zipIdx (n : ℕ) : ((A.expected keysIn valuesIn (n + 1)).zipIdx.map Prod.swap) =
    ((List.range' 0 (n + 1)).filter (A.head keysIn)).map (A.entry keysIn valuesIn) ++
      [A.entry keysIn valuesIn (n + 1)] := by
  have hhead : ∀ i, A.head keysIn (i + 1) = !A.equalityOp (keysIn i) (keysIn (i + 1)) := by
    intro i
    simp only [head, Nat.succ_pos, decide_true, Bool.true_and, Nat.add_sub_cancel]
  have hfirst : (List.range' 0 (n + 1)).filter (A.head keysIn) =
      (List.range' 1 n).filter (A.head keysIn) := by
    rw [List.range'_succ, List.filter_cons_of_neg (by simp [head])]
  rw [expected, splitBy_range hhead, List.map_map, segments, List.map_append, List.zipIdx_append,
    List.map_append, hfirst, List.length_map, length_closed, Nat.zero_add]
  refine congrArg₂ _ ?_ ?_
  · rw [List.zipIdx_map, closed_zipIdx, List.map_map, List.map_map]
    refine List.map_congr_left fun i hi => ?_
    obtain ⟨j, rfl⟩ : ∃ j, i = j + 1 := by
      have hmem := (List.mem_range'_1.mp (List.mem_of_mem_filter hi)).1
      exact Nat.exists_eq_add_of_le' hmem
    simp only [Function.comp_apply, Prod.map_apply, id_eq, Prod.swap_prod_mk, Nat.add_sub_cancel,
      aggregate_positions, entry]
  · simp only [List.map_cons, List.map_nil, List.zipIdx_singleton, Function.comp_apply, Prod.swap_prod_mk,
      aggregate_positions, entry, Nat.add_sub_cancel]

theorem length_expected (n : ℕ) : (A.expected keysIn valuesIn (n + 1)).length =
    count (A.head keysIn) n + 1 := by
  have hlength := congrArg List.length (@expected_zipIdx _ _ A keysIn valuesIn n)
  have hclosed := congrArg List.length (@closed_zipIdx (A.head keysIn) n)
  rw [List.length_map, List.length_zipIdx, List.length_append, List.length_map, List.length_singleton] at hlength
  rw [List.length_zipIdx, length_closed, List.length_map] at hclosed
  rw [hlength, hclosed, List.range'_succ, List.filter_cons_of_neg (by simp [head])]

/-- What is promised for an input of `n` items: the segments are written in order, each slot once, and so is
their number. -/
structure Exact (A : Agent K V) (keysIn : ℕ → K) (valuesIn : ℕ → V) (n : ℕ) (out : Output K V) : Prop where
  writes : out.writes.Perm ((A.expected keysIn valuesIn n).zipIdx.map Prod.swap)
  numRuns : out.numRuns = some (A.expected keysIn valuesIn n).length

theorem Complete.exact {n : ℕ} {out : Output K V} (hn : 0 < n)
    (h : Complete A keysIn valuesIn 0 n true out) : Exact A keysIn valuesIn n out := by
  obtain ⟨m, rfl⟩ := Nat.exists_eq_succ_of_ne_zero hn.ne'
  have hwrites := h.writes
  have hnumRuns := h.numRuns rfl
  rw [Nat.zero_add] at hwrites hnumRuns
  refine ⟨?_, ?_⟩
  · rw [expected_zipIdx]
    exact hwrites
  · rw [hnumRuns, length_expected]
    rfl

/-- **Reduce-by-key is exact**, for every split of the input into partitions, and without partitions. -/
theorem reduceByKey_exact (A : Agent K V)
    (hop : ∀ a b c, A.reductionOp (A.reductionOp a b) c = A.reductionOp a (A.reductionOp b c))
    (keysIn : ℕ → K) (valuesIn : ℕ → V) :
    (∀ (sizes : List ℕ) (b : Buffers V), IsSplit A.tileItems sizes →
      Exact A keysIn valuesIn sizes.sum (A.dispatchStreaming keysIn valuesIn 0 0 sizes b)) ∧
    ∀ n, 0 < n → Exact A keysIn valuesIn n (A.dispatch keysIn valuesIn n) := by
  refine ⟨fun sizes b hsplit => ?_, fun n hn => ?_⟩
  · refine Complete.exact hsplit.sum_pos (dispatchStreaming_spec hop hsplit ⟨Iff.rfl, ?_, ?_⟩)
    · exact fun hfalse => absurd hfalse (by simp)
    · exact fun hfalse => absurd hfalse (by simp)
  · have hcovers : Covers A keysIn valuesIn 0 ⟨keysIn, valuesIn, n, none⟩ := {
      keys i := by rw [Nat.zero_add]
      values i := by rw [Nat.zero_add]
      numItems_pos := hn
      full hlast := absurd hlast (by simp [isLastPartition])
      first := rfl
      context hP := absurd hP (by simp) }
    exact (kernel_spec hop hcovers).exact hn

/-- An agent that adds, with tiles of four items. -/
def sums : Agent ℕ ℕ where
  blockThreads := 2
  itemsPerThread := 2
  equalityOp a b := a == b
  reductionOp a b := a + b
  unsetKeys _ := 0
  unsetValues _ := 0
  unsetItem := (0, 0)
  blockThreads_pos := Nat.two_pos
  itemsPerThread_pos := Nat.two_pos

/-- Seven items in partitions of four and three: a segment goes over the border. -/
theorem reduceByKey_exact_sums :
    Exact sums (fun i => i / 3) (fun i => i + 1) 7
      (sums.dispatchStreaming (fun i => i / 3) (fun i => i + 1) 0 0 [4, 3] ⟨fun _ => 0, fun _ => 0⟩) ∧
    sums.expected (fun i => i / 3) (fun i => i + 1) 7 = [some (0, 6), some (1, 15), some (2, 7)] :=
  ⟨(reduceByKey_exact sums Nat.add_assoc (fun i => i / 3) (fun i => i + 1)).1 [4, 3] _
    ⟨by decide, by decide, Nat.zero_lt_succ 2⟩, by decide⟩

end Cccl.ReduceByKey.Agent
