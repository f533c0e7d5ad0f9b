/-
# The runs of a sequence

A run is a group of neighbours that are equal, and a run of more than one item is to be written.  What the
scan finds at a position, if it starts at the first item, is the number of such runs that start before it, and
how many items the last of them has so far (`state`).  So the starts of runs write all offsets, and each start
writes the length of the run before; the last length is the state at the end (`written_runs`).
-/
import Cccl.Rle.Agent

namespace Cccl.Rle

open Segments

/-! ## 1. The scan -/

theorem scanOp_assoc (a b c : LengthOffsetPair) : scanOp (scanOp a b) c = scanOp a (scanOp b c) :=
  segmentedOp_assoc Nat.add_assoc a b c

theorem scanOp_identity_left (a : LengthOffsetPair) : scanOp identity a = a := segmentedOp_add_left a

theorem scanOp_identity_right (a : LengthOffsetPair) : scanOp a identity = a := segmentedOp_add_right a

/-- Items, and how they are compared. -/
structure Sequence (T : Type*) where
  equalityOp : T → T → Bool
  input : ℕ → T
  numItems : ℕ

namespace Sequence

variable {T : Type*} (S : Sequence T)

def isHead (i : ℕ) : Bool := decide (i = 0) || !S.equalityOp (S.input (i - 1)) (S.input i)

def isTail (i : ℕ) : Bool := decide (i + 1 = S.numItems) || !S.equalityOp (S.input i) (S.input (i + 1))

/-- Whether a run of more than one item starts at a position. -/
def starts (i : ℕ) : Bool := S.isHead i && !S.isTail i

/-- What is scanned. -/
def item (i : ℕ) : LengthOffsetPair := ((S.starts i).toNat, (!S.isHead i || !S.isTail i).toNat)

/-- What the scan has found before a position. -/
def state (i : ℕ) : LengthOffsetPair := foldFrom scanOp identity S.item 0 i

theorem state_succ (i : ℕ) : S.state (i + 1) = scanOp (S.state i) (S.item i) := by
  rw [state, foldFrom_succ, Nat.zero_add]
  rfl

theorem state_succ_fst (i : ℕ) : (S.state (i + 1)).1 = (S.state i).1 + (S.starts i).toNat := by
  rw [state_succ]
  rfl

theorem state_succ_snd_of_starts {i : ℕ} (h : S.starts i = true) : (S.state (i + 1)).2 = 1 := by
  have htail : S.isTail i = false := by
    rw [starts, Bool.and_eq_true, Bool.not_eq_true'] at h
    exact h.2
  rw [state_succ, scanOp, segmentedOp, item, h, htail, Bool.not_false, Bool.or_true]
  rfl

theorem state_succ_snd_of_not {i : ℕ} (h : S.starts i = false) :
    (S.state (i + 1)).2 = (S.state i).2 + (S.item i).2 := by
  rw [state_succ, scanOp, segmentedOp, item, h]
  rfl

theorem state_fst (i : ℕ) : (S.state i).1 = (List.range i).countP S.starts := by
  induction i with
  | zero => rfl
  | succ i ih =>
    rw [state_succ_fst, ih, List.range_succ, List.countP_append]
    cases h : S.starts i <;> simp [h]

/-! ## 2. What is to be written, and what the starts write -/

/-- The runs of more than one item, as lists of their positions. -/
def runs : List (List ℕ) :=
  ((List.range S.numItems).splitBy fun i j => S.equalityOp (S.input i) (S.input j)).filter
    fun run => 1 < run.length

/-- The offsets of runs, each at its number. -/
def offsetsOf (runs : List (List ℕ)) : List (ℕ × Option ℕ) := runs.zipIdx.map fun r => (r.2, r.1.head?)

/-- The lengths of runs, each at its number. -/
def lengthsOf (runs : List (List ℕ)) : List (ℕ × Option ℕ) :=
  runs.zipIdx.map fun r => (r.2, some r.1.length)

/-- What an item writes: the offset of the run that starts there. -/
def startOffset (i : ℕ) : List (ℕ × Option ℕ) := if S.starts i then [((S.state i).1, some i)] else []

/-- The length of the last run before a position. -/
def lastLength (i : ℕ) : List (ℕ × Option ℕ) :=
  if 0 < (S.state i).1 then [((S.state i).1 - 1, some (S.state i).2)] else []

/-- What an item writes: the length of the run before the one that starts there. -/
def startLength (i : ℕ) : List (ℕ × Option ℕ) := if S.starts i then S.lastLength i else []

def startOffsets (lo n : ℕ) : List (ℕ × Option ℕ) := (List.range' lo n).flatMap S.startOffset

def startLengths (lo n : ℕ) : List (ℕ × Option ℕ) := (List.range' lo n).flatMap S.startLength

/-! ## 3. One position after the other -/

/-- The runs up to a position: of the last one there is a part. -/
def runsTo (i : ℕ) : List (List ℕ) :=
  ((closed S.isHead i).map positions).filter (fun run => 1 < run.length) ++
    if S.isHead i && S.isTail i then [] else [positions (start S.isHead i, i + 1)]

theorem isHead_succ (i : ℕ) : S.isHead (i + 1) = !S.equalityOp (S.input i) (S.input (i + 1)) := by
  simp [isHead]

theorem isTail_of_lt {i : ℕ} (h : i + 1 < S.numItems) : S.isTail i = S.isHead (i + 1) := by
  rw [isTail, decide_eq_false h.ne, Bool.false_or, isHead_succ]

theorem start_eq_iff : ∀ i, start S.isHead i = i ↔ S.isHead i = true
  | 0 => ⟨fun _ => rfl, fun _ => rfl⟩
  | i + 1 => by
    rw [start]
    have : start S.isHead i ≤ i := start_le i
    split
    · simp_all
    · rename_i h
      exact ⟨fun heq => by omega, fun htrue => absurd htrue h⟩

theorem length_positions (i : ℕ) : (positions (start S.isHead i, i + 1)).length = i + 1 - start S.isHead i :=
  List.length_range'

/-- The run of a position that is a head and a tail has one item. -/
theorem one_lt_length_iff (i : ℕ) :
    1 < (positions (start S.isHead i, i + 1)).length ↔ S.isHead i = false := by
  have : start S.isHead i ≤ i := start_le i
  have hiff := S.start_eq_iff i
  rw [length_positions]
  cases h : S.isHead i with
  | true =>
    have := hiff.mpr h
    simp only [Bool.true_eq_false, iff_false]
    omega
  | false =>
    have : start S.isHead i ≠ i := fun heq => by simp [hiff.mp heq] at h
    simp only [iff_true]
    omega

theorem offsetsOf_append (rs rs' : List (List ℕ)) : offsetsOf (rs ++ rs') =
    offsetsOf rs ++ (rs'.zipIdx rs.length).map fun r => (r.2, r.1.head?) := by
  rw [offsetsOf, List.zipIdx_append, List.map_append, Nat.zero_add]
  rfl

theorem lengthsOf_append (rs rs' : List (List ℕ)) : lengthsOf (rs ++ rs') =
    lengthsOf rs ++ (rs'.zipIdx rs.length).map fun r => (r.2, some r.1.length) := by
  rw [lengthsOf, List.zipIdx_append, List.map_append, Nat.zero_add]
  rfl

/-- What is written for the items up to a position, with the last length. -/
structure WrittenTo (i : ℕ) : Prop where
  count : (S.state (i + 1)).1 = (S.runsTo i).length
  offsets : S.startOffsets 0 (i + 1) = offsetsOf (S.runsTo i)
  lengths : S.startLengths 0 (i + 1) ++ S.lastLength (i + 1) = lengthsOf (S.runsTo i)

theorem writtenTo_zero : S.WrittenTo 0 := by
  have hhead : S.isHead 0 = true := rfl
  have hstate : S.state 0 = (0, 0) := rfl
  cases htail : S.isTail 0 with
  | true =>
    have hstarts : S.starts 0 = false := by rw [starts, htail, Bool.not_true, Bool.and_false]
    have hruns : S.runsTo 0 = [] := by simp [runsTo, closed, hhead, htail]
    have hcount : (S.state 1).1 = 0 := by rw [state_succ_fst, hstate, hstarts]; rfl
    refine ⟨by rw [hruns, hcount]; rfl, ?_, ?_⟩
    · simp [startOffsets, startOffset, hstarts, hruns, offsetsOf]
    · simp [startLengths, startLength, lastLength, hstarts, hruns, hcount, lengthsOf]
  | false =>
    have hstarts : S.starts 0 = true := by rw [starts, hhead, htail]; rfl
    have hruns : S.runsTo 0 = [[0]] := by
      simp [runsTo, closed, hhead, htail, start, positions]
    have hcount : (S.state 1).1 = 1 := by rw [state_succ_fst, hstate, hstarts]; rfl
    have hlength : (S.state 1).2 = 1 := S.state_succ_snd_of_starts hstarts
    refine ⟨by rw [hruns, hcount]; rfl, ?_, ?_⟩
    · simp [startOffsets, startOffset, hstarts, hruns, offsetsOf, hstate]
    · simp [startLengths, startLength, lastLength, hstarts, hruns, hcount, hlength, lengthsOf, hstate]

theorem startOffsets_succ (lo n : ℕ) :
    S.startOffsets lo (n + 1) = S.startOffsets lo n ++ S.startOffset (lo + n) := by
  rw [startOffsets, List.range'_concat, List.flatMap_append, List.flatMap_singleton, Nat.one_mul]
  rfl

theorem startLengths_succ (lo n : ℕ) :
    S.startLengths lo (n + 1) = S.startLengths lo n ++ S.startLength (lo + n) := by
  rw [startLengths, List.range'_concat, List.flatMap_append, List.flatMap_singleton, Nat.one_mul]
  rfl

variable {S} {i : ℕ}

theorem WrittenTo.continue (h : S.WrittenTo i) (hi : i + 1 < S.numItems) (hhead : S.isHead (i + 1) = false) :
    S.WrittenTo (i + 1) := by
  have htail : S.isTail i = false := by rw [S.isTail_of_lt hi, hhead]
  have hstarts : S.starts (i + 1) = false := by rw [starts, hhead]; rfl
  have hpositions : positions (start S.isHead (i + 1), i + 1 + 1) =
      positions (start S.isHead i, i + 1) ++ [i + 1] := by
    rw [start, hhead, if_neg Bool.false_ne_true, positions_succ (Nat.le_succ_of_le (start_le i))]
  have hruns := h.count
  have hoffsets := h.offsets
  have hlengths := h.lengths
  have hnext : S.runsTo (i + 1) = ((closed S.isHead i).map positions).filter (fun run => 1 < run.length) ++
      [positions (start S.isHead i, i + 1) ++ [i + 1]] := by
    rw [runsTo, hpositions, closed, hhead]
    simp
  rw [runsTo, htail, Bool.and_false, if_neg Bool.false_ne_true] at hruns hoffsets hlengths
  rw [List.length_append, List.length_singleton] at hruns
  have hlast : S.lastLength (i + 1) = [((S.state (i + 1)).1 - 1, some (S.state (i + 1)).2)] := by
    rw [lastLength, if_pos (by omega)]
  rw [hlast, lengthsOf_append] at hlengths
  obtain ⟨hbefore, hlength⟩ := List.append_inj' hlengths rfl
  have hcount : (S.state (i + 1 + 1)).1 = (S.state (i + 1)).1 := by rw [state_succ_fst, hstarts]; rfl
  have hsum : (S.state (i + 1 + 1)).2 = (S.state (i + 1)).2 + 1 := by
    rw [state_succ_snd_of_not S hstarts, item, hhead]
    rfl
  refine ⟨?_, ?_, ?_⟩
  · rw [hcount, hruns, hnext, List.length_append, List.length_singleton]
  · rw [startOffsets_succ, Nat.zero_add, startOffset, hstarts, if_neg Bool.false_ne_true, List.append_nil,
      hoffsets, hnext, offsetsOf_append, offsetsOf_append]
    have hne : positions (start S.isHead i, i + 1) ≠ [] := by
      rw [positions_start_succ]
      simp
    simp [List.head?_append_of_ne_nil _ hne]
  · rw [startLengths_succ, Nat.zero_add, startLength, hstarts, if_neg Bool.false_ne_true, List.append_nil,
      hbefore, hnext, lengthsOf_append, lastLength, hcount, if_pos (by omega), hsum]
    simp only [List.zipIdx_singleton, List.map_cons, List.map_nil, List.cons.injEq, Prod.mk.injEq,
      Option.some.injEq, and_true, List.length_append, List.length_singleton, List.append_cancel_left_eq] at hlength ⊢
    omega

theorem runsTo_closed (hi : i + 1 < S.numItems) (hhead : S.isHead (i + 1) = true) :
    ((closed S.isHead (i + 1)).map positions).filter (fun run => 1 < run.length) = S.runsTo i := by
  have htail : S.isTail i = true := by rw [S.isTail_of_lt hi, hhead]
  have hiff := S.one_lt_length_iff i
  rw [runsTo, closed, hhead, if_pos rfl, List.map_append, List.filter_append, List.map_singleton, htail,
    Bool.and_true]
  congr 1
  cases h : S.isHead i with
  | true => rw [if_pos rfl, List.filter_cons_of_neg (by simp [hiff, h]), List.filter_nil]
  | false => rw [if_neg Bool.false_ne_true, List.filter_cons_of_pos (by simp [hiff, h]), List.filter_nil]

theorem WrittenTo.skip (h : S.WrittenTo i) (hi : i + 1 < S.numItems) (hhead : S.isHead (i + 1) = true)
    (htail : S.isTail (i + 1) = true) : S.WrittenTo (i + 1) := by
  have hstarts : S.starts (i + 1) = false := by rw [starts, hhead, htail]; rfl
  have hnext : S.runsTo (i + 1) = S.runsTo i := by
    rw [runsTo, runsTo_closed hi hhead, hhead, htail]
    simp
  have hcount : (S.state (i + 1 + 1)).1 = (S.state (i + 1)).1 := by rw [state_succ_fst, hstarts]; rfl
  have hsum : (S.state (i + 1 + 1)).2 = (S.state (i + 1)).2 := by
    rw [state_succ_snd_of_not S hstarts, item, hhead, htail]
    rfl
  refine ⟨by rw [hcount, hnext, h.count], ?_, ?_⟩
  · rw [startOffsets_succ, Nat.zero_add, startOffset, hstarts, if_neg Bool.false_ne_true, List.append_nil,
      hnext, h.offsets]
  · rw [startLengths_succ, Nat.zero_add, startLength, hstarts, if_neg Bool.false_ne_true, List.append_nil,
      hnext, ← h.lengths, lastLength, hcount, hsum]
    rfl

/-- The start of a run writes its offset, and the length of the run before. -/
theorem WrittenTo.start (h : S.WrittenTo i) (hi : i + 1 < S.numItems) (hhead : S.isHead (i + 1) = true)
    (htail : S.isTail (i + 1) = false) : S.WrittenTo (i + 1) := by
  have hstarts : S.starts (i + 1) = true := by rw [starts, hhead, htail]; rfl
  have hnext : S.runsTo (i + 1) = S.runsTo i ++ [[i + 1]] := by
    rw [runsTo, runsTo_closed hi hhead, hhead, htail, Segments.start, hhead]
    simp [positions]
  have hcount : (S.state (i + 1 + 1)).1 = (S.state (i + 1)).1 + 1 := by rw [state_succ_fst, hstarts]; rfl
  have hone : (S.state (i + 1 + 1)).2 = 1 := S.state_succ_snd_of_starts hstarts
  refine ⟨?_, ?_, ?_⟩
  · rw [hcount, hnext, h.count, List.length_append, List.length_singleton]
  · rw [startOffsets_succ, Nat.zero_add, startOffset, hstarts, if_pos rfl, h.offsets, hnext, offsetsOf_append,
      h.count]
    rfl
  · rw [startLengths_succ, Nat.zero_add, startLength, hstarts, if_pos rfl, h.lengths, hnext, lengthsOf_append,
      lastLength, hcount, if_pos (Nat.succ_pos _), hone, h.count]
    rfl

/-- **What is written up to each position.** -/
theorem writtenTo (S : Sequence T) : ∀ {i}, i < S.numItems → S.WrittenTo i
  | 0, _ => S.writtenTo_zero
  | i + 1, hi => by
    have ih := writtenTo S (i := i) (by omega)
    cases hhead : S.isHead (i + 1) with
    | false => exact ih.continue hi hhead
    | true =>
      cases htail : S.isTail (i + 1) with
      | true => exact ih.skip hi hhead htail
      | false => exact ih.start hi hhead htail

theorem runsTo_last (hi : i + 1 = S.numItems) : S.runsTo i = S.runs := by
  have htail : S.isTail i = true := by rw [isTail, decide_eq_true hi, Bool.true_or]
  have hiff := S.one_lt_length_iff i
  rw [runs, ← hi, @splitBy_range S.isHead _ S.isHead_succ, segments, List.map_append, List.filter_append,
    List.map_singleton, runsTo, htail, Bool.and_true]
  congr 1
  cases h : S.isHead i with
  | true => rw [if_pos rfl, List.filter_cons_of_neg (by simp [hiff, h]), List.filter_nil]
  | false => rw [if_neg Bool.false_ne_true, List.filter_cons_of_pos (by simp [hiff, h]), List.filter_nil]

/-- **The starts write all runs**, with the last length, and their number is that of the scan. -/
theorem written_runs (h : 0 < S.numItems) : (S.state S.numItems).1 = S.runs.length ∧
    S.startOffsets 0 S.numItems = offsetsOf S.runs ∧
    S.startLengths 0 S.numItems ++ S.lastLength S.numItems = lengthsOf S.runs := by
  obtain ⟨i, hi⟩ := Nat.exists_eq_succ_of_ne_zero h.ne'
  have hwritten := S.writtenTo (i := i) (by omega)
  rw [hi, Nat.succ_eq_add_one, ← S.runsTo_last hi.symm]
  exact ⟨hwritten.count, hwritten.offsets, hwritten.lengths⟩

theorem state_snd_eq_zero (S : Sequence T) : ∀ {i}, i ≤ S.numItems → (S.state i).1 = 0 → (S.state i).2 = 0
  | 0, _, _ => rfl
  | i + 1, hi, hzero => by
    have hruns := (S.writtenTo (i := i) (by omega)).count
    rw [hzero] at hruns
    rw [S.state_succ_fst] at hzero
    have hstarts : S.starts i = false := by
      cases hs : S.starts i with
      | true => rw [hs] at hzero; exact absurd hzero (by simp)
      | false => rfl
    -- the item is a run of its own
    have halone : (S.isHead i && S.isTail i) = true := by
      by_contra hne
      rw [runsTo, if_neg hne, List.length_append, List.length_singleton] at hruns
      omega
    rw [Bool.and_eq_true] at halone
    rw [S.state_succ_snd_of_not hstarts, item, halone.1, halone.2, S.state_snd_eq_zero (by omega) (by omega)]
    rfl

end Sequence

end Cccl.Rle
