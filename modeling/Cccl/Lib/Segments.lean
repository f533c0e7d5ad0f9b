/-
# Segments between heads

Some positions of a sequence are heads: a segment starts there.  Position 0 starts the first segment.  The
segment of a position is known from the number of heads up to it (`count`) and from the last head (`start`).
The segments that end before a position are listed by the heads up to it (`closed`), one for each, and
`count` of them (`length_closed`).

If the heads are the positions that are not related to their predecessors, then these are the groups that
`List.splitBy` finds (`splitBy_range`).

A segmented fold has a count and a value for each position: the number of heads, and the fold of the values
from the last head on.  If heads are flagged, both are found by one fold, with an operation that forgets what
is before a flag (`fold1_segmented`).  That operation is associative if the one on values is
(`segmentedOp_assoc`).
-/
import Cccl.Lib.Fold
import Mathlib.Data.List.SplitBy
import Mathlib.Data.List.Range
import Mathlib.Algebra.Ring.Nat

namespace Cccl.Segments

/-! ## 1. The segment of a position -/

/-- How many heads there are at the positions `1, ..., i`. -/
def count (head : ℕ → Bool) : ℕ → ℕ
  | 0 => 0
  | i + 1 => count head i + (head (i + 1)).toNat

/-- The start of the segment of a position. -/
def start (head : ℕ → Bool) : ℕ → ℕ
  | 0 => 0
  | i + 1 => if head (i + 1) then i + 1 else start head i

/-- The segments that end at a head up to position `i`, as pairs of the start and the end. -/
def closed (head : ℕ → Bool) : ℕ → List (ℕ × ℕ)
  | 0 => []
  | i + 1 => closed head i ++ if head (i + 1) then [(start head i, i + 1)] else []

/-- All segments of the positions below `n`. -/
def segments (head : ℕ → Bool) : ℕ → List (ℕ × ℕ)
  | 0 => []
  | i + 1 => closed head i ++ [(start head i, i + 1)]

variable {head : ℕ → Bool}

theorem start_le : ∀ i, start head i ≤ i
  | 0 => Nat.le_refl 0
  | i + 1 => by
    unfold start
    split
    · exact Nat.le_refl _
    · exact (start_le i).trans (Nat.le_succ i)

theorem length_closed : ∀ i, (closed head i).length = count head i
  | 0 => rfl
  | i + 1 => by
    rw [closed, count, List.length_append, length_closed i]
    cases head (i + 1) <;> rfl

theorem count_mono {i j : ℕ} (h : i ≤ j) : count head i ≤ count head j := by
  induction j, h using Nat.le_induction with
  | base => exact Nat.le_refl _
  | succ j _ ih => exact ih.trans (Nat.le_add_right _ _)

/-- The heads, each with the number of the segment that ends there. -/
theorem closed_zipIdx : ∀ i, (closed head i).zipIdx =
    ((List.range' 1 i).filter fun j => head j).map fun j =>
      ((start head (j - 1), j), count head (j - 1))
  | 0 => rfl
  | i + 1 => by
    rw [closed, List.zipIdx_append, closed_zipIdx i, List.range'_concat, List.filter_append,
      List.map_append, Nat.zero_add, length_closed, Nat.one_mul, Nat.add_comm 1 i]
    cases hhead : head (i + 1) <;> simp [hhead]

/-! ## 2. The groups that `splitBy` finds -/

section SplitBy

variable {r : ℕ → ℕ → Bool}

/-- The positions of a segment. -/
def positions (s : ℕ × ℕ) : List ℕ := List.range' s.1 (s.2 - s.1)

theorem positions_succ {a b : ℕ} (h : a ≤ b) : positions (a, b + 1) = positions (a, b) ++ [b] := by
  rw [positions, positions, Nat.succ_sub h, List.range'_concat]
  congr 2
  omega

theorem positions_start_succ (i : ℕ) :
    positions (start head i, i + 1) = positions (start head i, i) ++ [i] := positions_succ (start_le i)

theorem flatten_closed : ∀ i, ((closed head i).map positions).flatten ++ positions (start head i, i + 1) =
    List.range (i + 1)
  | 0 => rfl
  | i + 1 => by
    rw [List.range_succ, ← flatten_closed i, closed, start]
    split
    · rw [List.map_append, List.flatten_append, positions_succ (Nat.le_refl _)]
      simp [positions]
    · rw [List.append_nil, positions_succ (Nat.le_succ_of_le (start_le i)), List.append_assoc]

theorem closed_ne_nil : ∀ i, ∀ s ∈ closed head i, positions s ≠ []
  | i + 1, s, hs => by
    rw [closed, List.mem_append] at hs
    rcases hs with hs | hs
    · exact closed_ne_nil i s hs
    · split at hs
      · rw [List.mem_singleton.mp hs, positions_start_succ]
        simp
      · exact absurd hs List.not_mem_nil

theorem isChain_open (h : ∀ i, head (i + 1) = !r i (i + 1)) :
    ∀ i, (positions (start head i, i + 1)).IsChain fun x y => r x y = true
  | 0 => List.IsChain.singleton _
  | i + 1 => by
    rw [start]
    split
    · rw [positions_succ (Nat.le_refl _)]
      simp [positions]
    · rename_i hhead
      rw [positions_succ (Nat.le_succ_of_le (start_le i))]
      refine List.isChain_append.mpr ⟨isChain_open h i, List.IsChain.singleton _, fun x hx y hy => ?_⟩
      rw [positions_start_succ, List.getLast?_concat] at hx
      obtain rfl := Option.some_inj.mp hx
      obtain rfl := Option.some_inj.mp hy
      simpa [h i] using hhead

theorem isChain_closed (h : ∀ i, head (i + 1) = !r i (i + 1)) :
    ∀ i, ∀ s ∈ closed head i, (positions s).IsChain fun x y => r x y = true
  | i + 1, s, hs => by
    rw [closed, List.mem_append] at hs
    rcases hs with hs | hs
    · exact isChain_closed h i s hs
    · split at hs
      · rw [List.mem_singleton.mp hs]
        exact isChain_open h i
      · exact absurd hs List.not_mem_nil

/-- The last of the closed segments ends where the open one starts. -/
theorem last_closed (h : ∀ i, head (i + 1) = !r i (i + 1)) :
    ∀ i, ∀ m ∈ ((closed head i).map positions).getLast?,
      ∃ ha hb, r (m.getLast ha) ((positions (start head i, i + 1)).head hb) = false
  | i + 1, m, hm => by
    rw [closed] at hm
    rw [start]
    split at hm
    · rename_i hhead
      rw [List.map_append, List.map_singleton, List.getLast?_concat] at hm
      obtain rfl := Option.some_inj.mp hm
      rw [if_pos hhead]
      refine ⟨by rw [positions_start_succ]; simp, by rw [positions_succ (Nat.le_refl _)]; simp, ?_⟩
      have hlast : (positions (start head i, i + 1)).getLast (by rw [positions_start_succ]; simp) = i := by
        simp only [positions_start_succ, List.getLast_append_singleton]
      rw [hlast]
      rw [h i] at hhead
      simpa [positions] using hhead
    · rename_i hhead
      rw [List.append_nil] at hm
      rw [if_neg hhead]
      obtain ⟨ha, hb, hr⟩ := last_closed h i m hm
      refine ⟨ha, by rw [positions_succ (Nat.le_succ_of_le (start_le i))]; simp, ?_⟩
      simp only [positions_succ (Nat.le_succ_of_le (start_le i))]
      rw [List.head_append_of_ne_nil hb]
      exact hr

theorem isChain_ends (h : ∀ i, head (i + 1) = !r i (i + 1)) :
    ∀ i, ((closed head i).map positions).IsChain
      fun a b => ∃ ha hb, r (a.getLast ha) (b.head hb) = false
  | 0 => List.IsChain.nil
  | i + 1 => by
    rw [closed]
    split
    · rw [List.map_append, List.map_singleton]
      refine List.isChain_append.mpr ⟨isChain_ends h i, List.IsChain.singleton _, fun m hm m' hm' => ?_⟩
      obtain rfl := Option.some_inj.mp hm'
      exact last_closed h i m hm
    · rw [List.append_nil]
      exact isChain_ends h i

/-- **Segments are the groups of `splitBy`**, if the heads are not related to their predecessors. -/
theorem splitBy_range (h : ∀ i, head (i + 1) = !r i (i + 1)) :
    ∀ n, (List.range n).splitBy r = (segments head n).map positions
  | 0 => rfl
  | n + 1 => by
    rw [segments, List.map_append, List.map_singleton]
    refine List.splitBy_eq_iff.mpr ⟨?_, ?_, ?_, ?_⟩
    · rw [List.flatten_append, List.flatten_singleton]
      exact (flatten_closed n).symm
    · rw [List.mem_append, not_or, List.mem_singleton, positions_start_succ]
      refine ⟨fun hmem => ?_, by simp⟩
      obtain ⟨s, hs, hnil⟩ := List.mem_map.mp hmem
      exact closed_ne_nil n s hs hnil
    · intro m hm
      rcases List.mem_append.mp hm with hm | hm
      · obtain ⟨s, hs, rfl⟩ := List.mem_map.mp hm
        exact isChain_closed h n s hs
      · rw [List.mem_singleton.mp hm]
        exact isChain_open h n
    · refine List.isChain_append.mpr ⟨isChain_ends h n, List.IsChain.singleton _, fun m hm m' hm' => ?_⟩
      obtain rfl := Option.some_inj.mp hm'
      exact last_closed h n m hm

end SplitBy

/-! ## 3. Segmented folds -/

section Fold

variable {V : Type*} (op : V → V → V)

theorem foldl_range' (f : ℕ → V) (lo : ℕ) : ∀ n,
    (List.range' (lo + 1) n).foldl (fun v i => op v (f i)) (f lo) = fold1 op f lo n
  | 0 => rfl
  | n + 1 => by
    rw [List.range'_concat, List.foldl_append, foldl_range' f lo n, fold1_succ, Nat.one_mul,
      Nat.add_right_comm]
    rfl

/-- A count of flags and a value: what is before a flag does not go into the value. -/
def segmentedOp (first second : ℕ × V) : ℕ × V :=
  (first.1 + second.1, if second.1 ≠ 0 then second.2 else op first.2 second.2)

variable {op}

theorem segmentedOp_assoc (hop : ∀ a b c, op (op a b) c = op a (op b c)) (a b c : ℕ × V) :
    segmentedOp op (segmentedOp op a b) c = segmentedOp op a (segmentedOp op b c) := by
  by_cases hc : c.1 = 0
  · by_cases hb : b.1 = 0
    · simp [segmentedOp, hb, hc, hop]
    · simp [segmentedOp, hb, hc]
  · simp [segmentedOp, hc, Nat.add_assoc]

theorem segmentedOp_add_left (a : ℕ × ℕ) : segmentedOp (· + ·) (0, 0) a = a := by
  simp [segmentedOp]

theorem segmentedOp_add_right (a : ℕ × ℕ) : segmentedOp (· + ·) a (0, 0) = a := by
  simp [segmentedOp]

theorem segmentedOp_of_count (c : ℕ) (v : V) (b : ℕ × V) :
    segmentedOp op (c, v) b = (c + (segmentedOp op (0, v) b).1, (segmentedOp op (0, v) b).2) := by
  simp [segmentedOp]

/-- **A segmented fold** gives the number of heads, and the fold from the last head on. -/
theorem fold1_segmented {items : ℕ → ℕ × V} {values : ℕ → V} (hfirst : items 0 = (0, values 0)) :
    ∀ {i}, (∀ j ≤ i, 0 < j → items j = ((head j).toNat, values j)) →
      fold1 (segmentedOp op) items 0 i =
        (count head i, fold1 op values (start head i) (i - start head i))
  | 0, _ => hfirst
  | i + 1, h => by
    rw [fold1_succ, fold1_segmented hfirst fun j hj hpos => h j (Nat.le_succ_of_le hj) hpos,
      Nat.zero_add, h (i + 1) (Nat.le_refl _) (Nat.succ_pos i), segmentedOp, count, start]
    cases head (i + 1) with
    | true => simp
    | false =>
      have hle : start head i ≤ i := start_le i
      have hlast : start head i + (i - start head i) + 1 = i + 1 := by omega
      simp only [Bool.toNat_false, ne_eq, not_true_eq_false, if_false, Nat.succ_sub hle, fold1_succ,
        hlast, Bool.false_eq_true]

theorem fold1_segmentedOp_fst {items : ℕ → ℕ × V} {flag : ℕ → Bool} (h : ∀ i, (items i).1 = (flag i).toNat) :
    ∀ n, (fold1 (segmentedOp op) items 0 n).1 = (List.range (n + 1)).countP flag
  | 0 => by
    rw [fold1_zero, h]
    cases hflag : flag 0 <;> simp [hflag]
  | n + 1 => by
    rw [fold1_succ, List.range_succ, List.countP_append, ← fold1_segmentedOp_fst h n]
    simp only [segmentedOp, Nat.zero_add, h]
    cases hflag : flag (n + 1) <;> simp [hflag]

end Fold

end Cccl.Segments
