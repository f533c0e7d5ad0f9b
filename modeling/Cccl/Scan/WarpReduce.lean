/-
# The tail-segmented warp reduction behind the look-back window

`TilePrefixCallbackOp` folds a window of 32 predecessor tiles with
`WarpReduce::TailSegmentedReduce` and a `SwizzleScanOp`: lane `l` holds the descriptor of the
tile `l` places further back, so the lanes run AGAINST the tile order and the operands have to
be exchanged.  This module models the shuffle reduction of `warp_reduce_shfl.cuh` for a whole
warp and settles two facts about the value lane 0 ends up with.

* For an associative operator it is the fold of the lanes of the first segment, in lane order
  (`tailSegmentedReduce_eq_fold1`).
* For ANY operator it reads no lane behind the first tail flag
  (`tailSegmentedReduce_congr`), which is what the run-to-run deterministic look-back rests on.
-/
import Mathlib.Data.List.Basic
import Mathlib.Tactic.Ring
import Cccl.Lib.Fold

namespace Cccl.Scan

variable {T : Type*}

/-! ## 1. The shuffle reduction -/

def warpThreads : ℕ := 32

/-- `SwizzleScanOp::operator()`: switch the scan arguments. -/
def swizzleScanOp (scanOp : T → T → T) (a b : T) : T := scanOp b a

/-- `ShuffleDown`: the value of the lane `srcOffset` above, or the lane's own one when that lies
past `lastThread`. -/
def shuffleDown (value : ℕ → T) (srcOffset : ℕ) (lastThread lane : ℕ) : T :=
  if lane + srcOffset ≤ lastThread then value (lane + srcOffset) else value lane

/-- `WarpReduceShfl::ReduceStep`, all lanes at once; `lastLane` is each lane's own segment end. -/
def reduceStep (reductionOp : T → T → T) (lastLane : ℕ → ℕ) (offset : ℕ) (input : ℕ → T)
    (lane : ℕ) : T :=
  let tmp := shuffleDown input offset (lastLane lane) lane
  -- Perform reduction op if valid
  if offset + lane ≤ lastLane lane then reductionOp (input lane) tmp else input lane

/-- `WarpReduceShfl::ShuffleReduce`: the steps with offsets `1, 2, 4, 8, 16`. -/
def shuffleReduce (reductionOp : T → T → T) (lastLane : ℕ → ℕ) (input : ℕ → T) : ℕ → T :=
  (List.range 5).foldl (fun value step => reduceStep reductionOp lastLane (2 ^ step) value) input

/-- The `last_lane` of `SegmentedReduce<false>`: the ballot of the tail flags, with the bits
below the lane masked out and the last lane masked in, and then its lowest set bit. -/
def segmentLastLane (tailFlag : ℕ → Bool) (lane : ℕ) : ℕ :=
  ((List.range warpThreads).find? fun l => decide (lane ≤ l) && tailFlag l).getD (warpThreads - 1)

/-- `WarpReduce::TailSegmentedReduce`, all lanes at once. -/
def tailSegmentedReduce (reductionOp : T → T → T) (input : ℕ → T) (tailFlag : ℕ → Bool) :
    ℕ → T :=
  shuffleReduce reductionOp (segmentLastLane tailFlag) input

/-! ## 2. Where the first segment ends -/

/-- Up to the first tail flag every lane belongs to the segment ending there. -/
theorem segmentLastLane_of_first {tailFlag : ℕ → Bool} {last : ℕ} (hlast : last < warpThreads)
    (hflag : tailFlag last = true) (hbefore : ∀ l, l < last → tailFlag l = false) {lane : ℕ}
    (hlane : lane ≤ last) : segmentLastLane tailFlag lane = last := by
  unfold segmentLastLane
  have hfind : (List.range warpThreads).find? (fun l => decide (lane ≤ l) && tailFlag l)
      = some last := by
    rw [List.find?_range_eq_some]
    refine ⟨by simp [hlane, hflag], List.mem_range.mpr hlast, ?_⟩
    intro l hl
    simp [hbefore l hl]
  rw [hfind]
  rfl

theorem segmentLastLane_of_none {tailFlag : ℕ → Bool}
    (hnone : ∀ l, l < warpThreads → tailFlag l = false) (lane : ℕ) :
    segmentLastLane tailFlag lane = warpThreads - 1 := by
  unfold segmentLastLane
  have hfind : (List.range warpThreads).find? (fun l => decide (lane ≤ l) && tailFlag l) = none := by
    rw [List.find?_eq_none]
    intro l hl
    simp [hnone l (List.mem_range.mp hl)]
  rw [hfind]
  rfl

/-! ## 3. The reduction folds its segment -/

/-- What one lane holds before the step of offset `2 ^ k`: the fold of its first `2 ^ k` lanes,
cut at the end of the segment. -/
def StepFold (op : T → T → T) (input : ℕ → T) (last k : ℕ) (value : ℕ → T) : Prop :=
  ∀ lane, lane ≤ last → value lane = fold1 op input lane (min (2 ^ k - 1) (last - lane))

theorem stepFold_zero (op : T → T → T) (input : ℕ → T) (last : ℕ) :
    StepFold op input last 0 input := by
  intro lane _
  simp

/-- One shuffle step doubles the number of lanes each lane has folded. -/
theorem stepFold_succ {op : T → T → T} (hop : ∀ a b c, op (op a b) c = op a (op b c))
    {input value : ℕ → T} {lastLane : ℕ → ℕ} {last k : ℕ}
    (hseg : ∀ lane, lane ≤ last → lastLane lane = last) (h : StepFold op input last k value) :
    StepFold op input last (k + 1) (reduceStep op lastLane (2 ^ k) value) := by
  intro lane hlane
  have hpos : 0 < 2 ^ k := Nat.two_pow_pos k
  have hpow : 2 ^ (k + 1) = 2 ^ k + 2 ^ k := by ring
  simp only [reduceStep, shuffleDown, hseg lane hlane]
  by_cases hle : 2 ^ k + lane ≤ last
  · have hle' : lane + 2 ^ k ≤ last := by omega
    rw [if_pos hle, if_pos hle', h lane hlane, h (lane + 2 ^ k) hle']
    have hmin : min (2 ^ k - 1) (last - lane) = 2 ^ k - 1 := by omega
    have hlow : lane + (2 ^ k - 1) + 1 = lane + 2 ^ k := by omega
    have hcount : min (2 ^ (k + 1) - 1) (last - lane)
        = 2 ^ k - 1 + min (2 ^ k - 1) (last - (lane + 2 ^ k)) + 1 := by omega
    rw [hmin, hcount, fold1_split hop, hlow]
  · rw [if_neg hle, h lane hlane]
    congr 1
    omega

/-- After the five steps every lane of the segment holds the fold up to its end. -/
theorem shuffleReduce_eq_fold1 {op : T → T → T} (hop : ∀ a b c, op (op a b) c = op a (op b c))
    (input : ℕ → T) {lastLane : ℕ → ℕ} {last : ℕ} (hlast : last < warpThreads)
    (hseg : ∀ lane, lane ≤ last → lastLane lane = last) :
    shuffleReduce op lastLane input 0 = fold1 op input 0 last := by
  have h1 := stepFold_succ hop hseg (stepFold_zero op input last)
  have h2 := stepFold_succ hop hseg h1
  have h3 := stepFold_succ hop hseg h2
  have h4 := stepFold_succ hop hseg h3
  have h5 := stepFold_succ hop hseg h4
  have hmin : min (2 ^ (0 + 1 + 1 + 1 + 1 + 1) - 1) (last - 0) = last := by
    simp only [warpThreads] at hlast
    omega
  have := h5 0 (Nat.zero_le _)
  rw [hmin] at this
  simpa [shuffleReduce, List.range_succ] using this

/-- **The window fold.**  For an associative operator, lane 0 obtains the fold of the lanes up
to and including the first flagged one. -/
theorem tailSegmentedReduce_eq_fold1 {op : T → T → T}
    (hop : ∀ a b c, op (op a b) c = op a (op b c)) (input : ℕ → T) {tailFlag : ℕ → Bool}
    {last : ℕ} (hlast : last < warpThreads) (hflag : tailFlag last = true)
    (hbefore : ∀ l, l < last → tailFlag l = false) :
    tailSegmentedReduce op input tailFlag 0 = fold1 op input 0 last :=
  shuffleReduce_eq_fold1 hop input hlast fun _ hlane =>
    segmentLastLane_of_first hlast hflag hbefore hlane

theorem tailSegmentedReduce_eq_fold1_of_none {op : T → T → T}
    (hop : ∀ a b c, op (op a b) c = op a (op b c)) (input : ℕ → T) {tailFlag : ℕ → Bool}
    (hnone : ∀ l, l < warpThreads → tailFlag l = false) :
    tailSegmentedReduce op input tailFlag 0 = fold1 op input 0 (warpThreads - 1) :=
  shuffleReduce_eq_fold1 hop input (by decide) fun lane _ => segmentLastLane_of_none hnone lane

/-! ## 4. The reduction reads its segment only -/

/-- A step of one lane reads that lane and one further lane of the same segment, so lanes that
agree on the segment still agree on it afterwards. -/
theorem reduceStep_congr {op : T → T → T} {v w : ℕ → T} {last : ℕ} {lastLane lastLane' : ℕ → ℕ}
    (hseg : ∀ lane, lane ≤ last → lastLane lane = last)
    (hseg' : ∀ lane, lane ≤ last → lastLane' lane = last) (offset : ℕ)
    (h : ∀ lane, lane ≤ last → v lane = w lane) :
    ∀ lane, lane ≤ last → reduceStep op lastLane offset v lane
      = reduceStep op lastLane' offset w lane := by
  intro lane hlane
  simp only [reduceStep, shuffleDown, hseg lane hlane, hseg' lane hlane, h lane hlane]
  by_cases hle : offset + lane ≤ last
  · have hle' : lane + offset ≤ last := by omega
    rw [if_pos hle, if_pos hle, if_pos hle', if_pos hle', h _ hle']
  · rw [if_neg hle, if_neg hle]

theorem foldl_reduceStep_congr {op : T → T → T} {last : ℕ} {lastLane lastLane' : ℕ → ℕ}
    (hseg : ∀ lane, lane ≤ last → lastLane lane = last)
    (hseg' : ∀ lane, lane ≤ last → lastLane' lane = last) :
    ∀ (steps : List ℕ) (v w : ℕ → T), (∀ lane, lane ≤ last → v lane = w lane) →
      ∀ lane, lane ≤ last →
        steps.foldl (fun value step => reduceStep op lastLane (2 ^ step) value) v lane
          = steps.foldl (fun value step => reduceStep op lastLane' (2 ^ step) value) w lane
  | [], _, _, h => h
  | step :: steps, _, _, h =>
    foldl_reduceStep_congr hseg hseg' steps _ _ (reduceStep_congr hseg hseg' (2 ^ step) h)

/-- **Lane 0 depends on its own segment alone**, whatever the operator: the lanes behind the
first tail flag, and the flags set there, are not read. -/
theorem tailSegmentedReduce_congr {op : T → T → T} {v w : ℕ → T} {flag flag' : ℕ → Bool}
    {last : ℕ} (hlast : last < warpThreads)
    (hflag : flag last = true) (hbefore : ∀ l, l < last → flag l = false)
    (hflag' : flag' last = true) (hbefore' : ∀ l, l < last → flag' l = false)
    (h : ∀ lane, lane ≤ last → v lane = w lane) :
    tailSegmentedReduce op v flag 0 = tailSegmentedReduce op w flag' 0 :=
  foldl_reduceStep_congr
    (fun _ hlane => segmentLastLane_of_first hlast hflag hbefore hlane)
    (fun _ hlane => segmentLastLane_of_first hlast hflag' hbefore' hlane)
    (List.range 5) v w h 0 (Nat.zero_le _)

end Cccl.Scan
