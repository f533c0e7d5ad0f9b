/-
# Windows of a decoding

`block_run_length_decode.cuh`: from the lengths of the runs of a block their first positions are summed up, and each
thread decodes some positions of a window.  It looks its first run up with as many steps as the number of runs can be
halved (`staticUpperBound_spec`), and goes on to the next run behind the last position of a run.

Behind the last position of all runs there is nothing to be decoded, and a position need not be a number of the type of
the offsets.  What is kept there is that the storage is not left: the last run of the block ends, for the thread, no
earlier than its items (`Walk`).
-/
import Mathlib.Algebra.Order.BigOperators.Group.List
import Mathlib.Algebra.Order.Ring.Nat
import Mathlib.Data.Int.ModEq

namespace Cccl.Rle

variable {ItemT : Type}

/-! ## 1. The code -/

/-- `Log2`: the binary logarithm, rounded up. -/
def log2Value (n : ℕ) : ℕ :=
  let count := Nat.log2 n + 1
  if 2 ^ (count - 1) < n then count else count - 1

/-- A step of `StaticUpperBound`. -/
def upperBoundStep (input : List ℕ) (numItems val lowerBound upperBound : ℕ) : Option (ℕ × ℕ) := do
  let mid := lowerBound + (upperBound - lowerBound) / 2
  let mid := min mid (numItems - 1)
  let item ← input[mid]?
  if val < item then some (lowerBound, mid) else some (mid + 1, upperBound)

def upperBoundLoop (input : List ℕ) (numItems val : ℕ) : ℕ → ℕ → ℕ → Option ℕ
  | 0, lowerBound, _ => some lowerBound
  | steps + 1, lowerBound, upperBound => do
    let (lowerBound, upperBound) ← upperBoundStep input numItems val lowerBound upperBound
    upperBoundLoop input numItems val steps lowerBound upperBound

def staticUpperBound (maxNumItems : ℕ) (input : List ℕ) (numItems val : ℕ) : Option ℕ :=
  upperBoundLoop input numItems val (log2Value maxNumItems + 1) 0 numItems

/-- `ExclusiveSum` of the runs of a block, in an unsigned type of some bits. -/
def exclusiveSum (bits : ℕ) : List ℕ → ℕ → List ℕ
  | [], _ => []
  | length :: lengths, sum => sum :: exclusiveSum bits lengths ((sum + length) % 2 ^ bits)

/-- The difference of two numbers of an unsigned type.  Those of less than 32 bits are promoted to `int`. -/
def difference (bits a b : ℕ) : ℤ := if bits < 32 then (a : ℤ) - b else ((a : ℤ) - b) % 2 ^ bits

/-- `_TempStorage::runs`. -/
structure RunStorage (ItemT : Type) where
  runValues : List ItemT
  runOffsets : List ℕ

/-- Where a thread is. -/
structure DecodeState (ItemT : Type) where
  threadDecodedOffset : ℕ
  assignedRun : ℕ
  assignedRunBegin : ℕ
  assignedRunEnd : ℕ
  val : ItemT

/-- `BlockRunLengthDecode`, with the numbers of bits of `DecodedOffsetT` and `RelativeOffsetT`.  A counter of the items
of a thread is a `DecodedOffsetT`, and an item of the window is counted in 32 bits. -/
structure BlockRunLengthDecode where
  blockThreads : ℕ
  runsPerThread : ℕ
  decodedItemsPerThread : ℕ
  offsetBits : ℕ
  relativeBits : ℕ
  runs_pos : 0 < blockThreads * runsPerThread
  runs_lt : blockThreads * runsPerThread < 2 ^ 31
  items_lt : decodedItemsPerThread < 2 ^ offsetBits
  window_le : offsetBits ≤ 32 ∨ blockThreads * decodedItemsPerThread ≤ 2 ^ 32

namespace BlockRunLengthDecode

variable (B : BlockRunLengthDecode)

def blockRuns : ℕ := B.blockThreads * B.runsPerThread

/-- `InitWithRunLengths`.  The runs are in a blocked arrangement: those of a thread follow those of the one before. -/
def initWithRunLengths (runs : List (ItemT × ℕ)) : RunStorage ItemT where
  runValues := runs.map Prod.fst
  runOffsets := exclusiveSum B.offsetBits (runs.map fun run => run.2 % 2 ^ B.offsetBits) 0

/-- What a thread reads when it gets to a run. -/
def assign (storage : RunStorage ItemT) (threadDecodedOffset assignedRun : ℕ) : Option (DecodeState ItemT) := do
  let assignedRunBegin ← storage.runOffsets[assignedRun]?
  let assignedRunEnd ←
    (if assignedRun = B.blockRuns - 1 then
      some ((threadDecodedOffset + B.decodedItemsPerThread) % 2 ^ B.offsetBits)
    else storage.runOffsets[assignedRun + 1]?)
  let val ← storage.runValues[assignedRun]?
  some ⟨threadDecodedOffset, assignedRun, assignedRunBegin, assignedRunEnd, val⟩

/-- An item, with its offset in the run. -/
def item (s : DecodeState ItemT) : ItemT × ℕ :=
  (s.val, (difference B.offsetBits s.threadDecodedOffset s.assignedRunBegin % 2 ^ B.relativeBits).toNat)

/-- How the loop goes on behind an item that is not the last one. -/
def advance (storage : RunStorage ItemT) (s : DecodeState ItemT) : Option (DecodeState ItemT) := do
  let s ←
    (if (s.threadDecodedOffset : ℤ) = difference B.offsetBits s.assignedRunEnd 1 then
      B.assign storage s.threadDecodedOffset (s.assignedRun + 1)
    else some s)
  some { s with threadDecodedOffset := (s.threadDecodedOffset + 1) % 2 ^ B.offsetBits }

/-- The loop over the items of a thread, of which some are left. -/
def decodeLoop (storage : RunStorage ItemT) : ℕ → DecodeState ItemT → Option (List (ItemT × ℕ))
  | 0, _ => some []
  | 1, s => some [B.item s]
  | left + 2, s => do
    let next ← B.advance storage s
    let items ← decodeLoop storage (left + 1) next
    some (B.item s :: items)

/-- `RunLengthDecode`, of a thread. -/
def runLengthDecode (storage : RunStorage ItemT) (fromDecodedOffset linearTid : ℕ) :
    Option (List (ItemT × ℕ)) := do
  let threadDecodedOffset :=
    (fromDecodedOffset + linearTid * B.decodedItemsPerThread % 2 ^ 32) % 2 ^ B.offsetBits
  let bound ← staticUpperBound B.blockRuns storage.runOffsets B.blockRuns threadDecodedOffset
  let assignedRun := (bound + (2 ^ 32 - 1)) % 2 ^ 32
  let s ← B.assign storage threadDecodedOffset assignedRun
  B.decodeLoop storage B.decodedItemsPerThread s

end BlockRunLengthDecode

/-! ## 2. The search -/

section Search

variable {input : List ℕ} {numItems val lower upper : ℕ}

theorem le_two_pow_log2Value (n : ℕ) : n ≤ 2 ^ log2Value n := by
  rw [log2Value]
  split
  · exact Nat.lt_log2_self.le
  · rename_i h
    exact Nat.not_lt.mp h

/-- What is before the lower bound is not above the value, and what is from the upper bound on is above. -/
structure Bounds (input : List ℕ) (val lower upper : ℕ) : Prop where
  le : lower ≤ upper
  upper_le : upper ≤ input.length
  before : ∀ i < lower, ∀ x : ℕ, input[i]? = some x → x ≤ val
  behind : ∀ i, upper ≤ i → ∀ x : ℕ, input[i]? = some x → val < x

/-- **A step keeps the bounds**, and halves their distance. -/
theorem upperBoundStep_spec (hsorted : input.Pairwise (· ≤ ·)) (hpos : 0 < input.length)
    (h : Bounds input val lower upper) : ∃ lower' upper',
    upperBoundStep input input.length val lower upper = some (lower', upper') ∧ Bounds input val lower' upper' ∧
      upper' - lower' ≤ (upper - lower) / 2 := by
  obtain ⟨hle, hlength, hbefore, hbehind⟩ := h
  have hmono : ∀ (i j x y : ℕ), input[i]? = some x → input[j]? = some y → i ≤ j → x ≤ y := by
    intro i j x y hx hy hij
    obtain ⟨hi, rfl⟩ := List.getElem?_eq_some_iff.mp hx
    obtain ⟨hj, rfl⟩ := List.getElem?_eq_some_iff.mp hy
    rcases Nat.eq_or_lt_of_le hij with rfl | hlt
    · exact le_rfl
    · exact List.pairwise_iff_getElem.mp hsorted i j hi hj hlt
  obtain ⟨mid, hmid⟩ : ∃ mid, mid = min (lower + (upper - lower) / 2) (input.length - 1) := ⟨_, rfl⟩
  have hlt : mid < input.length := by omega
  have hitem : input[mid]? = some input[mid] := List.getElem?_eq_getElem hlt
  rw [upperBoundStep, ← hmid, hitem]
  change ∃ lower' upper', (if val < input[mid] then some (lower, mid) else some (mid + 1, upper)) =
    some (lower', upper') ∧ _
  split
  · rename_i habove
    have hlower : lower ≤ mid := by
      -- the entry in the middle is not one of those before
      refine Nat.not_lt.mp fun hlt' => ?_
      exact absurd (hbefore mid hlt' _ hitem) (Nat.not_le.mpr habove)
    refine ⟨lower, mid, rfl, ⟨hlower, hlt.le, hbefore, fun i hi x hx => ?_⟩, by omega⟩
    exact habove.trans_le (hmono mid i _ x hitem hx hi)
  · rename_i hnot
    have hupper : mid < upper := by
      refine Nat.not_le.mp fun hge => ?_
      exact hnot (hbehind mid hge _ hitem)
    refine ⟨mid + 1, upper, rfl, ⟨hupper, hlength, fun i hi x hx => ?_, hbehind⟩, by omega⟩
    exact (hmono i mid x _ hx hitem (by omega)).trans (Nat.not_lt.mp hnot)

theorem upperBoundLoop_spec (hsorted : input.Pairwise (· ≤ ·)) (hpos : 0 < input.length) :
    ∀ {steps lower upper : ℕ}, Bounds input val lower upper → upper - lower < 2 ^ steps →
    ∃ r, upperBoundLoop input input.length val steps lower upper = some r ∧ Bounds input val r r
  | 0, lower, upper, h, hless => by
    have heq : upper = lower := by
      have := h.le
      omega
    exact ⟨lower, rfl, heq ▸ h⟩
  | steps + 1, lower, upper, h, hless => by
    obtain ⟨lower', upper', hstep, h', hhalf⟩ := upperBoundStep_spec hsorted hpos h
    have hless' : upper' - lower' < 2 ^ steps := by
      rw [Nat.pow_succ] at hless
      omega
    obtain ⟨r, hr, hbounds⟩ := upperBoundLoop_spec hsorted hpos h' hless'
    refine ⟨r, ?_, hbounds⟩
    rw [upperBoundLoop, hstep]
    exact hr

/-- **The search finds the first entry above the value.** -/
theorem staticUpperBound_spec (hsorted : input.Pairwise (· ≤ ·)) (hpos : 0 < input.length) (val : ℕ) :
    ∃ r, staticUpperBound input.length input input.length val = some r ∧ Bounds input val r r := by
  refine upperBoundLoop_spec hsorted hpos ⟨Nat.zero_le _, le_rfl, fun i hi => absurd hi (Nat.not_lt_zero i), ?_⟩ ?_
  · intro i hi x hx
    rw [List.getElem?_eq_none hi] at hx
    cases hx
  · have := le_two_pow_log2Value input.length
    have := Nat.two_pow_pos (log2Value input.length)
    rw [Nat.pow_succ]
    omega

end Search

/-! ## 3. Runs -/

section Runs

variable {runs : List (ItemT × ℕ)} {i r p : ℕ}

/-- What the runs stand for: each item as often as its length, with its offset in the run. -/
def decoded (runs : List (ItemT × ℕ)) : List (ItemT × ℕ) :=
  runs.flatMap fun run => (List.range run.2).map fun offset => (run.1, offset)

def decodedSize (runs : List (ItemT × ℕ)) : ℕ := (runs.map Prod.snd).sum

/-- The first position of a run. -/
def runBegin (runs : List (ItemT × ℕ)) (r : ℕ) : ℕ := decodedSize (runs.take r)

/-- Runs without items are behind all others. -/
def TrailingEmpty (runs : List (ItemT × ℕ)) : Prop := runs.Pairwise fun a b => a.2 = 0 → b.2 = 0

theorem decodedSize_append (l l' : List (ItemT × ℕ)) : decodedSize (l ++ l') = decodedSize l + decodedSize l' := by
  rw [decodedSize, List.map_append, List.sum_append]
  rfl

theorem length_decoded (runs : List (ItemT × ℕ)) : (decoded runs).length = decodedSize runs := by
  rw [decoded, List.length_flatMap, decodedSize]
  simp only [List.length_map, List.length_range]

theorem runBegin_length (runs : List (ItemT × ℕ)) : runBegin runs runs.length = decodedSize runs := by
  rw [runBegin, List.take_length]

theorem runBegin_succ (hr : r < runs.length) : runBegin runs (r + 1) = runBegin runs r + runs[r].2 := by
  rw [runBegin, List.take_succ_eq_append_getElem hr, decodedSize_append]
  rfl

theorem runBegin_mono (hir : i ≤ r) (hr : r ≤ runs.length) : runBegin runs i ≤ runBegin runs r := by
  induction r, hir using Nat.le_induction with
  | base => exact le_rfl
  | succ r _ ih =>
    rw [runBegin_succ hr]
    exact (ih (by omega)).trans (Nat.le_add_right _ _)

theorem runBegin_le (hr : r ≤ runs.length) : runBegin runs r ≤ decodedSize runs :=
  runBegin_length runs ▸ runBegin_mono hr le_rfl

theorem runBegin_lt_succ (hempty : TrailingEmpty runs) (hr : r < runs.length)
    (hlt : runBegin runs r < decodedSize runs) : runBegin runs r < runBegin runs (r + 1) := by
  rw [runBegin_succ hr]
  refine Nat.lt_add_of_pos_right (Nat.pos_of_ne_zero fun hzero => ?_)
  -- else all later runs are empty too, and the run starts at the end
  have hall : ∀ k, r ≤ k → k ≤ runs.length → runBegin runs k = runBegin runs r := by
    intro k hk
    induction k, hk using Nat.le_induction with
    | base => exact fun _ => rfl
    | succ k hk ih =>
      intro hle
      have hzero' : runs[k].2 = 0 := by
        rcases Nat.eq_or_lt_of_le hk with heq | hlt'
        · subst heq
          exact hzero
        · exact List.pairwise_iff_getElem.mp hempty r k hr hle hlt' hzero
      rw [runBegin_succ hle, hzero', Nat.add_zero]
      exact ih (by omega)
  have := hall runs.length hr.le le_rfl
  rw [runBegin_length] at this
  omega

/-- **What is at a position** of a run. -/
theorem decoded_getElem? (hr : r < runs.length) (hbegin : runBegin runs r ≤ p) (hend : p < runBegin runs (r + 1)) :
    (decoded runs)[p]? = some (runs[r].1, p - runBegin runs r) := by
  rw [runBegin_succ hr] at hend
  have hsplit : decoded runs = decoded (runs.take r) ++
      ((List.range runs[r].2).map (fun offset => (runs[r].1, offset)) ++ decoded (runs.drop (r + 1))) := by
    conv_lhs => rw [← List.take_append_drop r runs, List.drop_eq_getElem_cons hr]
    rw [decoded, List.flatMap_append, List.flatMap_cons]
    rfl
  have hless : p - runBegin runs r < runs[r].2 := by omega
  have hlength : (decoded (runs.take r)).length = runBegin runs r := length_decoded _
  rw [hsplit, List.getElem?_append_right (hlength.le.trans hbegin), hlength, List.getElem?_append_left,
    List.getElem?_map, List.getElem?_range hless, Option.map_some]
  rwa [List.length_map, List.length_range]

theorem exclusiveSum_getElem? {bits : ℕ} : ∀ {lengths : List ℕ} {sum : ℕ}, sum + lengths.sum < 2 ^ bits →
    ∀ {i : ℕ}, i < lengths.length → (exclusiveSum bits lengths sum)[i]? = some (sum + (lengths.take i).sum)
  | [], _, _, i, hi => absurd hi (Nat.not_lt_zero i)
  | length :: lengths, sum, hsum, 0, _ => rfl
  | length :: lengths, sum, hsum, i + 1, hi => by
    rw [List.sum_cons, ← Nat.add_assoc] at hsum
    have hmod : (sum + length) % 2 ^ bits = sum + length := Nat.mod_eq_of_lt (by omega)
    rw [exclusiveSum, hmod, List.getElem?_cons_succ, exclusiveSum_getElem? hsum (Nat.lt_of_succ_lt_succ hi),
      List.take_succ_cons, List.sum_cons, Nat.add_assoc]

theorem length_exclusiveSum {bits : ℕ} : ∀ {lengths : List ℕ} {sum : ℕ},
    (exclusiveSum bits lengths sum).length = lengths.length
  | [], _ => rfl
  | _ :: _, _ => congrArg (· + 1) length_exclusiveSum

end Runs

/-! ## 4. A thread -/

theorem difference_of_le {bits a b : ℕ} (hle : b ≤ a) (hlt : a < 2 ^ bits) : difference bits a b = (a - b : ℕ) := by
  rw [difference, Int.ofNat_sub hle]
  split
  · rfl
  · refine Int.emod_eq_of_lt (by omega) ?_
    have : ((a : ℕ) : ℤ) < ((2 ^ bits : ℕ) : ℤ) := Int.ofNat_lt.mpr hlt
    push_cast at this
    omega

/-- What is one less than the end is the last position before it, around the end of the type. -/
theorem succ_mod_of_difference {bits a e : ℕ} (h : (a : ℤ) = difference bits e 1) (he : e < 2 ^ bits) :
    (a + 1) % 2 ^ bits = e := by
  rw [difference] at h
  split at h
  · rw [show a + 1 = e by omega]
    exact Nat.mod_eq_of_lt he
  · have hcast : ((a : ℤ) + 1) % 2 ^ bits = e := by
      rw [h, Int.emod_add_emod, Int.natCast_one, Int.sub_add_cancel]
      exact Int.emod_eq_of_lt (Int.natCast_nonneg e) (by exact_mod_cast he)
    exact_mod_cast hcast

namespace BlockRunLengthDecode

variable {B : BlockRunLengthDecode} {storage : RunStorage ItemT} {runs : List (ItemT × ℕ)} {r position left : ℕ}
  {s : DecodeState ItemT}

/-- The storage holds the runs of the block. -/
structure Holds (B : BlockRunLengthDecode) (storage : RunStorage ItemT) (runs : List (ItemT × ℕ)) : Prop where
  length_eq : runs.length = B.blockRuns
  size_lt : decodedSize runs < 2 ^ B.offsetBits
  length_offsets : storage.runOffsets.length = runs.length
  offset : ∀ r < runs.length, storage.runOffsets[r]? = some (runBegin runs r)
  value : ∀ r, (hr : r < runs.length) → storage.runValues[r]? = some runs[r].1

theorem holds_initWithRunLengths (hlength : runs.length = B.blockRuns) (hsize : decodedSize runs < 2 ^ B.offsetBits) :
    B.Holds (B.initWithRunLengths runs) runs := by
  have hlengths : runs.map (fun run => run.2 % 2 ^ B.offsetBits) = runs.map Prod.snd := by
    refine List.map_congr_left fun run hrun => Nat.mod_eq_of_lt ?_
    exact (List.single_le_sum (fun _ _ => Nat.zero_le _) _ (List.mem_map_of_mem hrun)).trans_lt hsize
  refine ⟨hlength, hsize, ?_, fun r hr => ?_, fun r hr => ?_⟩
  · rw [initWithRunLengths, length_exclusiveSum, List.length_map]
  · have hfits : 0 + (runs.map Prod.snd).sum < 2 ^ B.offsetBits := by
      rw [Nat.zero_add]
      exact hsize
    rw [initWithRunLengths, hlengths, exclusiveSum_getElem? hfits (by rwa [List.length_map]), Nat.zero_add,
      ← List.map_take]
    rfl
  · rw [initWithRunLengths, List.getElem?_map, List.getElem?_eq_getElem hr]
    rfl

theorem Holds.sorted (h : B.Holds storage runs) : storage.runOffsets.Pairwise (· ≤ ·) := by
  rw [List.pairwise_iff_getElem]
  intro i j hi hj hij
  have hi' := List.getElem?_eq_getElem hi
  have hj' := List.getElem?_eq_getElem hj
  rw [h.length_offsets] at hi hj
  rw [h.offset i hi, Option.some.injEq] at hi'
  rw [h.offset j hj, Option.some.injEq] at hj'
  rw [← hi', ← hj']
  exact runBegin_mono hij.le hj.le

/-- A thread at a position that has some items left.  The position need not be a number of the type. -/
structure Walk (B : BlockRunLengthDecode) (runs : List (ItemT × ℕ)) (position left : ℕ) (s : DecodeState ItemT) :
    Prop where
  left_le : left ≤ B.decodedItemsPerThread
  offset_eq : s.threadDecodedOffset = position % 2 ^ B.offsetBits
  run : ∃ hr : s.assignedRun < runs.length, s.val = runs[s.assignedRun].1
  begin_eq : s.assignedRunBegin = runBegin runs s.assignedRun
  end_eq : s.assignedRun + 1 < runs.length → s.assignedRunEnd = runBegin runs (s.assignedRun + 1)
  last : s.assignedRun + 1 = runs.length → ∃ ahead, left ≤ ahead ∧ ahead ≤ B.decodedItemsPerThread ∧
    s.assignedRunEnd = (position + ahead) % 2 ^ B.offsetBits
  here : position < decodedSize runs →
    runBegin runs s.assignedRun ≤ position ∧ position < runBegin runs (s.assignedRun + 1)

/-- **A thread gets to a run**, from which on the position is some items further. -/
theorem Holds.assign (h : B.Holds storage runs) (hr : r < runs.length) (position left more : ℕ)
    (hleft : left + more ≤ B.decodedItemsPerThread)
    (hhere : position + more < decodedSize runs → runBegin runs r ≤ position + more ∧
      position + more < runBegin runs (r + 1)) :
    ∃ s, B.assign storage (position % 2 ^ B.offsetBits) r = some s ∧
      s.threadDecodedOffset = position % 2 ^ B.offsetBits ∧ B.Walk runs (position + more) left
        { s with threadDecodedOffset := (position % 2 ^ B.offsetBits + more) % 2 ^ B.offsetBits } := by
  have hlength := h.length_eq
  have hend : (if r = B.blockRuns - 1 then
      some ((position % 2 ^ B.offsetBits + B.decodedItemsPerThread) % 2 ^ B.offsetBits)
      else storage.runOffsets[r + 1]?) =
      some (if r + 1 = runs.length then (position + B.decodedItemsPerThread) % 2 ^ B.offsetBits
        else runBegin runs (r + 1)) := by
    by_cases hlast : r + 1 = runs.length
    · rw [if_pos (by omega), if_pos hlast, Nat.mod_add_mod]
    · rw [if_neg (by omega), if_neg hlast]
      exact h.offset (r + 1) (by omega)
  refine ⟨⟨position % 2 ^ B.offsetBits, r, runBegin runs r,
    if r + 1 = runs.length then (position + B.decodedItemsPerThread) % 2 ^ B.offsetBits else runBegin runs (r + 1),
    runs[r].1⟩, ?_, rfl, ?_⟩
  · rw [BlockRunLengthDecode.assign, h.offset r hr, h.value r hr]
    change (if r = B.blockRuns - 1 then _ else _ : Option ℕ).bind _ = _
    rw [hend]
    rfl
  · refine ⟨by omega, Nat.mod_add_mod _ _ _, ⟨hr, rfl⟩, rfl, fun hlt => if_neg (Nat.ne_of_lt hlt), fun heq => ?_, hhere⟩
    refine ⟨B.decodedItemsPerThread - more, by omega, Nat.sub_le _ _, ?_⟩
    change (if r + 1 = runs.length then _ else _) = _
    rw [if_pos heq]
    congr 1
    omega

/-- **The thread goes on** to the next item. -/
theorem Walk.advance (h : B.Holds storage runs) (hempty : TrailingEmpty runs)
    (hwalk : B.Walk runs position (left + 2) s) :
    ∃ s', B.advance storage s = some s' ∧ B.Walk runs (position + 1) (left + 1) s' := by
  obtain ⟨hleft, hoffset, ⟨hr, hval⟩, hbegin, hend, hlast, hhere⟩ := hwalk
  have hsize := h.size_lt
  have hitems := B.items_lt
  by_cases htest : (s.threadDecodedOffset : ℤ) = difference B.offsetBits s.assignedRunEnd 1
  · -- the last run does not end
    have hless : s.assignedRun + 1 < runs.length := by
      refine Nat.lt_of_le_of_ne hr fun heq => ?_
      obtain ⟨ahead, hmore, hmost, heq'⟩ := hlast heq
      have hmod := succ_mod_of_difference htest (heq' ▸ Nat.mod_lt _ (Nat.two_pow_pos _))
      rw [hoffset, heq', Nat.mod_add_mod] at hmod
      have hdvd : 2 ^ B.offsetBits ∣ position + ahead - (position + 1) := (Nat.modEq_iff_dvd' (by omega)).mp hmod
      have := Nat.le_of_dvd (by omega) hdvd
      omega
    have hnext := runBegin_le hless.le
    have hmod := succ_mod_of_difference htest (by rw [hend hless]; omega)
    rw [hoffset, Nat.mod_add_mod, hend hless] at hmod
    obtain ⟨s', hs', hkeep, hwalk'⟩ := h.assign hless position (left + 1) 1 (by omega)
      fun hlt => by
        rw [Nat.mod_eq_of_lt (by omega)] at hmod
        rw [hmod]
        exact ⟨le_rfl, runBegin_lt_succ hempty hless (hmod ▸ hlt)⟩
    refine ⟨_, ?_, hwalk'⟩
    rw [← hoffset] at hs'
    rw [BlockRunLengthDecode.advance, if_pos htest, hs', ← hkeep]
    rfl
  · refine ⟨{ s with threadDecodedOffset := (s.threadDecodedOffset + 1) % 2 ^ B.offsetBits }, ?_, ?_⟩
    · rw [BlockRunLengthDecode.advance, if_neg htest]
      rfl
    · refine ⟨by omega, ?_, ⟨hr, hval⟩, hbegin, hend, fun heq => ?_, fun hlt => ?_⟩
      · rw [hoffset]
        exact Nat.mod_add_mod _ _ _
      · obtain ⟨ahead, hmore, hmost, heq'⟩ := hlast heq
        exact ⟨ahead - 1, by omega, by omega, heq'.trans (by congr 1; omega)⟩
      · obtain ⟨hge, hlt'⟩ := hhere (by omega)
        refine ⟨hge.trans (Nat.le_succ _), Nat.lt_of_le_of_ne hlt' fun heq => ?_⟩
        rcases Nat.eq_or_lt_of_le hr with hn | hless
        · change position + 1 = runBegin runs (s.assignedRun + 1) at heq
          rw [show s.assignedRun + 1 = runs.length from hn, runBegin_length] at heq
          omega
        · refine htest ?_
          change position + 1 = runBegin runs (s.assignedRun + 1) at heq
          rw [hend hless, ← heq, difference_of_le (Nat.le_add_left 1 _) (by omega), hoffset,
            Nat.mod_eq_of_lt (by omega)]
          rfl

/-- **What the thread returns** is what is decoded at its position. -/
theorem Walk.item (h : B.Holds storage runs) (hfits : ∀ run ∈ runs, run.2 ≤ 2 ^ B.relativeBits)
    (hwalk : B.Walk runs position left s) (hlt : position < decodedSize runs) :
    (decoded runs)[position]? = some (B.item s) := by
  obtain ⟨hr, hval⟩ := hwalk.run
  obtain ⟨hge, hless⟩ := hwalk.here hlt
  have hsize := h.size_lt
  have hlength := hfits _ (List.getElem_mem hr)
  rw [decoded_getElem? hr hge hless, BlockRunLengthDecode.item, hval, hwalk.offset_eq, hwalk.begin_eq,
    Nat.mod_eq_of_lt (hlt.trans hsize), difference_of_le hge (hlt.trans hsize)]
  rw [runBegin_succ hr] at hless
  congr 2
  have hmod : (position - runBegin runs s.assignedRun) % 2 ^ B.relativeBits = position - runBegin runs s.assignedRun :=
    Nat.mod_eq_of_lt (by omega)
  exact_mod_cast hmod.symm

/-- **The items of a thread.** -/
theorem decodeLoop_spec (h : B.Holds storage runs) (hempty : TrailingEmpty runs)
    (hfits : ∀ run ∈ runs, run.2 ≤ 2 ^ B.relativeBits) : ∀ {left position : ℕ} {s : DecodeState ItemT},
    B.Walk runs position left s → ∃ items, B.decodeLoop storage left s = some items ∧ items.length = left ∧
      ∀ j < left, position + j < decodedSize runs → items[j]? = (decoded runs)[position + j]?
  | 0, _, _, _ => ⟨[], rfl, rfl, fun j hj => absurd hj (Nat.not_lt_zero j)⟩
  | 1, position, s, hwalk => by
    refine ⟨[B.item s], rfl, rfl, fun j hj hlt => ?_⟩
    obtain rfl : j = 0 := by omega
    exact (hwalk.item h hfits hlt).symm
  | left + 2, position, s, hwalk => by
    obtain ⟨s', hs', hwalk'⟩ := hwalk.advance h hempty
    obtain ⟨items, hitems, hlength, heach⟩ := decodeLoop_spec h hempty hfits hwalk'
    refine ⟨B.item s :: items, ?_, congrArg (· + 1) hlength, fun j hj hlt => ?_⟩
    · rw [decodeLoop, hs']
      change (decodeLoop B storage (left + 1) s').bind _ = _
      rw [hitems]
      rfl
    · cases j with
      | zero => exact (hwalk.item h hfits hlt).symm
      | succ j =>
        rw [List.getElem?_cons_succ, heach j (by omega) (by omega)]
        congr 1
        omega

theorem threadOffset_eq (B : BlockRunLengthDecode) {tid : ℕ} (htid : tid < B.blockThreads) (start : ℕ) :
    (start + tid * B.decodedItemsPerThread % 2 ^ 32) % 2 ^ B.offsetBits =
      (start + tid * B.decodedItemsPerThread) % 2 ^ B.offsetBits := by
  rcases B.window_le with hnarrow | hwindow
  · rw [Nat.add_mod, Nat.mod_mod_of_dvd _ (Nat.pow_dvd_pow 2 hnarrow), ← Nat.add_mod]
  · rcases Nat.eq_zero_or_pos B.decodedItemsPerThread with hzero | hpos
    · rw [hzero, Nat.mul_zero, Nat.zero_mod]
    · have hlt : tid * B.decodedItemsPerThread < 2 ^ 32 :=
        (Nat.mul_lt_mul_of_pos_right htid hpos).trans_le hwindow
      rw [Nat.mod_eq_of_lt hlt]

/-- **A window of the decoding.**  Whatever the numbers of threads, of runs and of items per thread are, if only the
last runs are empty and the decoding has a size that the types can tell, then the threads read nothing outside of the
storage, and what they return for the positions from the start of the window on is what is decoded there. -/
theorem runLengthDecode_window (B : BlockRunLengthDecode) (runs : List (ItemT × ℕ))
    (hlength : runs.length = B.blockRuns) (hempty : TrailingEmpty runs) (hsize : decodedSize runs < 2 ^ B.offsetBits)
    (hfits : ∀ run ∈ runs, run.2 ≤ 2 ^ B.relativeBits) (fromDecodedOffset : ℕ) {tid : ℕ}
    (htid : tid < B.blockThreads) :
    ∃ items, B.runLengthDecode (B.initWithRunLengths runs) fromDecodedOffset tid = some items ∧
      items.length = B.decodedItemsPerThread ∧
      ∀ j < B.decodedItemsPerThread, fromDecodedOffset + tid * B.decodedItemsPerThread + j < decodedSize runs →
        items[j]? = (decoded runs)[fromDecodedOffset + tid * B.decodedItemsPerThread + j]? := by
  have h := holds_initWithRunLengths hlength hsize
  obtain ⟨position, hposition⟩ : ∃ position, position = fromDecodedOffset + tid * B.decodedItemsPerThread := ⟨_, rfl⟩
  have hruns : B.blockRuns = (B.initWithRunLengths runs).runOffsets.length := by rw [h.length_offsets, hlength]
  have hpos : 0 < runs.length := hlength ▸ B.runs_pos
  have hless : runs.length < 2 ^ 31 := hlength ▸ B.runs_lt
  obtain ⟨bound, hbound, -, hupper, hbefore, hbehind⟩ := staticUpperBound_spec h.sorted (h.length_offsets ▸ hpos)
    (position % 2 ^ B.offsetBits)
  rw [h.length_offsets] at hupper
  -- the first run is at the start
  have hone : 0 < bound := by
    refine Nat.pos_of_ne_zero fun hzero => ?_
    exact absurd (hbehind 0 hzero.le 0 (h.offset 0 hpos)) (Nat.not_lt_zero _)
  obtain ⟨s, hs, hkeep, hwalk⟩ := h.assign (show bound - 1 < runs.length by omega) position
    B.decodedItemsPerThread 0 le_rfl fun hlt => by
      rw [Nat.add_zero] at hlt ⊢
      rw [Nat.mod_eq_of_lt (hlt.trans hsize)] at hbefore hbehind
      refine ⟨hbefore (bound - 1) (by omega) _ (h.offset _ (by omega)), ?_⟩
      rw [Nat.sub_add_cancel hone]
      rcases Nat.eq_or_lt_of_le hupper with heq | hlt'
      · rwa [heq, runBegin_length]
      · exact hbehind bound le_rfl _ (h.offset _ hlt')
  have hwalk' : B.Walk runs position B.decodedItemsPerThread s := by
    rw [Nat.add_zero, Nat.add_zero, Nat.mod_mod, ← hkeep] at hwalk
    exact hwalk
  obtain ⟨items, hitems, hitemsLength, heach⟩ := decodeLoop_spec h hempty hfits hwalk'
  rw [← hposition]
  refine ⟨items, ?_, hitemsLength, heach⟩
  have hrun : (bound + (2 ^ 32 - 1)) % 2 ^ 32 = bound - 1 := by omega
  rw [runLengthDecode, threadOffset_eq B htid, ← hposition]
  change (staticUpperBound B.blockRuns _ B.blockRuns _).bind _ = _
  rw [hruns, hbound]
  change (B.assign _ _ ((bound + (2 ^ 32 - 1)) % 2 ^ 32)).bind _ = _
  rw [hrun, hs]
  exact hitems

/-- Five threads with a run each, the last of which are empty, and a window that starts within the second run. -/
theorem runLengthDecode_window_within :
    let B : BlockRunLengthDecode := ⟨5, 1, 2, 32, 32, by decide, by decide, by decide, Or.inl le_rfl⟩
    let runs := [('a', 2), ('b', 3), ('c', 4), ('d', 0), ('e', 0)]
    ∃ items, B.runLengthDecode (B.initWithRunLengths runs) 3 1 = some items ∧ items.length = 2 ∧
      ∀ j < 2, 3 + 1 * 2 + j < decodedSize runs → items[j]? = (decoded runs)[3 + 1 * 2 + j]? :=
  runLengthDecode_window ⟨5, 1, 2, 32, 32, by decide, by decide, by decide, Or.inl le_rfl⟩
    [('a', 2), ('b', 3), ('c', 4), ('d', 0), ('e', 0)] rfl (by unfold TrailingEmpty; decide) (by decide) (by decide) 3
    (by decide)

end BlockRunLengthDecode

end Cccl.Rle
