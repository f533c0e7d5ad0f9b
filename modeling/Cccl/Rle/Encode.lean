/-
# Run-length encoding

`DeviceRunLengthEncode::Encode` is a streaming reduce-by-key: the keys are compared for equality and each item has
the value one.  The partitions are as large as the number of items that an invocation may have, rounded down to whole
tiles.  What is written are the runs of the input, so that decoding gives it back (`encode_decoded`).
-/
import Cccl.ReduceByKey.Exact
import Cccl.Rle.BlockDecode

namespace Cccl.ReduceByKey

open Block
open Rle (decoded)

variable {K : Type} [DecidableEq K] {w : ℕ}

/-- The agent of `invoke_streaming`, with `equal_to` and `plus`. -/
def encodeAgent (A : Agent K (BitVec w)) : Agent K (BitVec w) :=
  { A with
    equalityOp := fun a b => decide (a = b)
    reductionOp := fun a b => a + b }

/-- `capped_num_items_per_invocation`. -/
def cappedNumItems (tileSize : ℕ) : ℕ := 2 ^ 31 - 1 - (2 ^ 31 - 1) % tileSize

/-- `Encode`.  If there are no items, the number of runs is what the init kernel has written. -/
def encode (A : Agent K (BitVec w)) (useStreamingInvocation : Bool) (keysIn : ℕ → K) (numItems : ℕ)
    (b : Agent.Buffers (BitVec w)) : Output K (BitVec w) :=
  if numItems = 0 then { Output.empty with numRuns := some 0 }
  else if useStreamingInvocation then
    (encodeAgent A).dispatchStreaming keysIn (fun _ => 1) 0 0 (partitionSizes numItems (cappedNumItems A.tileItems)) b
  else (encodeAgent A).dispatch keysIn (fun _ => 1) numItems

/-- A group of positions with the same key, as a run. -/
def runOf (keysIn : ℕ → K) (group : List ℕ) : K × ℕ := (keysIn (group.headD 0), group.length)

variable {A : Agent K (BitVec w)} {keysIn : ℕ → K} {group : List ℕ}

omit [DecidableEq K] in
theorem key_of_mem (h : group.IsChain fun i j => keysIn i = keysIn j) {j : ℕ} (hj : j ∈ group) :
    keysIn j = keysIn (group.headD 0) := by
  have : IsTrans ℕ fun i j => keysIn i = keysIn j := ⟨fun _ _ _ => Eq.trans⟩
  cases group with
  | nil => exact absurd hj List.not_mem_nil
  | cons i is =>
    rcases List.mem_cons.mp hj with rfl | hj
    · rfl
    · exact (List.rel_of_pairwise_cons (List.isChain_iff_pairwise.mp h) hj).symm

theorem foldl_ones : ∀ (is : List ℕ) (n : ℕ),
    is.foldl (fun v _ => v + 1) (BitVec.ofNat w n) = BitVec.ofNat w (n + is.length)
  | [], n => rfl
  | _ :: is, n => by
    rw [List.foldl_cons, List.length_cons, ← Nat.add_assoc, Nat.add_right_comm, ← foldl_ones is (n + 1),
      BitVec.ofNat_add]
    rfl

/-- The aggregate of a group is its run. -/
theorem aggregate_group (h : group.IsChain fun i j => keysIn i = keysIn j) (hne : group ≠ []) :
    (encodeAgent A).aggregate keysIn (fun _ => 1) group =
      some ((runOf keysIn group).1, BitVec.ofNat w (runOf keysIn group).2) := by
  cases group with
  | nil => exact absurd rfl hne
  | cons i is =>
    have hkey := key_of_mem h (List.getLast_mem hne)
    have hones := foldl_ones (w := w) is 1
    rw [Agent.aggregate, hkey, runOf, List.length_cons, Nat.add_comm is.length, ← hones]
    rfl

omit [DecidableEq K] in
theorem decoded_groups {groups : List (List ℕ)}
    (h : ∀ group ∈ groups, group.IsChain fun i j => keysIn i = keysIn j) :
    (decoded (groups.map (runOf keysIn))).map Prod.fst = groups.flatten.map keysIn := by
  rw [decoded, List.map_flatMap, List.flatMap_map, List.map_flatten, List.flatMap_def]
  refine congrArg List.flatten (List.map_congr_left fun group hgroup => ?_)
  rw [List.map_map, runOf]
  refine List.ext_getElem (by simp) fun j hj hj' => ?_
  rw [List.length_map] at hj'
  simp only [List.getElem_map, Function.comp_apply]
  exact (key_of_mem (h group hgroup) (List.getElem_mem hj')).symm

/-- All launches together write what the groups of the input are. -/
theorem encode_exact (htile : A.tileItems < 2 ^ 31) (useStreamingInvocation : Bool) {numItems : ℕ}
    (hpos : 0 < numItems) (b : Agent.Buffers (BitVec w)) : (encodeAgent A).Exact keysIn (fun _ => 1) numItems
      (encode A useStreamingInvocation keysIn numItems b) := by
  have hadd : ∀ a b c : BitVec w, a + b + c = a + (b + c) := BitVec.add_assoc
  rw [encode, if_neg hpos.ne']
  cases useStreamingInvocation with
  | true =>
    have hcapped : 0 < cappedNumItems A.tileItems :=
      Nat.sub_pos_of_lt ((Nat.mod_lt _ A.tileItems_pos).trans_le (Nat.le_pred_of_lt htile))
    obtain ⟨hsplit, hsum⟩ := partitionSizes_isSplit hpos hcapped (Nat.dvd_sub_mod _)
    have hfirst : ∀ {p : Prop}, 0 < 0 → p := fun h => absurd h (lt_irrefl 0)
    have hb : Agent.BuffersOk (encodeAgent A) keysIn (fun _ => 1) 0 0 b := ⟨Iff.rfl, hfirst, hfirst⟩
    have h := Agent.dispatchStreaming_spec (A := encodeAgent A) hadd hsplit hb
    rw [hsum] at h
    exact h.exact hpos
  | false =>
    refine (Agent.kernel_spec (P := 0) (I := ⟨keysIn, fun _ => 1, numItems, none⟩) hadd ?_).exact hpos
    exact {
      keys i := by rw [Nat.zero_add]
      values i := rfl
      numItems_pos := hpos
      full hlast := absurd hlast (by simp [Agent.isLastPartition])
      first := rfl
      context hP := absurd hP (lt_irrefl 0) }

/-- **Encoding can be undone.**  For every number of items, every tile and every type of the lengths, in partitions or
without, the runs are written in order and each slot once; what is decoded from them is the input.  No run is empty,
none is longer than the input, and neighbours have different keys.  A length is written as a number of its type. -/
theorem encode_decoded (A : Agent K (BitVec w)) (htile : A.tileItems < 2 ^ 31) (useStreamingInvocation : Bool)
    (keysIn : ℕ → K) (numItems : ℕ) (b : Agent.Buffers (BitVec w)) : ∃ runs : List (K × ℕ),
    (encode A useStreamingInvocation keysIn numItems b).numRuns = some runs.length ∧
    (encode A useStreamingInvocation keysIn numItems b).writes.Perm
      ((runs.map fun run => some (run.1, BitVec.ofNat w run.2)).zipIdx.map Prod.swap) ∧
    (decoded runs).map Prod.fst = (List.range numItems).map keysIn ∧
    (∀ run ∈ runs, 0 < run.2 ∧ run.2 ≤ numItems) ∧ runs.IsChain fun a b => a.1 ≠ b.1 := by
  rcases Nat.eq_zero_or_pos numItems with rfl | hpos
  · exact ⟨[], rfl, List.Perm.refl _, rfl, by simp, List.isChain_nil⟩
  have hexact : (encodeAgent A).Exact keysIn _ _ _ := encode_exact htile useStreamingInvocation hpos b
  obtain ⟨groups, hgroups⟩ : ∃ groups, groups = (List.range numItems).splitBy
    fun i j => (encodeAgent A).equalityOp (keysIn i) (keysIn j) := ⟨_, rfl⟩
  have hflatten : groups.flatten = List.range numItems := hgroups ▸ List.flatten_splitBy _ _
  have hne : ∀ group ∈ groups, group ≠ [] := fun group h => List.ne_nil_of_mem_splitBy (hgroups ▸ h)
  have hchain : ∀ group ∈ groups, group.IsChain fun i j => keysIn i = keysIn j := fun group h =>
    (List.isChain_of_mem_splitBy (hgroups ▸ h)).imp fun i j => of_decide_eq_true
  have hexpected : (encodeAgent A).expected keysIn (fun _ => 1) numItems =
      (groups.map (runOf keysIn)).map fun run => some (run.1, BitVec.ofNat w run.2) := by
    rw [Agent.expected, ← hgroups, List.map_map]
    exact List.map_congr_left fun group h => aggregate_group (hchain group h) (hne group h)
  refine ⟨groups.map (runOf keysIn), ?_, hexpected ▸ hexact.writes,
    by rw [decoded_groups hchain, hflatten], ?_, ?_⟩
  · rw [hexact.numRuns, hexpected, List.length_map]
  · intro run hrun
    obtain ⟨group, hgroup, rfl⟩ := List.mem_map.mp hrun
    refine ⟨List.length_pos_iff.mpr (hne group hgroup), ?_⟩
    have := (List.sublist_flatten_of_mem hgroup).length_le
    rwa [hflatten, List.length_range] at this
  · have hborders := List.isChain_getLast_head_splitBy
      (fun i j => (encodeAgent A).equalityOp (keysIn i) (keysIn j)) (List.range numItems)
    rw [← hgroups] at hborders
    refine (List.isChain_map _).mpr (hborders.imp_of_mem_imp fun a b ha hb hborder => ?_)
    obtain ⟨hane, hbne, hkeys⟩ := hborder
    have hkeys := of_decide_eq_false hkeys
    rw [key_of_mem (hchain a ha) (List.getLast_mem hane), key_of_mem (hchain b hb) (List.head_mem hbne)] at hkeys
    exact hkeys

/-- Tiles of two items, and lengths of eight bits. -/
def pairs : Agent Bool (BitVec 8) :=
  ⟨1, 2, fun _ _ => true, fun a _ => a, fun _ => true, fun _ => 0, (0, 0), Nat.one_pos, Nat.two_pos⟩

/-- Four items in three runs. -/
theorem encode_decoded_pairs : ∃ runs : List (Bool × ℕ),
    (encode pairs true (fun i => decide (i % 3 = 0)) 4 ⟨fun _ => 0, fun _ => 0⟩).numRuns = some runs.length ∧
    (encode pairs true (fun i => decide (i % 3 = 0)) 4 ⟨fun _ => 0, fun _ => 0⟩).writes.Perm
      ((runs.map fun run => some (run.1, BitVec.ofNat 8 run.2)).zipIdx.map Prod.swap) ∧
    (decoded runs).map Prod.fst = [true, false, false, true] ∧ (∀ run ∈ runs, 0 < run.2 ∧ run.2 ≤ 4) ∧
    runs.IsChain fun a b => a.1 ≠ b.1 :=
  encode_decoded pairs (by decide) true (fun i => decide (i % 3 = 0)) 4 ⟨fun _ => 0, fun _ => 0⟩

end Cccl.ReduceByKey
