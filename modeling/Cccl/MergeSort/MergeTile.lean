/-
# A tile of a merge pass

A block loads its two slices into shared memory, one behind the other (`loaded_keys`).  The registers of a tile
that is not full have old contents there, and so has the cell behind the tile; `tileContent` says what is where.
Each thread searches its diagonal and merges from there on (`mergeThreadSlices_spec`).  Its part may go on behind
the end of the slices, but what is behind is not stored.  So the block stores the merge of the slices
(`consumeTile_eq`).
-/
import Cccl.MergeSort.MergeAgents

namespace Cccl.MergeSort

open Chunks StableSort

variable {K V : Type}

namespace MergePass

variable {M : MergePass} {f : ℕ → K × V} {old : OldContents K V} {n1 n2 a1 a2 : ℕ}

/-! ## 1. Shared memory -/

/-- What is in shared memory when the slices have been loaded. -/
def tileContent (M : MergePass) (f : ℕ → K × V) (old : OldContents K V) (n1 n2 a1 a2 idx : ℕ) : K × V :=
  if idx < n1 then f (a1 + idx)
  else if idx < n1 + n2 then f (a2 + (idx - n1))
  else if idx < M.itemsPerTile then
    (old.keysLocal (idx % M.threadsPerBlock) (idx / M.threadsPerBlock),
      old.itemsLocal (idx % M.threadsPerBlock) (idx / M.threadsPerBlock))
  else (old.keysShared, old.itemsShared)

theorem slice_tileContent_fst :
    slice (M.tileContent f old n1 n2 a1 a2) 0 n1 = slice f a1 (a1 + n1) := by
  refine List.ext_getElem? fun i => ?_
  rcases Nat.lt_or_ge i n1 with hlt | hge
  · rw [getElem?_slice (by omega), getElem?_slice (by omega), Nat.zero_add, tileContent, if_pos hlt]
  · rw [List.getElem?_eq_none (by rw [length_slice]; omega), List.getElem?_eq_none (by rw [length_slice]; omega)]

theorem slice_tileContent_snd :
    slice (M.tileContent f old n1 n2 a1 a2) n1 (n1 + n2) = slice f a2 (a2 + n2) := by
  refine List.ext_getElem? fun i => ?_
  rcases Nat.lt_or_ge i n2 with hlt | hge
  · rw [getElem?_slice (by omega), getElem?_slice (by omega), tileContent, if_neg (by omega), if_pos (by omega),
      Nat.add_sub_cancel_left]
  · rw [List.getElem?_eq_none (by rw [length_slice]; omega), List.getElem?_eq_none (by rw [length_slice]; omega)]

/-- A cell of the tile has the item that the thread has loaded from the slices, or its old one. -/
theorem regToShared_gmemToReg {T : Type} {isFullTile : Bool} {oldRegs : ℕ → ℕ → T} {oldCell : T}
    {input1 input2 : ℕ → Option T} {g1 g2 : ℕ → T} (h1 : ∀ i < n1, input1 i = some (g1 i))
    (h2 : ∀ i < n2, input2 i = some (g2 i)) (hfit : n1 + n2 ≤ M.itemsPerTile)
    (hfull : isFullTile = true → n1 + n2 = M.itemsPerTile) {idx : ℕ} (hidx : idx ≤ M.itemsPerTile) :
    M.regToShared oldCell (M.gmemToReg isFullTile oldRegs input1 input2 n1 n2) idx =
      some (if idx < n1 then g1 idx
        else if idx < n1 + n2 then g2 (idx - n1)
        else if idx < M.itemsPerTile then oldRegs (idx % M.threadsPerBlock) (idx / M.threadsPerBlock)
        else oldCell) := by
  have hsplit := Nat.div_add_mod idx M.threadsPerBlock
  unfold regToShared
  rcases Nat.lt_or_ge idx M.itemsPerTile with hlt | hge
  · simp only [hlt, if_true, gmemToReg, hsplit]
    rcases Nat.lt_or_ge idx n1 with hfirst | hrest
    · rw [if_pos (Or.inr (by omega)), if_pos hfirst, if_pos hfirst, h1 idx hfirst]
    rcases Nat.lt_or_ge idx (n1 + n2) with hsecond | hbehind
    · rw [if_pos (Or.inr hsecond), if_neg (by omega), if_neg (by omega), if_pos hsecond, h2 _ (by omega)]
    · have hnot : ¬(isFullTile = true ∨ idx < n1 + n2) := by
        rintro (hisFull | hless)
        · have := hfull hisFull
          omega
        · omega
      rw [if_neg hnot, if_neg (by omega), if_neg (by omega)]
  · rw [if_neg (by omega), if_pos (by omega), if_neg (by omega), if_neg (by omega), if_neg (by omega)]

/-! ## 2. A thread -/

section Thread

variable {lt : K → K → Bool} [IsStrictWeakOrder K fun a b => lt a b = true]

/-- **A thread merges from its diagonal on.** -/
theorem mergeThreadSlices_spec {P : ℕ → K × V} {keysShared : ℕ → Option K} {tid : ℕ}
    (hload : ∀ i ≤ M.itemsPerTile, keysShared i = some (P i).1) (hfit : n1 + n2 ≤ M.itemsPerTile)
    (htid : tid < M.threadsPerBlock) (output : K)
    (h1 : (slice P 0 n1).Pairwise fun a b => keyBelow lt b a = false)
    (h2 : (slice P n1 (n1 + n2)).Pairwise fun a b => keyBelow lt b a = false) :
    ∃ out, M.mergeThreadSlices lt keysShared n1 n2 tid output = some out ∧
      out.length = M.itemsPerThread ∧ (∀ o ∈ out, o.2 < M.itemsPerTile) ∧
      ∀ e < M.itemsPerThread, M.itemsPerThread * tid + e < n1 + n2 →
        (out.map fun o => (o.1, (P o.2).2))[e]? =
          ((slice P 0 n1).merge (slice P n1 (n1 + n2)) (notAbove (keyBelow lt)))[M.itemsPerThread * tid + e]? := by
  have hlast : M.itemsPerThread * tid + M.itemsPerThread ≤ M.itemsPerTile := by
    rw [← Nat.mul_add_one, itemsPerTile, Nat.mul_comm M.threadsPerBlock]
    exact Nat.mul_le_mul_left _ htid
  obtain ⟨diag, hdiag⟩ : ∃ d, min (n1 + n2) (M.itemsPerThread * tid) = d := ⟨_, rfl⟩
  obtain ⟨p, hp, hcut⟩ : ∃ p, mergePath lt keysShared (fun i => keysShared (n1 + i)) n1 n2 diag = some p ∧
      IsCut lt (fun i => (P (0 + i)).1) (fun i => (P (n1 + i)).1) (n1 - 0) (n1 + n2 - n1) diag p := by
    rw [Nat.sub_zero, Nat.add_sub_cancel_left]
    refine mergePath_spec (fun i hi => ?_) (fun i hi => hload _ (by omega)) (by omega)
    rw [Nat.zero_add]
    exact hload i (by omega)
  have hmerge := hcut.drop_merge (Nat.zero_le _) (Nat.le_add_right _ _) h1 h2
  obtain ⟨hcount, hle, hrest, -, -⟩ := hcut
  rw [Nat.zero_add] at hmerge
  have hsecond : n1 + diag - p = diag - p + n1 := by omega
  rw [hsecond] at hmerge
  obtain ⟨out, hout, hlen, hin, hitems⟩ := serialMerge_spec lt hload M.itemsPerThread p n1 (diag - p + n1)
    (n1 + n2) (by omega) (by omega) (by omega) hfit (by omega) output
  have hcount2 : n1 + n2 - (diag - p + n1) = n2 - (diag - p) := by omega
  refine ⟨out, ?_, hlen, hin, fun e he hvalid => ?_⟩
  · unfold mergeThreadSlices
    simp only [hdiag, hp, Option.bind_some]
    rw [← hcount2]
    exact hout
  · have helem := congrArg (fun l : List (K × V) => l[e]?) hitems
    rw [← hmerge] at helem
    simp only [List.map_take, List.getElem?_take, List.getElem?_drop] at helem
    rw [if_pos (by omega), if_pos he] at helem
    rw [helem]
    congr 1
    omega

/-- **A block stores the merge of its slices.** -/
theorem consumeTile_eq {keys : ℕ → Option K} {items : ℕ → Option V} {s : TileSlices} {isFullTile : Bool} {count : ℕ}
    (hn1 : s.numKeys1 = n1) (hn2 : s.numKeys2 = n2) (hfit : n1 + n2 ≤ M.itemsPerTile)
    (hfull : isFullTile = true → n1 + n2 = M.itemsPerTile) (hcount : count = n1 + n2)
    (hkeys1 : ∀ i < n1, keys (s.start + s.keys1Beg + i) = some (f (a1 + i)).1)
    (hkeys2 : ∀ i < n2, keys (s.start + s.size + s.keys2Beg + i) = some (f (a2 + i)).1)
    (hitems1 : ∀ i < n1, items (s.start + s.keys1Beg + i) = some (f (a1 + i)).2)
    (hitems2 : ∀ i < n2, items (s.start + s.size + s.keys2Beg + i) = some (f (a2 + i)).2)
    (h1 : (slice f a1 (a1 + n1)).Pairwise fun a b => keyBelow lt b a = false)
    (h2 : (slice f a2 (a2 + n2)).Pairwise fun a b => keyBelow lt b a = false) :
    M.consumeTile lt keys items old isFullTile s count =
      some ⟨((slice f a1 (a1 + n1)).merge (slice f a2 (a2 + n2)) (notAbove (keyBelow lt))).map Prod.fst,
        ((slice f a1 (a1 + n1)).merge (slice f a2 (a2 + n2)) (notAbove (keyBelow lt))).map Prod.snd⟩ := by
  obtain ⟨P, hP⟩ : ∃ P, M.tileContent f old n1 n2 a1 a2 = P := ⟨_, rfl⟩
  have hloadKeys : ∀ i ≤ M.itemsPerTile, M.regToShared old.keysShared (M.gmemToReg isFullTile old.keysLocal
      (fun i => keys (s.start + s.keys1Beg + i)) (fun i => keys (s.start + s.size + s.keys2Beg + i)) n1 n2) i =
        some (P i).1 := by
    intro i hi
    rw [regToShared_gmemToReg hkeys1 hkeys2 hfit hfull hi, ← hP, tileContent, apply_ite Prod.fst,
      apply_ite Prod.fst, apply_ite Prod.fst]
  have hloadItems : ∀ i ≤ M.itemsPerTile, M.regToShared old.itemsShared (M.gmemToReg isFullTile old.itemsLocal
      (fun i => items (s.start + s.keys1Beg + i)) (fun i => items (s.start + s.size + s.keys2Beg + i)) n1 n2) i =
        some (P i).2 := by
    intro i hi
    rw [regToShared_gmemToReg hitems1 hitems2 hfit hfull hi, ← hP, tileContent, apply_ite Prod.snd,
      apply_ite Prod.snd, apply_ite Prod.snd]
  have hfirst : slice P 0 n1 = slice f a1 (a1 + n1) := hP ▸ slice_tileContent_fst
  have hsecond : slice P n1 (n1 + n2) = slice f a2 (a2 + n2) := hP ▸ slice_tileContent_snd
  rw [← hfirst] at h1 ⊢
  rw [← hsecond] at h2 ⊢
  obtain ⟨merged, hmerged⟩ : ∃ l, (slice P 0 n1).merge (slice P n1 (n1 + n2)) (notAbove (keyBelow lt)) = l := ⟨_, rfl⟩
  have hlenMerged : merged.length = n1 + n2 := by
    rw [← hmerged, List.length_merge, length_slice, length_slice]
    omega
  have hthreads : ∀ tid a, (List.range M.threadsPerBlock)[tid]? = some a → ∃ regs,
      ((M.gmemToReg isFullTile old.keysLocal (fun i => keys (s.start + s.keys1Beg + i))
          (fun i => keys (s.start + s.size + s.keys2Beg + i)) n1 n2 tid 0).bind fun output =>
        (M.mergeThreadSlices lt (M.regToShared old.keysShared (M.gmemToReg isFullTile old.keysLocal
          (fun i => keys (s.start + s.keys1Beg + i)) (fun i => keys (s.start + s.size + s.keys2Beg + i)) n1 n2))
          n1 n2 tid output).bind fun indices =>
        BlockMergeSortStrategy.gather (M.regToShared old.itemsShared (M.gmemToReg isFullTile old.itemsLocal
          (fun i => items (s.start + s.keys1Beg + i)) (fun i => items (s.start + s.size + s.keys2Beg + i)) n1 n2))
          indices) = some regs ∧
      (regs.length = M.itemsPerThread ∧ ∀ e < M.itemsPerThread, M.itemsPerThread * tid + e < n1 + n2 →
        regs[e]? = merged[M.itemsPerThread * tid + e]?) := by
    intro tid a ha
    have htid : tid < M.threadsPerBlock := by
      have := (List.getElem?_eq_some_iff.mp ha).1
      rwa [List.length_range] at this
    -- a thread has the key of its own number in its first register
    have hle : M.threadsPerBlock ≤ M.itemsPerTile := Nat.le_mul_of_pos_right _ M.itemsPerThread_pos
    have houtput := hloadKeys tid (by omega)
    rw [regToShared, if_pos (by omega), Nat.mod_eq_of_lt htid, Nat.div_eq_of_lt htid] at houtput
    obtain ⟨out, hout, hlen, hin, hpart⟩ := mergeThreadSlices_spec hloadKeys hfit htid (P tid).1 h1 h2
    refine ⟨out.map fun o => (o.1, (P o.2).2), ?_, by rw [List.length_map, hlen], ?_⟩
    · rw [houtput, Option.bind_some, hout, Option.bind_some]
      exact BlockMergeSortStrategy.gather_spec fun o ho => hloadItems _ (hin o ho).le
    · intro e he hvalid
      rw [hpart e he hvalid, hmerged]
  obtain ⟨all, hall, hlenAll, hregs⟩ := forThreads_spec hthreads
  rw [List.length_range] at hlenAll
  have hpieces : ∀ regs ∈ all, regs.length = M.itemsPerThread := by
    intro regs hmem
    obtain ⟨tid, htid⟩ := List.mem_iff_getElem?.mp hmem
    exact (hregs tid regs htid).1
  -- what is stored is at the positions of the merge
  have hflatten : all.flatten.take (n1 + n2) = merged := by
    refine List.ext_getElem? fun q => ?_
    rw [List.getElem?_take]
    rcases Nat.lt_or_ge q (n1 + n2) with hq | hq
    · have htid : q / M.itemsPerThread < all.length := by
        rw [hlenAll]
        refine Nat.div_lt_of_lt_mul ?_
        rw [Nat.mul_comm]
        exact hq.trans_le hfit
      have hsplit := Nat.div_add_mod q M.itemsPerThread
      rw [if_pos hq, getElem?_flatten M.itemsPerThread_pos q hpieces, List.getElem?_eq_getElem htid,
        Option.bind_some, (hregs _ _ (List.getElem?_eq_getElem htid)).2 _ (Nat.mod_lt q M.itemsPerThread_pos)
        (by omega), hsplit]
    · rw [if_neg (by omega), List.getElem?_eq_none (by omega)]
  have hkeep : (if isFullTile then M.itemsPerTile else n1 + n2) = n1 + n2 := by
    split
    · exact (hfull (by assumption)).symm
    · rfl
  unfold consumeTile
  rw [hn1, hn2, hcount]
  simp only [Option.bind_eq_bind] at hall ⊢
  rw [hall, Option.bind_some, hkeep, ← List.map_take, ← List.map_take, hflatten, hmerged]
  rfl

end Thread

end MergePass

end Cccl.MergeSort
