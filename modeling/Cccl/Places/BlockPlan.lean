/-
# The plan of blocks is a census of the bytes

The walk of `RunsExact` hands the runs of equal owners to its callbacks.  What `try_block_owners` does
with them is a census of the bytes: after the bytes up to some position have been fed, the blocks before
the current one have been given to majority owners, and the histogram counts the bytes of the current
block (`Census.Inv`).  Feeding a run keeps this, a block after the other (`Census.feed_inv`); so at the
end there is one owner for each block (`tryBlockOwners_spec`).

`try_block_runs` succeeds if all runs start at blocks, that is, if owners change only there
(`tryBlockRuns_eq`).  Then the blocks are pure, and both functions agree.

All this needs that no number is reduced modulo `2 ^ 64` (`FitsSizeT`).  The constructor does not check
this for the leaves: it accepts leaves whose strides do not divide each other, and then the owner changes
within a segment (`not_planIsCensus`).
-/
import Cccl.Places.RunsExact

namespace Cccl.Places

/-! ## 1. Closing a block -/

theorem foldl_best_spec : ∀ (hist : List (Pos4 × ℕ)) (best : Pos4 × ℕ),
    let last := hist.foldl (fun best e => if best.2 < e.2 then e else best) best
    (last = best ∨ last ∈ hist) ∧ best.2 ≤ last.2 ∧ ∀ e ∈ hist, e.2 ≤ last.2
  | [], best => ⟨Or.inl rfl, Nat.le_refl _, by simp⟩
  | e :: hist, best => by
    simp only [List.foldl_cons]
    split
    · rename_i hlt
      obtain ⟨hlast, hle, hall⟩ := foldl_best_spec hist e
      refine ⟨Or.inr ?_, hlt.le.trans hle, ?_⟩
      · rcases hlast with hlast | hlast
        · rw [hlast]
          exact List.mem_cons_self
        · exact List.mem_cons_of_mem _ hlast
      · exact List.forall_mem_cons.mpr ⟨hle, hall⟩
    · rename_i hlt
      obtain ⟨hlast, hle, hall⟩ := foldl_best_spec hist best
      refine ⟨hlast.imp_right (List.mem_cons_of_mem _), hle, ?_⟩
      exact List.forall_mem_cons.mpr ⟨(Nat.not_lt.mp hlt).trans hle, hall⟩

variable {f : ℕ → Pos4}

/-- **The loop of `close_block` finds a majority owner.** -/
theorem bestOwner_spec {lo hi : ℕ} {hist : List (Pos4 × ℕ)} (h : IsHist f lo hi hist)
    (hlt : lo < hi) : IsMajority f lo hi (bestOwner hist).1 ∧
      (bestOwner hist).2 = countIn f lo hi (bestOwner hist).1 := by
  obtain ⟨hlast, -, hall⟩ := foldl_best_spec hist (⟨0, 0, 0, 0⟩, 0)
  have hle : ∀ o, countIn f lo hi o ≤ (bestOwner hist).2 := by
    intro o
    rcases Nat.eq_zero_or_pos (countIn f lo hi o) with hzero | hpos
    · rw [hzero]
      exact Nat.zero_le _
    · obtain ⟨e, he, rfl⟩ := List.mem_map.mp (h.complete o hpos)
      rw [← h.count e he]
      exact hall e he
  have hcount : (bestOwner hist).2 = countIn f lo hi (bestOwner hist).1 := by
    rcases hlast with hlast | hlast
    · -- some owner has been counted
      have hpos := countIn_pos (f := f).mpr ⟨lo, Nat.le_refl _, hlt, rfl⟩
      have hzero : (bestOwner hist).2 = 0 := congrArg Prod.snd hlast
      have := hle (f lo)
      omega
    · exact h.count _ hlast
  refine ⟨fun o => ?_, hcount⟩
  rw [← hcount]
  exact hle o

/-! ## 2. Feeding runs -/

/-- The bytes up to a position have been fed. -/
structure Census.Inv (f : ℕ → Pos4) (blockSize p : ℕ) (c : Census) : Prop where
  length_eq : c.owners.length = c.curBlock
  census : IsCensus f blockSize (c.curBlock * blockSize) c.owners c.misplacedBytes
  hist : IsHist f (c.curBlock * blockSize) p c.hist
  block_le : c.curBlock * blockSize ≤ p
  le_block : p ≤ (c.curBlock + 1) * blockSize
  lt_of_ne : c.hist ≠ [] → c.curBlock * blockSize < p

theorem Census.inv_init (f : ℕ → Pos4) {blockSize : ℕ} (hblock : 0 < blockSize) :
    Census.Inv f blockSize 0 ⟨[], [], 0, 0⟩ where
  length_eq := rfl
  census := by
    rw [Nat.zero_mul]
    exact .zero f hblock
  hist := by
    rw [Nat.zero_mul]
    exact .nil f 0
  block_le := by rw [Nat.zero_mul]
  le_block := Nat.zero_le _
  lt_of_ne := fun h => absurd rfl h

/-- **Closing the current block**, which may be shorter than the other ones. -/
theorem Census.Inv.closeBlock {blockSize p : ℕ} {c : Census} (h : c.Inv f blockSize p)
    (hlt : c.curBlock * blockSize < p) (hp : p < 2 ^ 64) :
    IsCensus f blockSize p c.closeBlock.owners c.closeBlock.misplacedBytes := by
  obtain ⟨hmajority, hcount⟩ := bestOwner_spec h.hist hlt
  have hcensus := h.census
  have hle := h.le_block
  rw [← h.length_eq] at hcensus hlt hle hmajority hcount
  have hnext := hcensus.snoc hlt hle hmajority
  have hbound : c.misplacedBytes + (p - c.owners.length * blockSize -
      countIn f (c.owners.length * blockSize) p (bestOwner c.hist).1) < 2 ^ 64 := by
    have := List.countP_le_length (p := fun i => decide (c.owners[i / blockSize]? ≠ some (f i)))
      (l := List.range (c.owners.length * blockSize))
    rw [List.length_range] at this
    have hwrong := hcensus.wrong_eq
    rw [misplaced] at hwrong
    omega
  have hwrong : c.closeBlock.misplacedBytes = c.misplacedBytes + (p - c.owners.length * blockSize -
      countIn f (c.owners.length * blockSize) p (bestOwner c.hist).1) := by
    rw [Census.closeBlock, h.hist.sum, hcount, ← h.length_eq, sizeT_of_lt hbound]
  rw [hwrong]
  exact hnext

/-- **A run is fed, a block after the other.**  Each block is closed at most once. -/
theorem Census.feed_inv {blockSize total : ℕ} (hblock : 0 < blockSize)
    (htotal : total + blockSize ≤ 2 ^ 64) {o : Pos4} : ∀ (fuel p len : ℕ) (c : Census),
      c.Inv f blockSize p → p + len ≤ total → (∀ i, p ≤ i → i < p + len → f i = o) →
      2 * len + (p + 1 - (c.curBlock + 1) * blockSize) < fuel →
      ∃ c', Census.feed blockSize o fuel p len c = some c' ∧ c'.Inv f blockSize (p + len)
  | fuel + 1, p, len, c, h, hle, hlabel, hfuel => by
    have hexpand : (c.curBlock + 1) * blockSize = c.curBlock * blockSize + blockSize :=
      Nat.add_one_mul _ _
    have hfrom := h.block_le
    have hto := h.le_block
    unfold Census.feed
    split
    · rename_i hpos
      simp only
      rw [sizeT_of_lt (by omega)]
      split
      · -- the current block is complete
        rename_i hend
        obtain rfl : p = (c.curBlock + 1) * blockSize := by omega
        have hclosed := h.closeBlock (by omega) (by omega)
        have hexpand' : (c.curBlock + 1 + 1) * blockSize =
          (c.curBlock + 1) * blockSize + blockSize := Nat.add_one_mul _ _
        refine feed_inv hblock htotal fuel _ len _ ?_ hle hlabel ?_
        · refine ⟨?_, hclosed, .nil f _, Nat.le_refl _, by simp only; omega, fun hne => absurd rfl hne⟩
          simp only [Census.closeBlock, List.length_append, List.length_singleton, h.length_eq]
        · simp only
          omega
      · -- a part of the run belongs to it
        rename_i hend
        obtain ⟨chunk, hchunk⟩ : ∃ chunk, chunk = min len ((c.curBlock + 1) * blockSize - p) :=
          ⟨_, rfl⟩
        have hpart : ∀ i, p ≤ i → i < p + chunk → f i = o := fun i hi hi' => hlabel i hi (by omega)
        have hhist := h.hist.add hfrom (Nat.le_add_right p chunk) hpart
        rw [Nat.add_sub_cancel_left] at hhist
        have hsum : p + chunk + (len - chunk) = p + len := by omega
        rw [← hchunk, ← hsum]
        refine feed_inv hblock htotal fuel _ _ _ ?_ (by omega) ?_ (by simp only; omega)
        · exact ⟨h.length_eq, h.census, hhist, by simp only; omega, by simp only; omega,
            fun _ => by simp only; omega⟩
        · exact fun i hi hi' => hlabel i (by omega) (by omega)
    · rename_i hpos
      obtain rfl : len = 0 := by omega
      exact ⟨c, rfl, h⟩

theorem Census.foldl_feed {blockSize total fuel : ℕ} (hblock : 0 < blockSize)
    (htotal : total + blockSize ≤ 2 ^ 64) (hfuel : 2 * total + 1 < fuel) :
    ∀ {rs : List (Run Pos4)} {a : ℕ} {c : Census}, Covers f a rs total → c.Inv f blockSize a →
      ∃ c', rs.foldl (fun (c : Option Census) r =>
        c.bind (Census.feed blockSize r.label fuel r.start r.len)) (some c) = some c' ∧
          c'.Inv f blockSize total
  | [], a, c, h, hinv => by
    obtain rfl : a = total := h
    exact ⟨c, rfl, hinv⟩
  | r :: rs, a, c, ⟨hstart, hlen, hlabel, h⟩, hinv => by
    have hto := hinv.le_block
    have hle := h.le
    obtain ⟨c', hc', hinv'⟩ := Census.feed_inv hblock htotal fuel a r.len c hinv hle hlabel (by omega)
    rw [List.foldl_cons, Option.bind_some, hstart, hc']
    exact foldl_feed hblock htotal hfuel h hinv'

/-! ## 3. The plans -/

namespace CutePartitionDescriptor

variable {D : CutePartitionDescriptor}

/-- The extents of the leaves, the padded extents and the bytes of the tensor with one more block are
numbers of type `size_t`. -/
structure FitsSizeT (D : CutePartitionDescriptor) (blockSize elemsize : ℕ) : Prop where
  leaves : ((D.placeLeaves ++ D.localLeaves).map LayoutLeaf.extent).prod < 2 ^ 64
  padded : D.paddedSize < 2 ^ 64
  bytes : D.trueSize * elemsize + blockSize ≤ 2 ^ 64

/-- A run of bytes as a run of blocks. -/
def BlockRun.ofRun (blockSize : ℕ) (r : Run Pos4) : BlockRun :=
  ⟨r.label, r.start / blockSize, (r.len + blockSize - 1) / blockSize⟩

/-- A run of blocks as a run. -/
def BlockRun.toRun (r : BlockRun) : Run Pos4 := ⟨r.firstBlock, r.numBlocks, r.owner⟩

theorem alignedRun_of_dvd {blockSize total : ℕ} (htotal : total + blockSize ≤ 2 ^ 64)
    (hblock : 0 < blockSize) {r : Run Pos4} (hle : r.start + r.len ≤ total)
    (hdvd : blockSize ∣ r.start) (acc : List BlockRun) :
    alignedRun blockSize total r (true, acc) = (true, true, acc ++ [.ofRun blockSize r]) := by
  have hcount : sizeT (min (sizeT (r.start + r.len)) total - r.start + blockSize - 1) =
      r.len + blockSize - 1 := by
    rw [sizeT_of_lt (n := r.start + r.len) (by omega), Nat.min_eq_left hle, sizeT_of_lt (by omega)]
    omega
  rw [alignedRun, if_neg (not_not.mpr (Nat.mod_eq_zero_of_dvd hdvd))]
  simp only [hcount]
  rfl

theorem alignedRun_of_not {blockSize total : ℕ} {r : Run Pos4} (hdvd : ¬ blockSize ∣ r.start)
    (s : Bool × List BlockRun) : alignedRun blockSize total r s = (false, false, s.2) :=
  if_pos fun hmod => hdvd (Nat.dvd_of_mod_eq_zero hmod)

/-- **The callback goes on while the runs start at blocks.** -/
theorem foldRuns_alignedRun {blockSize total : ℕ} (htotal : total + blockSize ≤ 2 ^ 64)
    (hblock : 0 < blockSize) : ∀ {rs : List (Run Pos4)} {a : ℕ} (acc : List BlockRun),
      Covers f a rs total →
      ((∀ r ∈ rs, blockSize ∣ r.start) ∧ foldRuns (alignedRun blockSize total) rs (true, acc) =
        (true, true, acc ++ rs.map (BlockRun.ofRun blockSize))) ∨
      (¬ ∀ r ∈ rs, blockSize ∣ r.start) ∧ ∃ s, foldRuns (alignedRun blockSize total) rs (true, acc) =
        (false, s)
  | [], a, acc, _ => by
    refine Or.inl ⟨by simp, ?_⟩
    rw [List.map_nil, List.append_nil]
    rfl
  | r :: rs, a, acc, h => by
    obtain ⟨hstart, hlen, -, hrest⟩ := h
    have hle := hrest.le
    rw [foldRuns]
    rcases Classical.em (blockSize ∣ r.start) with hdvd | hdvd
    · rw [alignedRun_of_dvd htotal hblock (by omega) hdvd]
      rcases foldRuns_alignedRun htotal hblock (acc ++ [.ofRun blockSize r]) hrest with
        ⟨hall, heq⟩ | ⟨hnot, s, heq⟩
      · refine Or.inl ⟨List.forall_mem_cons.mpr ⟨hdvd, hall⟩, heq.trans ?_⟩
        rw [List.map_cons, List.append_assoc, List.singleton_append]
      · exact Or.inr ⟨fun hall => hnot (List.forall_mem_cons.mp hall).2, s, heq⟩
    · rw [alignedRun_of_not hdvd]
      exact Or.inr ⟨fun hall => hdvd (hall r List.mem_cons_self), _, rfl⟩

section Fits

variable {blockSize elemsize : ℕ} (h : D.FitsSizeT blockSize elemsize) (hpos : 0 < elemsize)
  (hblock : elemsize ≤ blockSize)

include h hpos hblock

theorem FitsSizeT.bytes_lt : D.trueSize * elemsize < 2 ^ 64 := by
  have := h.bytes
  omega

/-- **`try_block_owners` is a census** of the bytes. -/
theorem tryBlockOwners_spec {maxRuns fuel : ℕ}
    (hbudget : D.WithinBudget (D.budget blockSize elemsize maxRuns))
    (hfuel : 2 * (D.trueSize * elemsize) + 1 < fuel) :
    ∃ owners wrong, D.tryBlockOwners blockSize elemsize maxRuns fuel = some (some owners, wrong) ∧
      IsCensus (D.byteOwner elemsize) blockSize (D.trueSize * elemsize) owners wrong := by
  have hbytes := h.bytes_lt hpos hblock
  obtain ⟨hcovers, -⟩ := ownerRuns_covers h.leaves h.padded hpos hbytes
  obtain ⟨c, hc, hinv⟩ := Census.foldl_feed (by omega) h.bytes hfuel hcovers
    (Census.inv_init (D.byteOwner elemsize) (by omega))
  unfold tryBlockOwners
  simp only
  rw [forEachOwnerByteRun_eq h.leaves h.padded hpos hbytes hbudget, foldRuns_true fun _ _ => rfl, hc]
  simp only
  split
  · -- all blocks have been closed
    rename_i hnil
    have hsum := hinv.hist.sum
    rw [hnil, List.map_nil, List.sum_nil] at hsum
    have hall : D.trueSize * elemsize = c.curBlock * blockSize := by
      have := hinv.block_le
      omega
    refine ⟨c.owners, c.misplacedBytes, rfl, ?_⟩
    rw [hall]
    exact hinv.census
  · rename_i hne
    exact ⟨_, _, rfl, hinv.closeBlock (hinv.lt_of_ne hne) hbytes⟩

/-- **`try_block_runs` succeeds if owners change at blocks only.** -/
theorem tryBlockRuns_eq {maxRuns : ℕ}
    (hbudget : D.WithinBudget (D.budget blockSize elemsize maxRuns)) :
    (Aligned (D.byteOwner elemsize) blockSize (D.trueSize * elemsize) ∧
      D.tryBlockRuns blockSize elemsize maxRuns =
        some ((D.ownerRuns elemsize).map (BlockRun.ofRun blockSize))) ∨
    ¬ Aligned (D.byteOwner elemsize) blockSize (D.trueSize * elemsize) ∧
      D.tryBlockRuns blockSize elemsize maxRuns = none := by
  have hbytes := h.bytes_lt hpos hblock
  obtain ⟨hcovers, hchain⟩ := ownerRuns_covers h.leaves h.padded hpos hbytes
  rw [← hcovers.aligned_iff hchain]
  have htotal : D.totalBytes elemsize = D.trueSize * elemsize := by
    have hsize : D.trueSize < 2 ^ 64 := (Nat.le_mul_of_pos_right _ hpos).trans_lt hbytes
    rw [totalBytes, Dim4.size, ← trueSize, sizeT_of_lt hsize, sizeT_of_lt hbytes]
  unfold tryBlockRuns
  rw [forEachOwnerByteRun_eq h.leaves h.padded hpos hbytes hbudget, htotal]
  refine (foldRuns_alignedRun h.bytes (by omega) [] hcovers).imp ?_ ?_
  · rintro ⟨hall, heq⟩
    rw [heq]
    exact ⟨hall, rfl⟩
  · rintro ⟨hnot, s, heq⟩
    rw [heq]
    exact ⟨hnot, rfl⟩

end Fits

/-! ## 4. What is asked of the plans -/

/-- The walk, if it is within its budget, goes through the runs of equal owners, and both plans are what
a count of the bytes gives. -/
structure PlanIsCensus (D : CutePartitionDescriptor) (blockSize elemsize : ℕ) : Prop where
  runs : ∃ runs : List (Run Pos4),
    Covers (D.byteOwner elemsize) 0 runs (D.trueSize * elemsize) ∧
    (runs.IsChain fun r r' => r.label ≠ r'.label) ∧
    ∀ maxRuns, D.WithinBudget maxRuns → ∀ (σ : Type) (emit : Run Pos4 → σ → Bool × σ) (state : σ),
      D.forEachOwnerByteRun elemsize maxRuns emit state = foldRuns emit runs state
  blockOwners : ∀ maxRuns, D.WithinBudget (D.budget blockSize elemsize maxRuns) →
    ∀ fuel, 2 * (D.trueSize * elemsize) + 1 < fuel → ∃ owners wrong,
      D.tryBlockOwners blockSize elemsize maxRuns fuel = some (some owners, wrong) ∧
      IsCensus (D.byteOwner elemsize) blockSize (D.trueSize * elemsize) owners wrong
  blockRuns : ∀ maxRuns, D.WithinBudget (D.budget blockSize elemsize maxRuns) →
    ((D.tryBlockRuns blockSize elemsize maxRuns).isSome ↔
      Aligned (D.byteOwner elemsize) blockSize (D.trueSize * elemsize))
  agree : ∀ maxRuns, D.WithinBudget (D.budget blockSize elemsize maxRuns) →
    ∀ runs, D.tryBlockRuns blockSize elemsize maxRuns = some runs →
    ∀ fuel, 2 * (D.trueSize * elemsize) + 1 < fuel → ∃ owners,
      D.tryBlockOwners blockSize elemsize maxRuns fuel = some (some owners, 0) ∧
      Covers (fun k => owners.getD k ⟨0, 0, 0, 0⟩) 0 (runs.map BlockRun.toRun)
        ((D.trueSize * elemsize + blockSize - 1) / blockSize)

/-- **The plans are what a count of the bytes gives**, if no number is reduced. -/
theorem planIsCensus_of_fits (D : CutePartitionDescriptor) {blockSize elemsize : ℕ}
    (hpos : 0 < elemsize) (hblock : elemsize ≤ blockSize) (h : D.FitsSizeT blockSize elemsize) :
    D.PlanIsCensus blockSize elemsize := by
  have hbytes := h.bytes_lt hpos hblock
  obtain ⟨hcovers, hchain⟩ := ownerRuns_covers h.leaves h.padded hpos hbytes
  refine ⟨⟨D.ownerRuns elemsize, hcovers, hchain, ?_⟩, ?_, ?_, ?_⟩
  · intro maxRuns hbudget σ emit state
    exact forEachOwnerByteRun_eq h.leaves h.padded hpos hbytes hbudget emit state
  · intro maxRuns hbudget fuel hfuel
    exact tryBlockOwners_spec h hpos hblock hbudget hfuel
  · intro maxRuns hbudget
    rcases tryBlockRuns_eq h hpos hblock hbudget with ⟨haligned, heq⟩ | ⟨hnot, heq⟩
    · simp [heq, haligned]
    · simp [heq, hnot]
  · intro maxRuns hbudget runs hruns fuel hfuel
    rcases tryBlockRuns_eq h hpos hblock hbudget with ⟨haligned, heq⟩ | ⟨-, heq⟩
    · obtain ⟨owners, wrong, howners, hcensus⟩ := tryBlockOwners_spec h hpos hblock hbudget hfuel
      obtain ⟨hpure, rfl⟩ := hcensus.of_aligned (by omega) haligned
      refine ⟨owners, howners, ?_⟩
      obtain rfl := Option.some.inj (heq.symm.trans hruns)
      have hblocks := hcovers.toBlocks (by omega) (Nat.dvd_zero blockSize)
        ((hcovers.aligned_iff hchain).mpr haligned)
      rw [Nat.zero_div] at hblocks
      rw [List.map_map]
      refine hblocks.congr fun k _ hk => ?_
      rw [← hcensus.length_eq] at hk
      rw [List.getD_eq_getElem?_getD, hpure k hk]
      rfl
    · rw [heq] at hruns
      exact absurd hruns (by simp)

/-- Three rows of three elements; the columns are blocked over two places. -/
def blockedColumns : CutePartitionDescriptor where
  placeLeaves := [⟨2, 2⟩]
  placeAxes := [0]
  localLeaves := [⟨2, 1⟩, ⟨3, 4⟩]
  paddedDims := ⟨4, 3, 1, 1⟩
  trueDims := ⟨3, 3, 1, 1⟩
  gridDims := ⟨2, 1, 1, 1⟩
  accepted := by decide

theorem planIsCensus_blockedColumns : blockedColumns.PlanIsCensus 8 4 :=
  planIsCensus_of_fits blockedColumns (by decide) (by decide) ⟨by decide, by decide, by decide⟩

/-- Twenty elements over three times two places.  The strides of the places are three and ten; ten is
the product of the extents before, modulo `2 ^ 64`. -/
def wrappedStrides : CutePartitionDescriptor where
  placeLeaves := [⟨3, 3⟩, ⟨2, 10⟩]
  placeAxes := [0, 1]
  localLeaves := [⟨3, 1⟩, ⟨10248191152060862010, 9⟩]
  paddedDims := ⟨20, 1, 1, 1⟩
  trueDims := ⟨20, 1, 1, 1⟩
  gridDims := ⟨3, 2, 1, 1⟩
  accepted := by decide

/-- **An accepted partition whose runs are not those of the owners.**  The bytes from nine to eleven
are taken for one segment, but the owner changes at ten. -/
theorem not_planIsCensus : wrappedStrides.paddedSize < 2 ^ 64 ∧
    wrappedStrides.WithinBudget (wrappedStrides.budget 1 1 0) ∧
    wrappedStrides.trueSize * 1 + 1 ≤ 2 ^ 64 ∧ ¬ wrappedStrides.PlanIsCensus 1 1 := by
  have hbudget : wrappedStrides.WithinBudget (wrappedStrides.budget 1 1 0) :=
    Or.inr (by decide)
  refine ⟨by decide, hbudget, by decide, fun h => ?_⟩
  obtain ⟨runs, hcovers, -, hwalk⟩ := h.runs
  -- a callback that keeps the runs shows what they are
  have hkept := hwalk _ hbudget (List (Run Pos4)) (fun r rs => (true, r :: rs)) []
  rw [foldRuns_true fun _ _ => rfl, List.foldl_flip_cons_eq_append', List.append_nil] at hkept
  have hmem : ⟨9, 3, ⟨0, 0, 0, 0⟩⟩ ∈ (wrappedStrides.forEachOwnerByteRun 1
      (wrappedStrides.budget 1 1 0) (fun r (rs : List (Run Pos4)) => (true, r :: rs)) []).2 := by
    decide
  rw [hkept] at hmem
  have howner := (hcovers.label _ (List.mem_reverse.mp hmem)).2 10 (by decide) (by decide)
  exact absurd howner (by decide)

end CutePartitionDescriptor

end Cccl.Places
