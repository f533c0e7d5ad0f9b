/-
# The merge sort of a device

`dispatch_merge_sort.cuh` and `AgentBlockSort`.  Each block loads a tile and sorts it; the last tile may have fewer
items than the others, and is sorted with a bound.  The passes then merge neighbouring groups of tiles, forth and
back between the output and a buffer: what is written first depends on the number of passes, so that the last one
writes the output.

The sort of a full tile is the one of a partial tile that has all items (`sortFullTile_eq`).  After a pass the runs
have twice the size (`RunsMerged.pass`), and after the last one there is one run (`dispatch_isStableSort`).
-/
import Cccl.Cmath.Ilog
import Cccl.MergeSort.MergePassExact
import Cccl.MergeSort.PartialTile

namespace Cccl.MergeSort

open Chunks StableSort Cmath MergePass

variable {α β K V : Type}

/-! ## 1. Full tiles -/

theorem forThreads_congr {f g : ℕ → α → Option β} : ∀ (l : List α) (tid : ℕ),
    (∀ i a, l[i]? = some a → f (tid + i) a = g (tid + i) a) → forThreads f tid l = forThreads g tid l
  | [], _, _ => rfl
  | a :: l, tid, h => by
    have hfirst := h 0 a List.getElem?_cons_zero
    have hrest : forThreads f (tid + 1) l = forThreads g (tid + 1) l := by
      refine forThreads_congr l (tid + 1) fun i b hb => ?_
      rw [Nat.add_right_comm]
      exact h (i + 1) b (by rwa [List.getElem?_cons_succ])
    rw [Nat.add_zero] at hfirst
    rw [forThreads, forThreads, hfirst, hrest]

theorem length_forThreads {f : ℕ → α → Option β} : ∀ {l : List α} {tid : ℕ} {bs : List β},
    forThreads f tid l = some bs → bs.length = l.length
  | [], _, bs, h => by
    obtain rfl : [] = bs := Option.some.inj h
    rfl
  | a :: l, tid, bs, h => by
    rw [forThreads] at h
    simp only [Option.bind_eq_bind, Option.bind_eq_some_iff, Option.some.injEq] at h
    obtain ⟨b, -, rest, hrest, rfl⟩ := h
    rw [List.length_cons, List.length_cons, length_forThreads hrest]

theorem forThreads_range {f : ℕ → Option β} {X : ℕ → β → Prop} {n : ℕ}
    (h : ∀ i < n, ∃ b, f i = some b ∧ X i b) :
    ∃ bs, forThreads (fun i _ => f i) 0 (List.range n) = some bs ∧ bs.length = n ∧
      ∀ i b, bs[i]? = some b → X i b := by
  obtain ⟨bs, hbs, hlen, hall⟩ := forThreads_spec (l := List.range n) (f := fun i _ => f i) (X := X)
    fun i a ha => by
    have hi := (List.getElem?_eq_some_iff.mp ha).1
    rw [List.length_range] at hi
    exact h i hi
  exact ⟨bs, hbs, hlen.trans List.length_range, hall⟩

namespace BlockMergeSortStrategy

variable {B : BlockMergeSortStrategy} {lt : K → K → Bool}

theorem padItems_of_valid {validItems : ℕ} : ∀ (l : List (K × V)) (i : ℕ) (maxKey : K),
    i + l.length ≤ validItems → padItems lt validItems i maxKey l = l
  | [], _, _, _ => rfl
  | (key, item) :: l, i, maxKey, h => by
    rw [List.length_cons] at h
    rw [padItems, if_pos (by omega), padItems_of_valid l (i + 1) _ (by omega)]

/-- Nothing is padded in a full tile. -/
theorem sortPartialThread_full {tid : ℕ} {items : List (K × V)} (htid : tid < B.numThreads)
    (hlen : items.length = B.itemsPerThread) :
    B.sortPartialThread lt none B.itemsPerTile tid items = stableOddEvenSort (keyBelow lt) items := by
  have hfit : B.itemsPerThread * tid + B.itemsPerThread ≤ B.itemsPerTile := by
    rw [← Nat.mul_add_one]
    exact Nat.mul_le_mul_left _ htid
  cases items with
  | nil => rfl
  | cons first rest =>
    rw [List.length_cons] at hlen
    rw [sortPartialThread, if_pos (by omega)]
    exact congrArg (fun l => stableOddEvenSort _ (first :: l)) (padItems_of_valid rest _ _ (by omega))

/-- No bound of a group is above the size of the tile. -/
theorem mergeThread_full {tid r : ℕ} (hr : 2 ^ (r + 1) ≤ B.numThreads) (htid : tid < B.numThreads)
    (keysShared : ℕ → Option K) (output : K) :
    B.mergeThread lt false B.itemsPerTile (2 ^ (r + 1)) keysShared tid output =
      B.mergeThread lt true B.itemsPerTile (2 ^ (r + 1)) keysShared tid output := by
  have hgroup := group_le hr htid
  have hhalf : 2 ^ (r + 1) / 2 = 2 ^ r := by rw [Nat.pow_succ, Nat.mul_div_cancel _ Nat.two_pos]
  have hdiag : B.itemsPerThread * (tid % 2 ^ (r + 1)) ≤ 2 * (B.itemsPerThread * 2 ^ r) := by
    rw [Nat.mul_left_comm, ← Nat.pow_succ']
    exact Nat.mul_le_mul_left _ (Nat.mod_lt _ (Nat.two_pow_pos _)).le
  unfold mergeThread
  simp only [ldiff_mask, mask_and, hhalf, if_true, Bool.false_eq_true, if_false]
  generalize B.itemsPerThread * (tid / 2 ^ (r + 1) * 2 ^ (r + 1)) = start at hgroup ⊢
  generalize B.itemsPerThread * 2 ^ r = size at hgroup hdiag ⊢
  rw [Nat.min_eq_right (by omega : start ≤ B.itemsPerTile),
    Nat.min_eq_right (by omega : start + size ≤ B.itemsPerTile),
    Nat.min_eq_right (by omega : start + size + size ≤ B.itemsPerTile),
    Nat.min_eq_right (hdiag.trans (by omega)), Nat.min_eq_right (by omega)]

theorem mergeRound_full {tile : Tile K V} {r : ℕ} (hr : 2 ^ (r + 1) ≤ B.numThreads)
    (hthreads : tile.length = B.numThreads) : B.mergeRound lt false B.itemsPerTile (2 ^ (r + 1)) tile =
      B.mergeRound lt true B.itemsPerTile (2 ^ (r + 1)) tile := by
  rw [mergeRound, mergeRound]
  refine congrArg (Option.bind _) (funext fun keysShared => ?_)
  refine congrArg (fun merged => Option.bind merged _) (forThreads_congr tile 0 fun tid items hitems => ?_)
  have htid := (List.getElem?_eq_some_iff.mp hitems).1
  refine congrArg (Option.bind _) (funext fun first => ?_)
  exact mergeThread_full hr (by omega) _ _

/-- The rounds of a full tile never end early. -/
theorem mergeRounds_full : ∀ (fuel r : ℕ) {tile : Tile K V}, tile.length = B.numThreads →
    B.mergeRounds lt false B.itemsPerTile fuel (2 ^ (r + 1)) tile =
      B.mergeRounds lt true B.itemsPerTile fuel (2 ^ (r + 1)) tile
  | 0, _, _, _ => rfl
  | fuel + 1, r, tile, hthreads => by
    have hhalf : 2 ^ (r + 1) / 2 = 2 ^ r := by rw [Nat.pow_succ, Nat.mul_div_cancel _ Nat.two_pos]
    rw [mergeRounds, mergeRounds]
    split
    · rename_i htarget
      have hless : B.itemsPerThread * 2 ^ r < B.itemsPerTile := by
        refine Nat.mul_lt_mul_of_pos_left ?_ B.itemsPerThread_pos
        exact (Nat.pow_lt_pow_succ Nat.one_lt_two).trans_le htarget
      rw [if_neg (by simp), hhalf, if_neg fun hend => absurd hend.2 (Nat.not_le.mpr hless),
        mergeRound_full htarget hthreads]
      cases hround : B.mergeRound lt true B.itemsPerTile (2 ^ (r + 1)) tile with
      | none => rfl
      | some tile' =>
        have hlen : tile'.length = B.numThreads := by
          rw [mergeRound] at hround
          simp only [Option.bind_eq_bind, Option.bind_eq_some_iff] at hround
          obtain ⟨_, -, merged, hmerged, _, -, hgather⟩ := hround
          rw [length_forThreads hgather, length_forThreads hmerged, hthreads]
        rw [Option.bind_some, Option.bind_some, ← Nat.pow_succ]
        exact mergeRounds_full fuel (r + 1) hlen
    · rfl

/-- **A full tile is sorted as a partial tile with all items.** -/
theorem sortFullTile_eq {tile : Tile K V} (h : B.Shaped tile) :
    B.sortFullTile lt tile = B.sortPartialTile lt none B.itemsPerTile tile := by
  have hthreads : forThreads (fun _ items => some (stableOddEvenSort (keyBelow lt) items)) 0 tile =
      forThreads (fun tid items => some (B.sortPartialThread lt none B.itemsPerTile tid items)) 0 tile := by
    refine forThreads_congr tile 0 fun tid items hitems => ?_
    obtain ⟨htid, rfl⟩ := List.getElem?_eq_some_iff.mp hitems
    rw [Nat.zero_add, sortPartialThread_full (h.threads ▸ htid) (h.items _ (List.getElem_mem htid))]
  rw [sortFullTile, sortPartialTile, hthreads]
  cases hsorted : forThreads
      (fun tid items => some (B.sortPartialThread lt none B.itemsPerTile tid items)) 0 tile with
  | none => rfl
  | some tile' => exact mergeRounds_full B.numThreads 0 ((length_forThreads hsorted).trans h.threads)

/-! ## 2. A tile of the input -/

/-- `BlockLoad::Load` of the valid items: a thread has consecutive ones, and a default behind the last one. -/
def blockLoad (B : BlockMergeSortStrategy) (items : List α) (oobDefault : α) : List (List α) :=
  (List.range B.numThreads).map fun linearTid => (List.range B.itemsPerThread).map fun i =>
    items.getD (linearTid * B.itemsPerThread + i) oobDefault

theorem shaped_blockLoad (items : List α) (oobDefault : α) : B.Shaped (B.blockLoad items oobDefault) := by
  refine ⟨by rw [blockLoad, List.length_map, List.length_range], fun regs hregs => ?_⟩
  obtain ⟨tid, -, rfl⟩ := List.mem_map.mp hregs
  rw [List.length_map, List.length_range]

/-- All valid items are loaded. -/
theorem flatten_blockLoad {items : List α} (oobDefault : α) (hfit : items.length ≤ B.itemsPerTile) :
    (B.blockLoad items oobDefault).flatten.take items.length = items := by
  have hshaped := shaped_blockLoad (B := B) items oobDefault
  refine List.ext_getElem (by rw [List.length_take, hshaped.length_flatten, Nat.min_eq_left hfit]) fun i hi hi' => ?_
  refine Option.some_injective _ ?_
  have htid : i / B.itemsPerThread < B.numThreads := Nat.div_lt_of_lt_mul (hi'.trans_le hfit)
  have hitem := Nat.mod_lt i B.itemsPerThread_pos
  rw [← List.getElem?_eq_getElem hi, ← List.getElem?_eq_getElem hi', List.getElem?_take_of_lt hi',
    getElem?_flatten B.itemsPerThread_pos i hshaped.items]
  simp [blockLoad, htid, hitem, Nat.div_add_mod', List.getElem?_eq_getElem hi']

section Order

variable [IsStrictWeakOrder K fun a b => lt a b = true]

/-- **The sort of a tile**, of which some items are valid. -/
theorem sortPartialTile_spec {validItems : ℕ} {tile : Tile K V} (h : B.Shaped tile)
    (hvalid : validItems ≤ B.itemsPerTile) : ∃ tile', B.sortPartialTile lt none validItems tile = some tile' ∧
      B.Shaped tile' ∧
      IsStableSort (keyBelow lt) (tile.flatten.take validItems) (tile'.flatten.take validItems) := by
  obtain ⟨tile0, htile0, hlen0, hregs0⟩ := forThreads_spec (l := tile)
    (f := fun tid items => some (B.sortPartialThread lt none validItems tid items))
    (X := fun tid regs => ∃ items, tile[tid]? = some items ∧
      regs = B.sortPartialThread lt none validItems tid items)
    fun tid items hitems => ⟨_, rfl, items, hitems, rfl⟩
  have hshaped0 : B.Shaped tile0 := by
    refine ⟨hlen0.trans h.threads, fun regs hmem => ?_⟩
    obtain ⟨tid, htid⟩ := List.mem_iff_getElem?.mp hmem
    obtain ⟨items, hitems, rfl⟩ := hregs0 tid regs htid
    rw [(sortPartialThread_spec none validItems tid items).1]
    exact h.items items (List.mem_of_getElem? hitems)
  have hruns : B.RunsSorted lt validItems tile.flatten (B.itemsPerThread * 2 ^ 0) tile0 := by
    refine ⟨hshaped0, fun g => ?_⟩
    rw [Nat.pow_zero, Nat.mul_one, chunk_flatten h, chunk_flatten hshaped0]
    cases hg : tile0[g]? with
    | none =>
      rw [List.getElem?_eq_none (hlen0 ▸ List.getElem?_eq_none_iff.mp hg)]
      simpa using IsStableSort.nil
    | some regs =>
      obtain ⟨items, hitems, rfl⟩ := hregs0 g regs hg
      rw [hitems]
      exact (sortPartialThread_spec none validItems g items).2
  obtain ⟨tile', htile', hresult⟩ := RunsSorted.rounds hvalid B.numThreads 0 hruns numThreads_pos
    (by rw [Nat.zero_add]; exact Nat.lt_two_pow_self)
  exact ⟨tile', by rw [sortPartialTile, htile0]; exact htile', hresult⟩

end Order

end BlockMergeSortStrategy

/-! ## 3. The dispatch -/

/-- A sort: the shape of a block, the width of the offset type and the number of items. -/
structure DeviceMergeSort where
  block : BlockMergeSortStrategy
  offsetBits : ℕ
  numItems : ℕ
  tileSize_lt : block.numThreads * block.itemsPerThread < 2 ^ 31
  offsetBits_ge : 32 ≤ offsetBits

/-- The arrays that are written: the output, and the buffer in the temporary storage. -/
structure Arrays (K V : Type) where
  output : List (K × V)
  buffer : List (K × V)

/-- The array that a kernel reads. -/
def Arrays.read (a : Arrays K V) (ping : Bool) : List (K × V) := if ping then a.output else a.buffer

/-- What a kernel stores. -/
def Arrays.write (a : Arrays K V) (ping : Bool) (stored : List (K × V)) : Arrays K V :=
  if ping then { a with output := stored } else { a with buffer := stored }

@[simp] theorem Arrays.read_write (a : Arrays K V) (ping : Bool) (stored : List (K × V)) :
    (a.write ping stored).read ping = stored := by cases ping <;> rfl

namespace DeviceMergeSort

variable (D : DeviceMergeSort) (lt : K → K → Bool)

def tileSize : ℕ := D.block.numThreads * D.block.itemsPerThread

/-- `num_tiles`, by `ceil_div`. -/
def numTiles : ℕ := (D.numItems + D.tileSize - 1) / D.tileSize

/-- `AgentBlockSort::Process`, with `consume_tile`.  What does not fit into the offset type is cut. -/
def agentBlockSort (input : List (K × V)) (tileIdx : ℕ) : Option (List (K × V)) := do
  let tileBase := tileIdx * D.tileSize % 2 ^ D.offsetBits
  let first ← input[tileBase]?
  if tileIdx < D.numTiles - 1 then
    let tile ← D.block.sortFullTile lt (D.block.blockLoad ((input.drop tileBase).take D.tileSize) first)
    return tile.flatten
  else
    let numRemaining := min (D.numItems - tileBase) D.tileSize
    let tile ← D.block.sortPartialTile lt none numRemaining
      (D.block.blockLoad ((input.drop tileBase).take numRemaining) first)
    return tile.flatten.take numRemaining

/-- `DeviceMergeSortBlockSortKernel`: what the blocks store, one after the other. -/
def blockSortKernel (input : List (K × V)) : Option (List (K × V)) := do
  let tiles ← forThreads (fun tileIdx _ => D.agentBlockSort lt input tileIdx) 0 (List.range D.numTiles)
  return tiles.flatten

/-- A pass of the loop: `target_merged_tiles_number` is `OffsetT(2) << pass`. -/
def mergePass (pass : ℕ) : MergePass where
  offsetBits := D.offsetBits
  threadsPerBlock := D.block.numThreads
  itemsPerThread := D.block.itemsPerThread
  keysCount := D.numItems
  targetMergedTilesNumber := 2 <<< pass % 2 ^ D.offsetBits
  threadsPerBlock_pos := BlockMergeSortStrategy.numThreads_pos
  itemsPerThread_pos := D.block.itemsPerThread_pos
  itemsPerTile_lt := D.tileSize_lt
  offsetBits_ge := D.offsetBits_ge

/-- The passes from some number on, as many as are left. -/
def passes (old : ℕ → ℕ → OldContents K V) : ℕ → ℕ → Bool → Arrays K V → Option (Arrays K V)
  | 0, _, _, a => some a
  | left + 1, pass, ping, a => do
    let tiles ← (D.mergePass pass).mergePass lt (a.read ping) (old pass)
    passes old left (pass + 1) (!ping)
      (a.write (!ping) ((tiles.flatMap TileOutput.keys).zip (tiles.flatMap TileOutput.items)))

/-- `dispatch`, with sufficient temporary storage. -/
def dispatch (old : ℕ → ℕ → OldContents K V) (input : List (K × V)) (a : Arrays K V) : Option (Arrays K V) :=
  if D.numItems = 0 then some a else do
    let numPasses := ceilIlog2 D.numTiles
    let ping := numPasses % 2 == 0
    let sorted ← D.blockSortKernel lt input
    D.passes lt old numPasses 0 ping (a.write ping sorted)

/-! ## 4. The runs -/

variable {D lt}

/-- The array consists of runs, each a stable sort of the items that have been there. -/
structure RunsMerged (D : DeviceMergeSort) (lt : K → K → Bool) (input : List (K × V)) (pass : ℕ)
    (l : List (K × V)) : Prop where
  length : l.length = D.numItems
  sorted : ∀ g,
    IsStableSort (keyBelow lt) (chunk (D.tileSize * 2 ^ pass) g input) (chunk (D.tileSize * 2 ^ pass) g l)

theorem lt_numTiles {tileIdx : ℕ} : tileIdx < D.numTiles ↔ D.tileSize * tileIdx < D.numItems :=
  (D.mergePass 0).lt_numTiles

theorem tileSize_eq : D.tileSize = D.block.itemsPerTile := Nat.mul_comm _ _

theorem numItems_le : D.numItems ≤ D.tileSize * D.numTiles := by
  by_contra hless
  exact absurd (lt_numTiles.mpr (Nat.not_le.mp hless)) (lt_irrefl _)

section Order

variable [IsStrictWeakOrder K fun a b => lt a b = true] {input : List (K × V)}

/-- **A block sorts its tile.** -/
theorem agentBlockSort_spec (hlen : input.length = D.numItems) (hitems : D.numItems < 2 ^ D.offsetBits)
    {tileIdx : ℕ} (htile : tileIdx < D.numTiles) : ∃ out, D.agentBlockSort lt input tileIdx = some out ∧
      IsStableSort (keyBelow lt) (chunk D.tileSize tileIdx input) out := by
  have hin := lt_numTiles.mp htile
  have hbase : tileIdx * D.tileSize % 2 ^ D.offsetBits = D.tileSize * tileIdx := by
    rw [Nat.mul_comm]
    exact Nat.mod_eq_of_lt (hin.trans hitems)
  obtain ⟨first, hfirst⟩ : ∃ first, input[D.tileSize * tileIdx]? = some first :=
    ⟨_, List.getElem?_eq_getElem (by omega)⟩
  have hlength := length_chunk D.tileSize tileIdx input
  have hfit : (chunk D.tileSize tileIdx input).length ≤ D.block.itemsPerTile := by
    rw [hlength, ← tileSize_eq]
    exact Nat.min_le_left _ _
  have hshaped := BlockMergeSortStrategy.shaped_blockLoad (B := D.block) (chunk D.tileSize tileIdx input) first
  obtain ⟨tile, htile', hshaped', hsorted⟩ :=
    @BlockMergeSortStrategy.sortPartialTile_spec _ _ D.block lt _ _ _ hshaped hfit
  rw [BlockMergeSortStrategy.flatten_blockLoad first hfit] at hsorted
  rw [hlength, hlen] at htile' hsorted
  rw [agentBlockSort, hbase, hfirst]
  simp only [Option.bind_eq_bind, Option.bind_some, Option.pure_def]
  split
  · rename_i hfull
    have hnext := lt_numTiles.mp (show tileIdx + 1 < D.numTiles by omega)
    rw [Nat.mul_add_one] at hnext
    rw [Nat.min_eq_left (by omega)] at htile'
    rw [Nat.min_eq_left (by omega), List.take_of_length_le (by rw [hshaped'.length_flatten, tileSize_eq])] at hsorted
    change ∃ out, (D.block.sortFullTile lt (D.block.blockLoad (chunk D.tileSize tileIdx input) first)).bind _ = _ ∧ _
    rw [BlockMergeSortStrategy.sortFullTile_eq hshaped, ← tileSize_eq, htile']
    exact ⟨tile.flatten, rfl, hsorted⟩
  · have hvalid : (input.drop (D.tileSize * tileIdx)).take (min (D.numItems - D.tileSize * tileIdx) D.tileSize) =
        chunk D.tileSize tileIdx input := by
      rw [chunk, List.take_eq_take_iff, List.length_drop, hlen]
      omega
    rw [Nat.min_comm] at htile' hsorted
    rw [hvalid, htile']
    exact ⟨_, rfl, hsorted⟩

/-- The tiles are the first runs. -/
theorem blockSortKernel_spec (hlen : input.length = D.numItems) (hitems : D.numItems < 2 ^ D.offsetBits) :
    ∃ sorted, D.blockSortKernel lt input = some sorted ∧ D.RunsMerged lt input 0 sorted := by
  obtain ⟨tiles, htiles, hcount, hsorted⟩ := forThreads_range (n := D.numTiles)
    (X := fun tileIdx out => IsStableSort (keyBelow lt) (chunk D.tileSize tileIdx input) out)
    fun tileIdx htile => agentBlockSort_spec hlen hitems htile
  obtain ⟨pieces, hpieces⟩ : ∃ f : ℕ → List (K × V), ∀ g, f g = tiles[g]?.getD [] := ⟨_, fun _ => rfl⟩
  have hwhole := D.numItems_le
  have hpiece : ∀ g, IsStableSort (keyBelow lt) (chunk D.tileSize g input) (pieces g) := by
    intro g
    rw [hpieces]
    rcases Nat.lt_or_ge g tiles.length with hlt | hge
    · rw [List.getElem?_eq_getElem hlt]
      exact hsorted g _ (List.getElem?_eq_getElem hlt)
    · have hbehind := Nat.mul_le_mul_left D.tileSize (hcount ▸ hge)
      rw [List.getElem?_eq_none hge, chunk, List.drop_eq_nil_of_le (by omega), List.take_nil]
      exact .nil
  have hlengths : ∀ g, (pieces g).length = min D.tileSize (D.numItems - D.tileSize * g) := fun g => by
    rw [(hpiece g).perm.length_eq, length_chunk, hlen]
  have hflat : tiles.flatten = (List.range D.numTiles).flatMap pieces := by
    have hmap : (List.range D.numTiles).map pieces = tiles := by
      refine List.ext_getElem (by rw [List.length_map, List.length_range, hcount]) fun i hi hi' => ?_
      rw [List.getElem_map, List.getElem_range, hpieces, List.getElem?_eq_getElem hi', Option.getD_some]
    rw [List.flatMap_def, hmap]
  obtain ⟨hlength, hchunks⟩ := chunk_flatMap hlengths D.numTiles
  refine ⟨tiles.flatten, by rw [blockSortKernel, htiles]; rfl, by rw [hflat, hlength]; omega, fun g => ?_⟩
  rw [Nat.pow_zero, Nat.mul_one, hflat]
  rcases Nat.lt_or_ge g D.numTiles with hlt | hge
  · rw [hchunks g hlt]
    exact hpiece g
  · have hbehind := Nat.mul_le_mul_left D.tileSize hge
    rw [chunk, chunk, List.drop_eq_nil_of_le (by omega), List.drop_eq_nil_of_le (by omega), List.take_nil]
    exact .nil

/-- There is a pass only while a run is smaller than the array. -/
theorem fits (hitems : D.numItems < 2 ^ D.offsetBits) (hpos : 0 < D.numTiles) (htiles : D.numTiles < 2 ^ 31)
    {pass : ℕ} (hpass : pass < ceilIlog2 D.numTiles) : (D.mergePass pass).Fits pass := by
  have hless : 2 ^ pass < D.numTiles := by
    by_contra hge
    exact absurd ((ceilIlog2_le_iff hpos).mpr (Nat.not_lt.mp hge)) (Nat.not_le.mpr hpass)
  have htarget : 2 ^ (pass + 1) < 2 ^ D.offsetBits := by
    have := (Nat.pow_lt_pow_iff_right Nat.one_lt_two).mp (hless.trans htiles)
    have := D.offsetBits_ge
    exact Nat.pow_lt_pow_right Nat.one_lt_two (by omega)
  refine ⟨?_, htarget, hitems, (lt_numTiles.mp hless).trans hitems⟩
  rw [mergePass, Nat.shiftLeft_eq, ← Nat.pow_succ', Nat.mod_eq_of_lt htarget]

/-- **A pass doubles the runs.** -/
theorem RunsMerged.pass {pass : ℕ} {l : List (K × V)} (h : D.RunsMerged lt input pass l)
    (hfits : (D.mergePass pass).Fits pass) (old : ℕ → OldContents K V) :
    ∃ tiles, (D.mergePass pass).mergePass lt l old = some tiles ∧ D.RunsMerged lt input (pass + 1)
      ((tiles.flatMap TileOutput.keys).zip (tiles.flatMap TileOutput.items)) := by
  obtain ⟨tiles, output, htiles, hlen, hchunks, hkeys, hvalues⟩ :=
    mergePass_spec hfits h.length (fun g => (h.sorted g).sorted) old
  have hdouble : D.tileSize * 2 ^ (pass + 1) = 2 * (D.tileSize * 2 ^ pass) := by
    rw [Nat.pow_succ', Nat.mul_left_comm]
  refine ⟨tiles, htiles, ?_⟩
  rw [hkeys, hvalues, ← List.zip_of_prod rfl rfl]
  refine ⟨hlen.trans h.length, fun g => ?_⟩
  rw [hdouble, ← chunk_append]
  exact (hchunks g).symm ▸ (h.sorted (2 * g)).merge (h.sorted (2 * g + 1))

/-- The passes that are left.  Whether the output is read depends on how many these are. -/
theorem passes_spec (hitems : D.numItems < 2 ^ D.offsetBits) (hpos : 0 < D.numTiles) (htiles : D.numTiles < 2 ^ 31)
    (old : ℕ → ℕ → OldContents K V) : ∀ (left pass : ℕ) (a : Arrays K V), pass + left = ceilIlog2 D.numTiles →
    D.RunsMerged lt input pass (a.read (left % 2 == 0)) →
    ∃ a', D.passes lt old left pass (left % 2 == 0) a = some a' ∧
      D.RunsMerged lt input (ceilIlog2 D.numTiles) a'.output
  | 0, pass, a, hleft, h => ⟨a, rfl, hleft ▸ h⟩
  | left + 1, pass, a, hleft, h => by
    have hflip : (!((left + 1) % 2 == 0)) = (left % 2 == 0) := by
      rcases Nat.mod_two_eq_zero_or_one left with hmod | hmod <;> simp [Nat.add_mod, hmod]
    obtain ⟨tiles, hpass, hruns⟩ := h.pass (fits hitems hpos htiles (by omega)) (old pass)
    rw [passes, hpass, hflip]
    exact passes_spec hitems hpos htiles old left (pass + 1) _ (by omega) (by rwa [Arrays.read_write])

end Order

/-- **The output is a stable sort of the input.**  This is so for every shape of a block, every order and every
number of items of the offset type, as long as there are no more tiles than blocks in a grid.  Nothing that the
arrays, the registers or shared memory had before matters. -/
theorem dispatch_isStableSort (D : DeviceMergeSort) (lt : K → K → Bool)
    [IsStrictWeakOrder K fun a b => lt a b = true] (hitems : D.numItems < 2 ^ D.offsetBits)
    (htiles : D.numTiles < 2 ^ 31) (old : ℕ → ℕ → OldContents K V) (input : List (K × V)) (a : Arrays K V)
    (hinput : input.length = D.numItems) (houtput : a.output.length = D.numItems) :
    ∃ a', D.dispatch lt old input a = some a' ∧ IsStableSort (keyBelow lt) input a'.output := by
  rcases Nat.eq_zero_or_pos D.numItems with hzero | hpos
  · rw [List.eq_nil_of_length_eq_zero (hinput.trans hzero)]
    refine ⟨a, by rw [dispatch, if_pos hzero], ?_⟩
    rw [List.eq_nil_of_length_eq_zero (houtput.trans hzero)]
    exact .nil
  · obtain ⟨sorted, hsorted, hruns⟩ := @blockSortKernel_spec _ _ D lt _ _ hinput hitems
    obtain ⟨a', ha', h⟩ := passes_spec hitems (lt_numTiles.mpr hpos) htiles old (ceilIlog2 D.numTiles) 0
      (a.write (ceilIlog2 D.numTiles % 2 == 0) sorted) (Nat.zero_add _) (by rwa [Arrays.read_write])
    refine ⟨a', by rw [dispatch, if_neg hpos.ne', hsorted]; exact ha', ?_⟩
    -- the only run has all items
    have hwhole : ∀ l : List (K × V), l.length = D.numItems →
        chunk (D.tileSize * 2 ^ ceilIlog2 D.numTiles) 0 l = l := by
      intro l hl
      have hsize := D.numItems_le.trans (Nat.mul_le_mul_left D.tileSize (le_two_pow_ceilIlog2 D.numTiles))
      rw [chunk, Nat.mul_zero, List.drop_zero, List.take_of_length_le (hl.le.trans hsize)]
    have hfirst := h.sorted 0
    rwa [hwhole _ hinput, hwhole _ h.length] at hfirst

/-- Five items in tiles of two: two passes, the first one into the buffer. -/
theorem dispatch_isStableSort_five : ∃ a', dispatch
      ⟨⟨1, 2, ⟨0, rfl⟩, Nat.two_pos⟩, 32, 5, Nat.le_of_ble_eq_true rfl, le_rfl⟩
      (fun a b : ℕ => decide (a < b)) (fun _ _ => ⟨fun _ _ => 0, fun _ _ => 'x', 0, 'x'⟩)
      [(3, 'a'), (5, 'b'), (1, 'c'), (3, 'd'), (2, 'e')] ⟨List.replicate 5 (0, 'x'), []⟩ = some a' ∧
    IsStableSort (keyBelow fun a b : ℕ => decide (a < b))
      [(3, 'a'), (5, 'b'), (1, 'c'), (3, 'd'), (2, 'e')] a'.output :=
  dispatch_isStableSort _ _ (by decide) (by decide) _ _ _ rfl rfl

end DeviceMergeSort

end Cccl.MergeSort
