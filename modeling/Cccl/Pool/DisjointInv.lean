/-
# What the disjoint pool keeps

The invariant of `disjoint_unsynchronized_pool_resource`, and that `squeeze` and `release` have results that
keep it.

What has been allocated from the upstream resource are the chunks and the oversized blocks (`outstanding`).
The blocks of one size that have been cut from chunks are those in the free list of that size and those
that the user has (`pooled`).  The oversized blocks are those that are cached and those that the user has,
each of which is large enough and aligned as it should be (`oversized`).  The cached ones are sorted, so
that `lower_bound` may be used.  What the user has is compared up to its order, so that giving back a block
undoes its allocation (`Inv.perm`).
-/
import Cccl.Pool.DisjointPool

namespace Cccl.Pool.DisjointPool

open Cmath Regions

variable (O : PoolOptions)

/-! ## 1. The cached blocks are sorted -/

def Sorted (l : List OversizedBlockDescriptor) : Prop := l.Pairwise fun a b => b.below a = false

theorem below_eq_false {a b : OversizedBlockDescriptor} :
    a.below b = false ↔ b.size < a.size ∨ a.size = b.size ∧ b.alignment ≤ a.alignment := by
  rw [OversizedBlockDescriptor.below, decide_eq_false_iff_not]
  omega

theorem below_eq_false_trans {a b c : OversizedBlockDescriptor} (hab : a.below b = false)
    (hbc : b.below c = false) : a.below c = false := by
  rw [below_eq_false] at hab hbc ⊢
  omega

/-- `lower_bound` finds where what is not below `x` begins. -/
theorem lowerBound_of_sorted {l : List OversizedBlockDescriptor} (h : Sorted l)
    (x : OversizedBlockDescriptor) :
    ∃ l₁ l₂, l = l₁ ++ l₂ ∧ lowerBound l x = some l₁.length ∧ (∀ d ∈ l₁, d.below x = true) ∧
      ∀ d ∈ l₂, d.below x = false := by
  induction l with
  | nil => exact ⟨[], [], rfl, rfl, by simp, by simp⟩
  | cons d l ih =>
    obtain ⟨hd, hl⟩ := List.pairwise_cons.mp h
    cases hbelow : d.below x with
    | false =>
      have hall : ∀ e ∈ d :: l, e.below x = false := by
        refine List.forall_mem_cons.mpr ⟨hbelow, fun e he => ?_⟩
        exact below_eq_false_trans (hd e he) hbelow
      refine ⟨[], d :: l, rfl, ?_, by simp, hall⟩
      have hfirst : ((d :: l).findIdx fun e => !e.below x) = 0 := by simp [List.findIdx_cons, hbelow]
      rw [lowerBound, hfirst]
      exact if_pos (List.all_eq_true.mpr fun e he => by rw [hall e he]; rfl)
    | true =>
      obtain ⟨l₁, l₂, rfl, hlower, h₁, h₂⟩ := ih hl
      refine ⟨d :: l₁, l₂, rfl, ?_, List.forall_mem_cons.mpr ⟨hbelow, h₁⟩, h₂⟩
      have hnext : ((d :: (l₁ ++ l₂)).findIdx fun e => !e.below x) =
          ((l₁ ++ l₂).findIdx fun e => !e.below x) + 1 := by simp [List.findIdx_cons, hbelow]
      simp only [lowerBound] at hlower ⊢
      rw [hnext, List.drop_succ_cons]
      split at hlower
      · rename_i hdrop
        rw [if_pos hdrop, Option.some_inj.mp hlower, List.length_cons]
      · exact absurd hlower (by simp)

theorem insertIdx_append {α : Type*} (l₁ l₂ : List α) (x : α) :
    (l₁ ++ l₂).insertIdx l₁.length x = l₁ ++ x :: l₂ := by
  induction l₁ with
  | nil => exact List.insertIdx_zero
  | cons y l₁ ih => exact (List.insertIdx_succ_cons).trans (congrArg (y :: ·) ih)

/-- A block that is put where `lower_bound` says leaves the blocks sorted. -/
theorem Sorted.insertIdx {l : List OversizedBlockDescriptor} (h : Sorted l)
    (x : OversizedBlockDescriptor) :
    ∃ i, lowerBound l x = some i ∧ Sorted (l.insertIdx i x) ∧ (l.insertIdx i x).Perm (x :: l) := by
  obtain ⟨l₁, l₂, rfl, hlower, h₁, h₂⟩ := lowerBound_of_sorted h x
  refine ⟨_, hlower, ?_, ?_⟩
  · rw [insertIdx_append]
    obtain ⟨hl₁, hl₂, hacross⟩ := List.pairwise_append.mp h
    refine List.pairwise_append.mpr ⟨hl₁, List.pairwise_cons.mpr ⟨h₂, hl₂⟩, fun a ha b hb => ?_⟩
    rcases List.mem_cons.mp hb with rfl | hb
    · have hax := h₁ a ha
      rw [OversizedBlockDescriptor.below, decide_eq_true_iff] at hax
      rw [below_eq_false]
      omega
    · exact hacross a ha b hb
  · rw [insertIdx_append]
    exact List.perm_middle

theorem findFrom_eq_some {l : List OversizedBlockDescriptor} {first i : ℕ}
    {p : OversizedBlockDescriptor → Bool} {d : OversizedBlockDescriptor}
    (h : findFrom l first p = some (i, d)) : first ≤ i ∧ l[i]? = some d ∧ p d = true := by
  obtain ⟨j, hj, hd⟩ := Option.bind_eq_some_iff.mp h
  obtain ⟨e, he, heq⟩ := Option.map_eq_some_iff.mp hd
  obtain ⟨rfl, rfl⟩ := Prod.mk.inj heq
  refine ⟨Nat.le_add_right first j, by rw [← he, List.getElem?_drop], ?_⟩
  obtain ⟨hlt, hp, -⟩ := List.findIdx?_eq_some_iff_getElem.mp hj
  rw [List.getElem?_eq_getElem hlt, Option.some_inj] at he
  rwa [he] at hp

/-- What is cached for a request is as large and as aligned as it asks. -/
theorem findCached_of_sorted {l : List OversizedBlockDescriptor} (h : Sorted l)
    (bytes alignment : ℕ) :
    ∃ r, findCached O bytes alignment l = some r ∧
      ∀ i d, r = some (i, d) → l[i]? = some d ∧ bytes ≤ d.size ∧ alignment ≤ d.alignment := by
  rw [findCached]
  split
  · obtain ⟨l₁, l₂, rfl, hlower, -, h₂⟩ := lowerBound_of_sorted h ⟨bytes, alignment, 0⟩
    rw [hlower]
    refine ⟨_, rfl, fun i d hid => ?_⟩
    obtain ⟨hid, -⟩ := Option.filter_eq_some_iff.mp hid
    obtain ⟨⟨j, e⟩, hfirst, hnext⟩ := Option.bind_eq_some_iff.mp hid
    obtain ⟨hfirst, -⟩ := Option.filter_eq_some_iff.mp hfirst
    obtain ⟨e', he, heq⟩ := Option.map_eq_some_iff.mp hfirst
    obtain ⟨rfl, rfl⟩ := Prod.mk.inj heq
    -- what is found, and all that comes after it, is large enough
    have hlarge : ∀ k, l₁.length ≤ k → ∀ d, (l₁ ++ l₂)[k]? = some d → bytes ≤ d.size := by
      intro k hk d hd
      rw [List.getElem?_append_right hk] at hd
      have := below_eq_false.mp (h₂ d (List.mem_of_getElem? hd))
      simp only at this
      omega
    simp only at hnext
    split at hnext
    · rename_i hless
      obtain ⟨hle, hd, haligned⟩ := findFrom_eq_some hnext
      exact ⟨hd, hlarge i (by omega) d hd, of_decide_eq_true haligned⟩
    · obtain ⟨rfl, rfl⟩ := Prod.mk.inj (Option.some_inj.mp hnext)
      exact ⟨he, hlarge _ le_rfl _ he, by omega⟩
  · exact ⟨none, rfl, fun i d hid => absurd hid (by simp)⟩

theorem Sorted.eraseIdx {l : List OversizedBlockDescriptor} (h : Sorted l) (i : ℕ) :
    Sorted (l.eraseIdx i) := List.Pairwise.sublist (List.eraseIdx_sublist l i) h

/-! ## 2. The invariant -/

/-- The blocks of a pool that have been cut from chunks. -/
def blocksOf (i : ℕ) (chunks : List ChunkDescriptor) : List ℕ :=
  pieces ChunkDescriptor.poolIdx ChunkDescriptor.pointer (fun c => c.size / bucketSize O i)
    (bucketSize O i) i chunks

/-- How many blocks the last chunk of each pool had. -/
def Counts (pools : List Bucket) : Prop :=
  ∀ i bucket, pools[i]? = some bucket → bucket.previousAllocatedCount = 0 ∨
    O.Within bucket.previousAllocatedCount (i + smallestBlockLog2 O)

/-- The blocks of each pool are free or in the hands of the user. -/
def Pooled (pools : List Bucket) (chunks : List ChunkDescriptor) (live : List Live) : Prop :=
  ∀ i bucket, pools[i]? = some bucket →
    (bucket.freeBlocks ++ (liveIn O (some i) live).map Live.pointer).Perm (blocksOf O i chunks)

/-- The oversized block is what the user has. -/
structure Serves (d : OversizedBlockDescriptor) (b : Live) : Prop where
  pointer : d.pointer = b.pointer
  size : room O b.request ≤ d.size
  alignment : b.request.alignment ∣ d.alignment

/-- What is allocated from the upstream resource. -/
def owned (R : DisjointPool) : List Allocation :=
  R.allocated.map (ChunkDescriptor.allocation O.alignment) ++
    R.oversized.map OversizedBlockDescriptor.allocation

/-- **The invariant of the resource**, of its upstream and of what the user has. -/
structure Inv (R : DisjointPool) (w : World) (live : List Live) : Prop where
  length : R.pools.length = ceilIlog2 O.largestBlockSize - smallestBlockLog2 O + 1
  counts : Counts O R.pools
  chunks : ∀ c ∈ R.allocated, c.poolIdx < R.pools.length ∧ bucketSize O c.poolIdx ∣ c.size
  outstanding : w.outstanding.Perm (owned O R)
  held : Held w.outstanding
  sorted : Sorted R.cachedOversized
  valid : ∀ d ∈ R.oversized, isValidAlignment d.alignment = true
  pooled : Pooled O R.pools R.allocated live
  oversized : Served O (Serves O) R.oversized R.cachedOversized live

variable {O}

theorem bucketSize_eq (i : ℕ) : bucketSize O i = 2 ^ (i + smallestBlockLog2 O) := Nat.one_shiftLeft _

theorem bucketSize_pos (i : ℕ) : 0 < bucketSize O i := by
  rw [bucketSize_eq]
  exact Nat.two_pow_pos _

theorem Counts.set {pools : List Bucket} (h : Counts O pools) {j : ℕ} {bucket' : Bucket}
    (hj : bucket'.previousAllocatedCount = 0 ∨
      O.Within bucket'.previousAllocatedCount (j + smallestBlockLog2 O)) :
    Counts O (pools.set j bucket') := forall_set h (fun _ _ _ hi => hi) hj

theorem Pooled.set {pools : List Bucket} {chunks chunks' : List ChunkDescriptor}
    {live live' : List Live} (h : Pooled O pools chunks live) {j : ℕ} {bucket' : Bucket}
    (hchunks : ∀ i, i ≠ j → blocksOf O i chunks' = blocksOf O i chunks)
    (hlive : ∀ i, i ≠ j → liveIn O (some i) live' = liveIn O (some i) live)
    (hj : (bucket'.freeBlocks ++ (liveIn O (some j) live').map Live.pointer).Perm
      (blocksOf O j chunks')) :
    Pooled O (pools.set j bucket') chunks' live' := by
  refine forall_set h (fun i bucket hne hi => ?_) hj
  rwa [hchunks i hne, hlive i hne]

theorem Inv.perm {R : DisjointPool} {w : World} {live live' : List Live} (h : Inv O R w live)
    (hperm : live.Perm live') : Inv O R w live' where
  length := h.length
  counts := h.counts
  chunks := h.chunks
  outstanding := h.outstanding
  held := h.held
  sorted := h.sorted
  valid := h.valid
  pooled i bucket hi := by
    refine List.Perm.trans ?_ (h.pooled i bucket hi)
    exact List.Perm.append_left _ ((hperm.symm.filter _).map _)
  oversized := h.oversized.perm_live hperm

theorem Inv.pointers_nodup {R : DisjointPool} {w : World} {live : List Live} (h : Inv O R w live) :
    (R.oversized.map OversizedBlockDescriptor.pointer).Nodup := by
  have hall := (h.held.perm h.outstanding).pointers_nodup
  rw [owned, List.map_append, List.map_map, List.map_map] at hall
  exact (List.nodup_append.mp hall).2.1

variable {live : List Live}

/-! ## 3. `squeeze` and `release` -/

theorem eraseBlocks_of_subset {blocks free : List ℕ} (hnodup : blocks.Nodup)
    (h : ∀ p ∈ blocks, p ∈ free) :
    ∃ free', eraseBlocks blocks free = some free' ∧ free.Perm (blocks ++ free') := by
  induction blocks generalizing free with
  | nil => exact ⟨free, rfl, List.Perm.refl _⟩
  | cons p blocks ih =>
    obtain ⟨hp, hnodup⟩ := List.nodup_cons.mp hnodup
    obtain ⟨hmem, hblocks⟩ := List.forall_mem_cons.mp h
    obtain ⟨free', herase, hperm⟩ := ih hnodup fun q hq =>
      (List.mem_erase_of_ne (ne_of_mem_of_not_mem hq hp)).mpr (hblocks q hq)
    refine ⟨free', ?_, (List.perm_cons_erase hmem).trans (hperm.cons p)⟩
    rw [eraseBlocks, if_pos hmem, herase]

theorem Inv.dropChunk {R : DisjointPool} {w w' : World} {kept rest : List ChunkDescriptor}
    {c : ChunkDescriptor} {bucket : Bucket} {free' : List ℕ} (h : Inv O R w live)
    (hallocated : R.allocated = kept ++ c :: rest) (hbucket : R.pools[c.poolIdx]? = some bucket)
    (hfree : bucket.freeBlocks.Perm
      (cut c.pointer (bucketSize O c.poolIdx) (c.size / bucketSize O c.poolIdx) ++ free'))
    (hw : w'.outstanding.Perm (owned O { R with allocated := kept ++ rest }))
    (hsub : List.Sublist w'.outstanding w.outstanding) :
    Inv O { R with
      allocated := kept ++ rest
      pools := R.pools.set c.poolIdx { bucket with freeBlocks := free' } } w' live where
  length := by rw [List.length_set, h.length]
  counts := h.counts.set (h.counts c.poolIdx bucket hbucket)
  chunks := by
    intro e he
    rw [List.length_set]
    refine h.chunks e ?_
    rw [hallocated]
    rcases List.mem_append.mp he with he | he
    · exact List.mem_append_left _ he
    · exact List.mem_append_right _ (List.mem_cons_of_mem _ he)
  outstanding := hw
  held := h.held.sublist hsub
  sorted := h.sorted
  valid := h.valid
  pooled := by
    have hpooled := h.pooled
    rw [hallocated] at hpooled
    refine hpooled.set (fun i hne => ?_) (fun _ _ => rfl) ?_
    · rw [blocksOf, blocksOf, pieces_append, pieces_append, pieces_cons_of_ne hne.symm]
    · have hperm := hpooled c.poolIdx bucket hbucket
      rw [blocksOf, pieces_append, pieces_cons_self rfl] at hperm
      rw [blocksOf, pieces_append]
      refine (List.perm_append_left_iff
        (cut c.pointer (bucketSize O c.poolIdx) (c.size / bucketSize O c.poolIdx))).mp ?_
      refine List.Perm.trans ?_ (hperm.trans ?_)
      · rw [← List.append_assoc]
        exact hfree.symm.append_right _
      · rw [← List.append_assoc, ← List.append_assoc]
        exact List.perm_append_comm.append_right _
  oversized := h.oversized

theorem squeezeChunks_spec (rest kept : List ChunkDescriptor) (pools : List Bucket)
    (cached oversized : List OversizedBlockDescriptor) (w : World)
    (h : Inv O ⟨pools, kept ++ rest, cached, oversized⟩ w live) :
    ∃ kept' pools' w', squeezeChunks O rest pools w = some (kept', pools', w') ∧
      Inv O ⟨pools', kept ++ kept', cached, oversized⟩ w' live := by
  induction rest generalizing kept pools w with
  | nil => exact ⟨[], pools, w, rfl, h⟩
  | cons c rest ih =>
    obtain ⟨hidx, hsize⟩ := h.chunks c (List.mem_append_right _ List.mem_cons_self)
    obtain ⟨bucket, hbucket⟩ : ∃ bucket, pools[c.poolIdx]? = some bucket :=
      ⟨_, List.getElem?_eq_getElem hidx⟩
    have hmod : ¬ c.size % bucketSize O c.poolIdx ≠ 0 :=
      not_not.mpr (Nat.mod_eq_zero_of_dvd hsize)
    simp only [squeezeChunks, hbucket, Option.bind_eq_bind, Option.bind_some]
    rw [if_neg hmod]
    split
    · -- all blocks are free
      rename_i hfree
      obtain ⟨free', herase, hperm⟩ :=
        eraseBlocks_of_subset (cut_nodup _ _ (bucketSize_pos c.poolIdx)) hfree
      have howned : w.outstanding.Perm (c.allocation O.alignment ::
          owned O ⟨pools, kept ++ rest, cached, oversized⟩) := by
        refine h.outstanding.trans ?_
        simp only [owned, List.map_append, List.map_cons, List.append_assoc, List.cons_append]
        exact List.perm_middle
      obtain ⟨w', hback, hw, hsub⟩ := doDeallocate_of_perm howned
      have hdrop := h.dropChunk rfl hbucket hperm hw hsub
      obtain ⟨kept', pools', w'', hrest, hinv⟩ := ih kept _ w' hdrop
      refine ⟨kept', pools', w'', ?_, hinv⟩
      rw [herase, Option.bind_some]
      rw [show w.doDeallocate c.pointer c.size O.alignment = some w' from hback, Option.bind_some]
      exact hrest
    · -- some block is in use
      obtain ⟨kept', pools', w', hrest, hinv⟩ := ih (kept ++ [c]) pools w (by simpa using h)
      refine ⟨c :: kept', pools', w', ?_, by simpa using hinv⟩
      rw [hrest]
      rfl

theorem squeezeCached_spec (cached : List OversizedBlockDescriptor) (pools : List Bucket)
    (allocated : List ChunkDescriptor) (oversized : List OversizedBlockDescriptor) (w : World)
    (h : Inv O ⟨pools, allocated, cached, oversized⟩ w live) :
    ∃ oversized' w', squeezeCached cached oversized w = some (oversized', w') ∧
      Inv O ⟨pools, allocated, [], oversized'⟩ w' live := by
  induction cached generalizing oversized w with
  | nil => exact ⟨oversized, w, rfl, h⟩
  | cons d cached ih =>
    obtain ⟨rest, hperm, hserved⟩ := h.oversized.drop
    have hmem : d ∈ oversized := hperm.mem_iff.mpr List.mem_cons_self
    have hrest : (oversized.erase d).Perm rest := by simpa using hperm.erase d
    have howned : w.outstanding.Perm (d.allocation ::
        owned O ⟨pools, allocated, cached, oversized.erase d⟩) := by
      refine h.outstanding.trans (List.Perm.trans ?_ List.perm_middle)
      exact ((List.perm_cons_erase hmem).map _).append_left _
    obtain ⟨w', hback, hw, hsub⟩ := doDeallocate_of_perm howned
    obtain ⟨oversized', w'', heq, hinv⟩ := ih (oversized.erase d) w'
      { h with
        outstanding := hw
        held := h.held.sublist hsub
        sorted := (List.pairwise_cons.mp h.sorted).2
        valid := fun e he => h.valid e (List.mem_of_mem_erase he)
        oversized := hserved.perm hrest (List.Perm.refl _) }
    refine ⟨oversized', w'', ?_, hinv⟩
    change (w.doDeallocate d.pointer d.size d.alignment).bind _ = _
    rw [show w.doDeallocate d.pointer d.size d.alignment = some w' from hback, Option.bind_some,
      if_pos hmem]
    exact heq

/-- **`squeeze` has a result**, and what the user has is not in what it gives back. -/
theorem squeeze_spec {R : DisjointPool} {w : World} (h : Inv O R w live) :
    ∃ R' w', squeeze O R w = some (R', w') ∧ Inv O R' w' live := by
  obtain ⟨kept, pools, w', hchunks, hinv⟩ :=
    squeezeChunks_spec R.allocated [] R.pools R.cachedOversized R.oversized w h
  obtain ⟨oversized, w'', hcached, hinv⟩ := squeezeCached_spec _ _ _ _ _ hinv
  refine ⟨⟨pools, kept, [], oversized⟩, w'', ?_, hinv⟩
  simp only [squeeze, hchunks, hcached, Option.bind_eq_bind, Option.bind_some]

/-- **`release` has a result**, after which nothing is allocated. -/
theorem release_spec {R : DisjointPool} {w : World} (h : Inv O R w live) :
    ∃ R' w', release O R w = some (R', w') ∧ Inv O R' w' [] ∧ w'.outstanding = [] := by
  obtain ⟨w', hchunks, hperm⟩ := giveBack_of_perm _ _ w h.outstanding
  obtain ⟨w'', hoversized, hempty⟩ :=
    giveBack_of_perm (R.oversized.map OversizedBlockDescriptor.allocation) [] w'
      (by rwa [List.append_nil])
  have hnil := hempty.eq_nil
  have hbuckets : ∀ (i : ℕ) (bucket : Bucket),
      (R.pools.map fun _ => (⟨[], 0⟩ : Bucket))[i]? = some bucket → bucket = ⟨[], 0⟩ := by
    intro i bucket hi
    rw [List.getElem?_map] at hi
    obtain ⟨_, -, rfl⟩ := Option.map_eq_some_iff.mp hi
    rfl
  refine ⟨⟨R.pools.map fun _ => (⟨[], 0⟩ : Bucket), [], [], []⟩, w'',
    by simp only [release, hchunks, hoversized, Option.bind_eq_bind, Option.bind_some], ?_, hnil⟩
  exact {
    length := (List.length_map _).trans h.length
    counts := fun i bucket hi => Or.inl (by rw [hbuckets i bucket hi])
    chunks := fun c hc => absurd hc List.not_mem_nil
    outstanding := hempty
    held := hnil ▸ Held.nil
    sorted := List.Pairwise.nil
    valid := fun d hd => absurd hd List.not_mem_nil
    pooled := fun i bucket hi => by rw [hbuckets i bucket hi]; exact List.Perm.refl _
    oversized := Served.nil }

end Cccl.Pool.DisjointPool
