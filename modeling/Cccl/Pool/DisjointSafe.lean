/-
# The disjoint pool is safe, if chunks can be cut into blocks

`disjoint_unsynchronized_pool_resource` asserts that a new chunk has at least the least number of blocks and of
bytes.  The first chunk of a pool has `max(min_blocks_per_chunk, min_bytes_per_chunk >> log2)` blocks, which
may be fewer bytes than `min_bytes_per_chunk` if that is not a multiple of the block size: `validate` accepts
such options, and the assertion fails (`not_forall_act`).  If neither is set, then a chunk has no block at all.

If no pool is ever used, or the options are such that the first chunk has enough bytes and some block, and the
products do not wrap (`Usable`), then every operation in every reachable state has a result, and what the user
has is as it should be (`reachable_safe`).
-/
import Cccl.Pool.DisjointOps

namespace Cccl.Pool.DisjointPool

open Regions

/-! ## 1. What the user has -/

/-- The blocks of the user are aligned and within what is allocated, and apart from each other and from what
is free or cached. -/
structure Safe (O : PoolOptions) (s : Sys) : Prop where
  aligned : ∀ b ∈ s.live, b.pointer % b.request.alignment = 0
  held : ∀ b ∈ s.live, ∃ a ∈ s.world.outstanding,
    a.pointer ≤ b.pointer ∧ b.pointer + b.request.bytes ≤ a.pointer + a.size
  apart : s.live.Pairwise fun a b => Apart a.pointer a.request.bytes b.pointer b.request.bytes
  free : ∀ i bucket, s.resource.pools[i]? = some bucket →
    (bucket.freeBlocks.Pairwise fun p q => Apart p (bucketSize O i) q (bucketSize O i)) ∧
    ∀ p ∈ bucket.freeBlocks,
      (∃ a ∈ s.world.outstanding, a.pointer ≤ p ∧ p + bucketSize O i ≤ a.pointer + a.size) ∧
      ∀ b ∈ s.live, Apart p (bucketSize O i) b.pointer b.request.bytes
  cached : ∀ d ∈ s.resource.cachedOversized, d.allocation ∈ s.world.outstanding ∧
    ∀ b ∈ s.live, Apart d.pointer d.size b.pointer b.request.bytes

variable {O : PoolOptions} {R : DisjointPool} {w : World} {live : List Live}

theorem Inv.held_owned (h : Inv O R w live) : Held (owned O R) := h.held.perm h.outstanding

theorem Inv.chunks_apart (h : Inv O R w live) :
    R.allocated.Pairwise fun c e => Apart c.pointer c.size e.pointer e.size :=
  List.pairwise_map.mp (List.pairwise_append.mp h.held_owned.apart).1

theorem Inv.oversized_apart (h : Inv O R w live) :
    R.oversized.Pairwise fun d e => Apart d.pointer d.size e.pointer e.size :=
  List.pairwise_map.mp (List.pairwise_append.mp h.held_owned.apart).2.1

theorem Inv.chunk_apart_oversized (h : Inv O R w live) {c : ChunkDescriptor} (hc : c ∈ R.allocated)
    {d : OversizedBlockDescriptor} (hd : d ∈ R.oversized) :
    Apart c.pointer c.size d.pointer d.size :=
  (List.pairwise_append.mp h.held_owned.apart).2.2 _ (List.mem_map_of_mem hc) _ (List.mem_map_of_mem hd)

theorem Inv.block_within (h : Inv O R w live) {i p : ℕ} (hp : p ∈ blocksOf O i R.allocated) :
    ∃ c ∈ R.allocated, c.poolIdx = i ∧ c.pointer ≤ p ∧ p + bucketSize O i ≤ c.pointer + c.size := by
  obtain ⟨c, hc, rfl, hcut⟩ := mem_pieces.mp hp
  have hwithin := cut_within hcut
  rw [Nat.div_mul_cancel (h.chunks c hc).2] at hwithin
  exact ⟨c, hc, rfl, hwithin⟩

theorem Inv.blocks_apart (h : Inv O R w live) (i : ℕ) :
    (blocksOf O i R.allocated).Pairwise fun p q => Apart p (bucketSize O i) q (bucketSize O i) := by
  refine pieces_pairwise (bucketSize_pos i) (fun c hc hidx => ?_) h.chunks_apart
  exact (Nat.div_mul_cancel (hidx ▸ (h.chunks c hc).2)).le

/-- The room of each block of the user is within a chunk of its pool or is an oversized block. -/
theorem Inv.live_within (hvalid : O.Validated) (h : Inv O R w live) {b : Live} (hb : b ∈ live) :
    (∃ i, poolOf O b.request = some i ∧ ∃ c ∈ R.allocated, c.poolIdx = i ∧ c.pointer ≤ b.pointer ∧
      b.pointer + room O b.request ≤ c.pointer + c.size) ∨
    poolOf O b.request = none ∧ ∃ d ∈ R.oversized, Serves O d b := by
  cases hpool : poolOf O b.request with
  | none => exact Or.inr ⟨rfl, h.oversized.exists_serves hb hpool⟩
  | some i =>
    obtain ⟨c, hc, hidx, hle, hend⟩ := h.block_within (h.mem_blocksOf_live hvalid hb hpool)
    have hroom := (inPool_of_poolOf hvalid hpool).room
    rw [← bucketSize_eq] at hroom
    exact Or.inl ⟨i, rfl, c, hc, hidx, hle, by omega⟩

theorem Inv.apart_of_ne (hvalid : O.Validated) (h : Inv O R w live) {a b : Live} (ha : a ∈ live)
    (hb : b ∈ live) (hne : poolOf O a.request ≠ poolOf O b.request) :
    Apart a.pointer (room O a.request) b.pointer (room O b.request) := by
  rcases h.live_within hvalid ha with ⟨i, hi, c, hc, hci, hcle, hcend⟩ | ⟨hi, d, hd, hserves⟩
  · rcases h.live_within hvalid hb with ⟨j, hj, e, he, hej, hele, heend⟩ | ⟨hj, e, he, hserves⟩
    · have hce : c ≠ e := fun heq => hne (by rw [hi, hj, ← hci, ← hej, heq])
      exact (apart_of_pairwise h.chunks_apart hc he hce).within hcle hcend hele heend
    · refine (h.chunk_apart_oversized hc he).within hcle hcend hserves.pointer.le ?_
      rw [hserves.pointer]
      exact Nat.add_le_add_left hserves.size _
  · rcases h.live_within hvalid hb with ⟨j, hj, e, he, hej, hele, heend⟩ | ⟨hj, -⟩
    · refine ((h.chunk_apart_oversized he hd).within hele heend hserves.pointer.le ?_).symm
      rw [hserves.pointer]
      exact Nat.add_le_add_left hserves.size _
    · exact absurd (hi.trans hj.symm) hne

/-- The free blocks of a pool and those of the user that come from it are apart from each other. -/
theorem Inv.pool_apart (h : Inv O R w live) {i : ℕ} {bucket : Bucket}
    (hbucket : R.pools[i]? = some bucket) :
    (bucket.freeBlocks ++ (liveIn O (some i) live).map Live.pointer).Pairwise
      fun p q => Apart p (bucketSize O i) q (bucketSize O i) :=
  (h.pooled i bucket hbucket).symm.pairwise (h.blocks_apart i) fun hab => hab.symm

/-- The cached blocks and the oversized blocks of the user are apart from each other. -/
theorem Inv.served_apart (h : Inv O R w live) :
    ((liveIn O none live).Pairwise fun a b =>
      Apart a.pointer (room O a.request) b.pointer (room O b.request)) ∧
    ∀ b ∈ liveIn O none live, ∀ d ∈ R.cachedOversized,
      Apart d.pointer d.size b.pointer (room O b.request) := by
  obtain ⟨pairs, hfst, hsnd, hserves⟩ := h.oversized
  have hall := hfst.pairwise h.oversized_apart fun hab => hab.symm
  obtain ⟨hpairs, -, hacross⟩ := List.pairwise_append.mp hall
  constructor
  · refine hsnd.symm.pairwise ?_ fun hab => hab.symm
    refine List.pairwise_map.mpr ((List.pairwise_map.mp hpairs).imp_of_mem fun hx hy hxy => ?_)
    have hsx := hserves _ hx
    have hsy := hserves _ hy
    refine hxy.within hsx.pointer.le ?_ hsy.pointer.le ?_
    · rw [hsx.pointer]
      exact Nat.add_le_add_left hsx.size _
    · rw [hsy.pointer]
      exact Nat.add_le_add_left hsy.size _
  · intro b hb d hd
    obtain ⟨x, hx, rfl⟩ := List.mem_map.mp (hsnd.mem_iff.mp hb)
    have hs := hserves x hx
    refine (hacross _ (List.mem_map_of_mem hx) d hd).symm.within le_rfl le_rfl hs.pointer.le ?_
    rw [hs.pointer]
    exact Nat.add_le_add_left hs.size _

theorem Inv.live_apart (hvalid : O.Validated) (h : Inv O R w live) :
    live.Pairwise fun a b => Apart a.pointer (room O a.request) b.pointer (room O b.request) := by
  refine pairwise_of_classes (fun b => poolOf O b.request) (fun k => ?_)
    fun a ha b hb hne => h.apart_of_ne hvalid ha hb hne
  cases k with
  | none => exact h.served_apart.1
  | some i =>
    rcases hlive : liveIn O (some i) live with _ | ⟨b, rest⟩
    · change (liveIn O (some i) live).Pairwise _
      rw [hlive]
      exact List.Pairwise.nil
    · have hb : b ∈ liveIn O (some i) live := hlive ▸ List.mem_cons_self
      obtain ⟨bucket, hbucket⟩ := h.bucket hvalid (mem_liveIn.mp hb).2
      have hpool := List.pairwise_map.mp (List.pairwise_append.mp (h.pool_apart hbucket)).2.1
      refine hpool.imp_of_mem fun hx hy hxy => ?_
      have hxroom := (inPool_of_poolOf hvalid (mem_liveIn.mp hx).2).room
      have hyroom := (inPool_of_poolOf hvalid (mem_liveIn.mp hy).2).room
      rw [← bucketSize_eq] at hxroom hyroom
      exact hxy.within le_rfl (by omega) le_rfl (by omega)

theorem Inv.free_apart (hvalid : O.Validated) (h : Inv O R w live) {i : ℕ} {bucket : Bucket}
    (hbucket : R.pools[i]? = some bucket) {p : ℕ} (hp : p ∈ bucket.freeBlocks) {b : Live}
    (hb : b ∈ live) : Apart p (bucketSize O i) b.pointer (room O b.request) := by
  have hblock := (h.pooled i bucket hbucket).mem_iff.mp (List.mem_append_left _ hp)
  obtain ⟨c, hc, hci, hcle, hcend⟩ := h.block_within hblock
  rcases h.live_within hvalid hb with ⟨j, hj, e, he, hej, hele, heend⟩ | ⟨hj, e, he, hserves⟩
  · rcases eq_or_ne i j with rfl | hne
    · have hacross := (List.pairwise_append.mp (h.pool_apart hbucket)).2.2 p hp b.pointer
        (List.mem_map_of_mem (mem_liveIn.mpr ⟨hb, hj⟩))
      have hroom := (inPool_of_poolOf hvalid hj).room
      rw [← bucketSize_eq] at hroom
      exact hacross.within le_rfl le_rfl le_rfl (by omega)
    · have hce : c ≠ e := fun heq => hne (by rw [← hci, ← hej, heq])
      exact (apart_of_pairwise h.chunks_apart hc he hce).within hcle hcend hele heend
  · refine (h.chunk_apart_oversized hc he).within hcle hcend hserves.pointer.le ?_
    rw [hserves.pointer]
    exact Nat.add_le_add_left hserves.size _

theorem Inv.cached_apart (hvalid : O.Validated) (h : Inv O R w live) {d : OversizedBlockDescriptor}
    (hd : d ∈ R.cachedOversized) {b : Live} (hb : b ∈ live) :
    Apart d.pointer d.size b.pointer (room O b.request) := by
  rcases h.live_within hvalid hb with ⟨j, hj, e, he, hej, hele, heend⟩ | ⟨hj, -⟩
  · exact ((h.chunk_apart_oversized he (h.oversized.cached_subset hd)).within hele heend le_rfl le_rfl).symm
  · exact h.served_apart.2 b (mem_liveIn.mpr ⟨hb, hj⟩) d hd

/-- **The invariant says that what the user has is as it should be.** -/
theorem Inv.safe (hvalid : O.Validated) (h : Inv O R w live) : Safe O ⟨R, w, live⟩ where
  aligned _ hb := h.aligned hvalid hb
  held b hb := by
    have hbytes := le_room O b.request
    rcases h.live_within hvalid hb with ⟨-, -, c, hc, -, hle, hend⟩ | ⟨-, d, hd, hserves⟩
    · have hmem := List.mem_append_left (R.oversized.map OversizedBlockDescriptor.allocation)
        (List.mem_map_of_mem (f := ChunkDescriptor.allocation O.alignment) hc)
      refine ⟨_, h.outstanding.mem_iff.mpr hmem, hle, ?_⟩
      exact (Nat.add_le_add_left hbytes _).trans hend
    · have hmem := List.mem_append_right (R.allocated.map (ChunkDescriptor.allocation O.alignment))
        (List.mem_map_of_mem (f := OversizedBlockDescriptor.allocation) hd)
      refine ⟨_, h.outstanding.mem_iff.mpr hmem, hserves.pointer.le, ?_⟩
      rw [← hserves.pointer]
      exact Nat.add_le_add_left (hbytes.trans hserves.size) _
  apart := (h.live_apart hvalid).imp fun hab => hab.within le_rfl
    (Nat.add_le_add_left (le_room O _) _) le_rfl (Nat.add_le_add_left (le_room O _) _)
  free i bucket hbucket := by
    refine ⟨(List.pairwise_append.mp (h.pool_apart hbucket)).1, fun p hp => ⟨?_, fun b hb => ?_⟩⟩
    · have hblock := (h.pooled i bucket hbucket).mem_iff.mp (List.mem_append_left _ hp)
      obtain ⟨c, hc, -, hle, hend⟩ := h.block_within hblock
      have hmem := List.mem_append_left (R.oversized.map OversizedBlockDescriptor.allocation)
        (List.mem_map_of_mem (f := ChunkDescriptor.allocation O.alignment) hc)
      exact ⟨_, h.outstanding.mem_iff.mpr hmem, hle, hend⟩
    · exact (h.free_apart hvalid hbucket hp hb).within le_rfl le_rfl le_rfl
        (Nat.add_le_add_left (le_room O _) _)
  cached d hd := by
    refine ⟨h.outstanding.mem_iff.mpr (List.mem_append_right _ (List.mem_map_of_mem (h.oversized.cached_subset hd))),
      fun b hb => ?_⟩
    exact (h.cached_apart hvalid hd hb).within le_rfl le_rfl le_rfl
      (Nat.add_le_add_left (le_room O _) _)

/-! ## 2. Runs -/

theorem Inv.create (O : PoolOptions) : Inv O (create O) ⟨0, []⟩ [] where
  length := List.length_replicate
  counts i bucket hi := by
    rw [(List.mem_replicate.mp (List.mem_of_getElem? hi)).2]
    exact Or.inl rfl
  chunks _ hc := absurd hc List.not_mem_nil
  outstanding := List.Perm.refl _
  held := Held.nil
  sorted := List.Pairwise.nil
  valid _ hd := absurd hd List.not_mem_nil
  pooled i bucket hi := by
    rw [(List.mem_replicate.mp (List.mem_of_getElem? hi)).2]
    exact List.Perm.refl _
  oversized := Served.nil

theorem act_spec (u : Upstream) (hvalid : O.Validated) (hO : Usable O) {s : Sys}
    (h : Inv O s.resource s.world s.live) (a : Action) :
    ∃ s', act O u s a = some s' ∧ Inv O s'.resource s'.world s'.live := by
  cases a with
  | allocate request =>
    obtain ⟨answer, R', w', hresult, hinv⟩ := doAllocate_spec u hvalid hO request h
    simp only [act, hresult, Option.bind_eq_bind, Option.bind_some]
    cases answer with
    | none => exact ⟨_, rfl, hinv⟩
    | some p => exact ⟨_, rfl, hinv⟩
  | deallocate i =>
    simp only [act]
    cases hb : s.live[i]? with
    | none => exact ⟨s, rfl, h⟩
    | some b =>
      obtain ⟨hlt, rfl⟩ := List.getElem?_eq_some_iff.mp hb
      obtain ⟨R', w', hresult, hinv⟩ :=
        doDeallocate_spec hvalid (h.perm (List.getElem_cons_eraseIdx_perm hlt).symm)
      simp only [hresult, Option.bind_eq_bind, Option.bind_some]
      exact ⟨_, rfl, hinv⟩
  | squeeze =>
    obtain ⟨R', w', hresult, hinv⟩ := squeeze_spec h
    simp only [act, hresult, Option.bind_eq_bind, Option.bind_some]
    exact ⟨_, rfl, hinv⟩
  | release =>
    obtain ⟨R', w', hresult, hinv, -⟩ := release_spec h
    simp only [act, hresult, Option.bind_eq_bind, Option.bind_some]
    exact ⟨_, rfl, hinv⟩

/-- What is promised of a state: what the user has is as it should be; every action has a result, so that no
assertion fails and nothing is given back that is not allocated; `squeeze`, with whatever calls of the upstream
resource before, gives back nothing that the user has; and after `release` all has been given back. -/
structure Correct (O : PoolOptions) (u : Upstream) (s : Sys) : Prop where
  safe : Safe O s
  act : ∀ a, ∃ s', act O u s a = some s'
  squeeze : ∀ calls, ∃ R w, squeeze O s.resource ⟨calls, s.world.outstanding⟩ = some (R, w) ∧
    Safe O ⟨R, w, s.live⟩
  release : ∀ s', DisjointPool.act O u s .release = some s' → s'.world.outstanding = []

theorem Inv.correct (u : Upstream) (hvalid : O.Validated) (hO : Usable O) {s : Sys}
    (h : Inv O s.resource s.world s.live) : Correct O u s where
  safe := h.safe hvalid
  act a := by
    obtain ⟨s', hs', -⟩ := act_spec u hvalid hO h a
    exact ⟨s', hs'⟩
  squeeze calls := by
    have hcalls : Inv O s.resource ⟨calls, s.world.outstanding⟩ s.live :=
      { h with outstanding := h.outstanding, held := h.held }
    obtain ⟨R, w, hresult, hinv⟩ := squeeze_spec hcalls
    exact ⟨R, w, hresult, hinv.safe hvalid⟩
  release s' hs' := by
    obtain ⟨R, w, hresult, -, hempty⟩ := release_spec h
    simp only [DisjointPool.act, hresult, Option.bind_eq_bind, Option.bind_some] at hs'
    rw [← Option.some_inj.mp hs']
    exact hempty

/-- **The disjoint pool is safe with options that can be used**: in every reachable state what the user has is
aligned, large enough and apart, and every operation has a result. -/
theorem reachable_correct (u : Upstream) (hvalidate : O.validate = true) (hO : Usable O) {s : Sys}
    (h : (runs O u).Reachable s) : Correct O u s := by
  have hvalid := PoolOptions.validated_of_validate hvalidate
  refine Inv.correct u hvalid hO ?_
  refine h.invariant (P := fun s => Inv O s.resource s.world s.live) (fun s hs => ?_)
    fun s a s' hs hstep => ?_
  · rw [show s = _ from hs]
    exact Inv.create O
  · obtain ⟨s'', hs'', hinv⟩ := act_spec u hvalid hO hs a
    rw [← Option.some_inj.mp (hs''.symm.trans hstep)]
    exact hinv

/-- After 100 bytes have been allocated with the default options. -/
theorem reachable_correct_default :
    ∃ s, act PoolOptions.getDefaultOptions Upstream.above ⟨create PoolOptions.getDefaultOptions, ⟨0, []⟩, []⟩
        (.allocate ⟨100, 16, by decide, by decide, by decide⟩) = some s ∧
      Correct PoolOptions.getDefaultOptions Upstream.above s := by
  have hinit : (runs PoolOptions.getDefaultOptions Upstream.above).Reachable
      ⟨create PoolOptions.getDefaultOptions, ⟨0, []⟩, []⟩ := Lts.Reachable.init rfl
  have hO : Usable PoolOptions.getDefaultOptions := Or.inr PoolOptions.getDefaultOptions_sound
  obtain ⟨s, hs⟩ := (reachable_correct Upstream.above (by decide) hO hinit).act
    (.allocate ⟨100, 16, by decide, by decide, by decide⟩)
  exact ⟨s, hs, reachable_correct Upstream.above (by decide) hO (hinit.step hs)⟩

/-- Blocks have 64 bytes, and a chunk should have at least 1000. -/
def unevenOptions : PoolOptions where
  minBlocksPerChunk := 1
  minBytesPerChunk := 1000
  maxBlocksPerChunk := 100
  maxBytesPerChunk := 1000000
  smallestBlockSize := 64
  largestBlockSize := 64
  alignment := 16
  cacheOversized := true
  cachedSizeCutoffFactor := 16
  cachedAlignmentCutoffFactor := 16
  words := by decide

/-- The first chunk has 15 blocks, which are fewer bytes than the assertion asks. -/
theorem not_forall_correct :
    ¬ ∀ (O : PoolOptions) (u : Upstream), O.validate = true → ∀ s, (runs O u).Reachable s →
      Correct O u s := by
  intro h
  obtain ⟨s, hs⟩ := (h unevenOptions Upstream.above (by decide) _ (Lts.Reachable.init rfl)).act
    (.allocate ⟨64, 16, by decide, by decide, by decide⟩)
  have hnone : act unevenOptions Upstream.above ⟨create unevenOptions, ⟨0, []⟩, []⟩
      (.allocate ⟨64, 16, by decide, by decide, by decide⟩) = none := by rfl
  exact absurd (hnone.symm.trans hs) (by simp)

end Cccl.Pool.DisjointPool
