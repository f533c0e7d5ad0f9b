/-
# Allocating from the disjoint pool

`do_allocate` and `do_deallocate` of `disjoint_unsynchronized_pool_resource` have results that keep the
invariant, if no pool is ever used or the options are such that chunks can be cut into blocks (`Usable`).

The pool of a request is there (`InPool`).  A new chunk has as many blocks as the assertions say
(`allocateChunk_spec`), of which there is at least one, so that a block can be taken (`takeBlock_spec`).  What
is cached is as large as is asked, as it has been found in a sorted list, and aligned as is asked, as both
alignments are powers of two.
-/
import Cccl.Pool.DisjointInv

namespace Cccl.Pool.DisjointPool

open Cmath Regions

variable {O : PoolOptions} {live : List Live}

/-! ## 1. `do_allocate` -/

/-- **A new chunk** has as many blocks as it should have, and all of them are free. -/
theorem allocateChunk_spec (u : Upstream) (hvalid : O.Validated) (hsound : O.Sound)
    {R : DisjointPool} {w : World} {request : Request} {i : ℕ} (hi : InPool O request i)
    (h : Inv O R w live) :
    ∃ enough R' w', allocateChunk O u (ceilIlog2 (room O request)) i R w = some (enough, R', w') ∧
      Inv O R' w' live ∧ (enough = true → ∃ bucket, R'.pools[i]? = some bucket ∧
        bucket.freeBlocks ≠ []) := by
  have hlt : i < R.pools.length := h.length ▸ hi.lt
  have hbucket : R.pools[i]? = some R.pools[i] := List.getElem?_eq_getElem hlt
  have hwithin := PoolOptions.blocksPerChunk_within hvalid hsound (h.counts i _ hbucket) hi.smallest
    hi.largest
  set n := O.blocksPerChunk R.pools[i].previousAllocatedCount (i + smallestBlockLog2 O)
  have hbytes : (n <<< (i + smallestBlockLog2 O)) % 2 ^ 64 = n * bucketSize O i := by
    rw [Nat.shiftLeft_eq, ← bucketSize_eq]
    refine Nat.mod_eq_of_lt ?_
    rw [bucketSize_eq]
    exact hwithin.bytes_le.trans_lt (O.words _ (by simp))
  have hge : O.minBytesPerChunk ≤ n * bucketSize O i := bucketSize_eq (O := O) i ▸ hwithin.bytes_ge
  have hle : n * bucketSize O i ≤ O.maxBytesPerChunk := bucketSize_eq (O := O) i ▸ hwithin.bytes_le
  rw [hi.log2]
  simp only [allocateChunk, hbucket, Option.bind_eq_bind, Option.bind_some]
  rw [hbytes, if_pos ⟨hwithin.blocks_ge, hwithin.blocks_le, hge, hle⟩]
  rcases doAllocate_cases u (n * bucketSize O i) O.alignment w with
    ⟨w', hnone, hw⟩ | ⟨p, w', hsome, hw, hheld⟩
  · rw [hnone]
    exact ⟨false, R, w', rfl, { h with outstanding := hw ▸ h.outstanding, held := hw ▸ h.held },
      fun hfalse => absurd hfalse (by simp)⟩
  · rw [hsome]
    refine ⟨true, _, w', rfl, ?_, fun _ => ⟨_, List.getElem?_set_self hlt, ?_⟩⟩
    · exact {
        length := (List.length_set).trans h.length
        counts := h.counts.set (Or.inr hwithin)
        chunks := by
          intro c hc
          rw [List.length_set]
          rcases List.mem_append.mp hc with hc | hc
          · exact h.chunks c hc
          · obtain rfl := List.mem_singleton.mp hc
            exact ⟨hlt, Nat.dvd_mul_left _ _⟩
        outstanding := by
          rw [hw]
          refine (h.outstanding.cons _).trans ?_
          simp only [owned, List.map_append, List.map_cons, List.map_nil, List.append_assoc]
          exact List.perm_middle.symm
        held := hheld (Nat.mul_pos hwithin.pos (bucketSize_pos i)) h.held
        sorted := h.sorted
        valid := h.valid
        pooled := by
          refine h.pooled.set (fun j hne => ?_) (fun _ _ => rfl) ?_
          · rw [blocksOf, pieces_append, pieces_cons_of_ne hne.symm]
            exact List.append_nil _
          · have hnew : blocksOf O i [⟨n * bucketSize O i, p, i⟩] = cut p (bucketSize O i) n := by
              rw [blocksOf, pieces, List.flatMap_singleton, if_pos rfl,
                Nat.mul_div_cancel _ (bucketSize_pos i)]
            rw [blocksOf, pieces_append]
            change List.Perm _ (blocksOf O i R.allocated ++ blocksOf O i [⟨n * bucketSize O i, p, i⟩])
            rw [hnew, List.append_assoc]
            refine (List.perm_append_comm.append_left _).trans ?_
            rw [← List.append_assoc]
            exact (h.pooled i _ hbucket).append_right _
        oversized := h.oversized }
    · refine List.append_ne_nil_of_right_ne_nil _ (List.ne_nil_of_length_pos ?_)
      rw [length_cut]
      exact hwithin.pos

theorem takeBlock_spec {R : DisjointPool} {w : World} {request : Request} {i : ℕ} {bucket : Bucket}
    (hi : poolOf O request = some i) (hbucket : R.pools[i]? = some bucket)
    (hfree : bucket.freeBlocks ≠ []) (h : Inv O R w live) :
    ∃ p R', takeBlock i R = some (p, R') ∧ Inv O R' w (⟨p, request⟩ :: live) := by
  obtain ⟨free, p, hlast⟩ : ∃ free p, bucket.freeBlocks = free ++ [p] :=
    ⟨_, _, (List.dropLast_append_getLast hfree).symm⟩
  have htake : takeBlock i R = some (p, { R with
      pools := R.pools.set i { bucket with freeBlocks := free } }) := by
    simp [takeBlock, hbucket, hlast]
  refine ⟨p, _, htake, { h with
    length := (List.length_set).trans h.length
    counts := h.counts.set (h.counts i bucket hbucket)
    chunks := fun c hc => by rw [List.length_set]; exact h.chunks c hc
    pooled := ?_
    oversized := h.oversized.cons (by simp [hi]) }⟩
  refine h.pooled.set (fun _ _ => rfl) (fun j hne => liveIn_cons_of_ne (by simp [hi, hne.symm]) _) ?_
  have hperm := h.pooled i bucket hbucket
  rw [hlast, List.append_assoc] at hperm
  rwa [liveIn_cons_self hi]

/-- **An allocation from a pool** has a result. -/
theorem allocatePooled_spec (u : Upstream) (hvalid : O.Validated) (hsound : O.Sound)
    {R : DisjointPool} {w : World} {request : Request} {i : ℕ} (hi : poolOf O request = some i)
    (h : Inv O R w live) :
    ∃ answer R' w', allocatePooled O u (room O request) R w = some (answer, R', w') ∧
      Inv O R' w' (received request answer live) := by
  have hin := inPool_of_poolOf hvalid hi
  have hidx : ceilIlog2 (room O request) - smallestBlockLog2 O = i := by
    have := hin.log2
    omega
  obtain ⟨bucket, hbucket⟩ : ∃ bucket, R.pools[i]? = some bucket :=
    ⟨_, List.getElem?_eq_getElem (h.length ▸ hin.lt)⟩
  simp only [allocatePooled, hidx, hbucket, Option.bind_eq_bind, Option.bind_some]
  split
  · obtain ⟨enough, R', w', hchunk, hinv, henough⟩ := allocateChunk_spec u hvalid hsound hin h
    rw [hchunk, Option.bind_some]
    cases enough with
    | false => exact ⟨none, R', w', rfl, hinv⟩
    | true =>
      obtain ⟨bucket', hbucket', hfree⟩ := henough rfl
      obtain ⟨p, R'', htake, hinv'⟩ := takeBlock_spec hi hbucket' hfree hinv
      refine ⟨some p, R'', w', ?_, hinv'⟩
      simp [htake]
  · rename_i hfree
    obtain ⟨p, R', htake, hinv⟩ := takeBlock_spec hi hbucket hfree h
    refine ⟨some p, R', w, ?_, hinv⟩
    simp [htake]

/-- **An oversized allocation** has a result. -/
theorem allocateOversized_spec (u : Upstream) {R : DisjointPool} {w : World} {request : Request}
    (hi : poolOf O request = none) (hroom : 0 < room O request) (h : Inv O R w live) :
    ∃ answer R' w', allocateOversized O u (room O request) request.alignment R w =
        some (answer, R', w') ∧ Inv O R' w' (received request answer live) := by
  obtain ⟨cachedBlock, hcached, hfits⟩ :=
    findCached_of_sorted O h.sorted (room O request) request.alignment
  simp only [allocateOversized, hcached, Option.bind_eq_bind, Option.bind_some]
  -- a block that is not from a pool leaves the pools as they are
  have hpooled : ∀ p, Pooled O R.pools R.allocated (⟨p, request⟩ :: live) := by
    intro p i bucket hbucket
    rw [liveIn_cons_of_ne (by simp [hi])]
    exact h.pooled i bucket hbucket
  match cachedBlock, hfits with
  | some (i, d), hfits =>
    obtain ⟨hd, hsize, halign⟩ := hfits i d rfl
    obtain ⟨hlt, rfl⟩ := List.getElem?_eq_some_iff.mp hd
    have hperm := (List.getElem_cons_eraseIdx_perm hlt).symm
    have hserved := h.oversized.perm (List.Perm.refl _) hperm
    have hvalid : isValidAlignment R.cachedOversized[i].alignment = true := by
      exact h.valid _ (h.oversized.cached_subset (List.getElem_mem hlt))
    refine ⟨_, _, w, rfl, { h with
      sorted := h.sorted.eraseIdx i
      pooled := hpooled _
      oversized := hserved.take hi ⟨rfl, hsize, ?_⟩ }⟩
    exact dvd_of_valid (isPowerOfTwo_of_valid request.alignment_valid) (isPowerOfTwo_of_valid hvalid)
      halign
  | none, _ =>
    rcases doAllocate_cases u (room O request) request.alignment w with
      ⟨w', hnone, hw⟩ | ⟨p, w', hsome, hw, hheld⟩
    · simp only [hnone]
      exact ⟨none, R, w', rfl, { h with outstanding := hw ▸ h.outstanding, held := hw ▸ h.held }⟩
    · simp only [hsome]
      refine ⟨some p, _, w', rfl, { h with
        outstanding := ?_
        held := hheld hroom h.held
        valid := ?_
        pooled := hpooled p
        oversized := ?_ }⟩
      · rw [hw]
        refine (h.outstanding.cons _).trans ?_
        simp only [owned, List.map_append, List.map_cons, List.map_nil, ← List.append_assoc]
        exact (List.perm_append_singleton _ _).symm
      · intro d hd
        rcases List.mem_append.mp hd with hd | hd
        · exact h.valid d hd
        · obtain rfl := List.mem_singleton.mp hd
          exact request.alignment_valid
      · have hserves : Serves O ⟨room O request, request.alignment, p⟩ ⟨p, request⟩ :=
          ⟨rfl, le_rfl, Nat.dvd_refl _⟩
        exact (h.oversized.new hi hserves).perm (List.perm_append_singleton _ _) (List.Perm.refl _)

/-- The options with which the resource can be used. -/
def Usable (O : PoolOptions) : Prop := O.alignment = 0 ∨ O.Sound

theorem doAllocateImpl_spec (u : Upstream) (hvalid : O.Validated) (hO : Usable O) {R : DisjointPool}
    {w : World} (request : Request) (h : Inv O R w live) :
    ∃ answer R' w', doAllocateImpl O u request.bytes request.alignment R w = some (answer, R', w') ∧
      Inv O R' w' (received request answer live) := by
  rw [doAllocateImpl, if_neg (by simp [request.alignment_valid])]
  cases hpool : poolOf O request with
  | none =>
    have hoversized : isOversized O request.bytes request.alignment := by
      rw [poolOf] at hpool
      by_contra hnot
      exact absurd hpool (by simp [hnot])
    have hroom : 0 < room O request := by
      obtain ⟨k, hk⟩ := hvalid.smallest
      exact (hk ▸ Nat.two_pow_pos k : 0 < O.smallestBlockSize).trans_le (Nat.le_max_right _ _)
    rw [if_pos hoversized]
    exact allocateOversized_spec u hpool hroom h
  | some i =>
    have hpooled : ¬ isOversized O request.bytes request.alignment := by
      rw [poolOf] at hpool
      intro hoversized
      exact absurd hpool (by simp [hoversized])
    have hsound := hO.resolve_left (inPool_of_poolOf hvalid hpool).alignment_ne
    rw [if_neg hpooled]
    exact allocatePooled_spec u hvalid hsound hpool h

/-- **`do_allocate` has a result**, also if the upstream resource has no memory. -/
theorem doAllocate_spec (u : Upstream) (hvalid : O.Validated) (hO : Usable O) {R : DisjointPool}
    {w : World} (request : Request) (h : Inv O R w live) :
    ∃ answer R' w', doAllocate O u request.bytes request.alignment R w = some (answer, R', w') ∧
      Inv O R' w' (received request answer live) := by
  obtain ⟨answer, R', w', himpl, hinv⟩ := doAllocateImpl_spec u hvalid hO request h
  simp only [doAllocate, himpl, Option.bind_eq_bind, Option.bind_some]
  cases answer with
  | some p => exact ⟨some p, R', w', rfl, hinv⟩
  | none =>
    obtain ⟨R'', w'', hsqueeze, hinv⟩ := squeeze_spec hinv
    simp only [hsqueeze, Option.bind_some]
    exact doAllocateImpl_spec u hvalid hO request hinv

/-! ## 2. `do_deallocate` -/

theorem aligned_of_mem_blocksOf (hvalid : O.Validated) {i p : ℕ} {chunks : List ChunkDescriptor}
    (hsmallest : O.smallestBlockSize ≤ bucketSize O i) (hne : O.alignment ≠ 0)
    (hchunks : ∀ c ∈ chunks, c.pointer % O.alignment = 0) (hp : p ∈ blocksOf O i chunks) :
    O.alignment ∣ p := by
  obtain ⟨c, hc, -, hcut⟩ := mem_pieces.mp hp
  obtain ⟨j, -, rfl⟩ := mem_cut.mp hcut
  have hpower := hvalid.alignment.resolve_left hne
  have hdvd : O.alignment ∣ bucketSize O i :=
    dvd_of_valid hpower ⟨_, bucketSize_eq i⟩ (hvalid.alignment_le.trans hsmallest)
  exact Nat.dvd_add (Nat.dvd_of_mod_eq_zero (hchunks c hc)) (Dvd.dvd.mul_left hdvd j)

theorem Inv.bucket (hvalid : O.Validated) {R : DisjointPool} {w : World} (h : Inv O R w live)
    {request : Request} {i : ℕ} (hpool : poolOf O request = some i) :
    ∃ bucket, R.pools[i]? = some bucket :=
  ⟨_, List.getElem?_eq_getElem (h.length ▸ (inPool_of_poolOf hvalid hpool).lt)⟩

theorem Inv.mem_blocksOf_live (hvalid : O.Validated) {R : DisjointPool} {w : World}
    (h : Inv O R w live) {b : Live} (hb : b ∈ live) {i : ℕ} (hpool : poolOf O b.request = some i) :
    b.pointer ∈ blocksOf O i R.allocated := by
  obtain ⟨bucket, hbucket⟩ := h.bucket hvalid hpool
  refine (h.pooled i bucket hbucket).mem_iff.mp (List.mem_append_right _ ?_)
  exact List.mem_map_of_mem (mem_liveIn.mpr ⟨hb, hpool⟩)

theorem Inv.aligned (hvalid : O.Validated) {R : DisjointPool} {w : World} (h : Inv O R w live)
    {b : Live} (hb : b ∈ live) : b.pointer % b.request.alignment = 0 := by
  have hpower := isPowerOfTwo_of_valid b.request.alignment_valid
  have howned : ∀ a ∈ owned O R, a.pointer % a.alignment = 0 :=
    fun a ha => h.held.aligned a (h.outstanding.mem_iff.mpr ha)
  refine Nat.mod_eq_zero_of_dvd ?_
  cases hpool : poolOf O b.request with
  | none =>
    obtain ⟨d, hd, hserves⟩ := h.oversized.exists_serves hb hpool
    have hmod := howned d.allocation (List.mem_append_right _ (List.mem_map_of_mem hd))
    exact hserves.alignment.trans (hserves.pointer ▸ Nat.dvd_of_mod_eq_zero hmod)
  | some i =>
    have hin := inPool_of_poolOf hvalid hpool
    refine (dvd_of_valid hpower (hvalid.alignment.resolve_left hin.alignment_ne)
      hin.alignment_le).trans ?_
    refine aligned_of_mem_blocksOf hvalid (bucketSize_eq (O := O) i ▸ hin.smallest) hin.alignment_ne
      (fun c hc => ?_) (h.mem_blocksOf_live hvalid hb hpool)
    exact howned (c.allocation O.alignment) (List.mem_append_left _ (List.mem_map_of_mem hc))

theorem findIdx?_pointer {l rest : List OversizedBlockDescriptor} {d : OversizedBlockDescriptor}
    (hperm : l.Perm (d :: rest)) (hnodup : (l.map OversizedBlockDescriptor.pointer).Nodup) :
    ∃ i, (l.findIdx? fun e => e.pointer == d.pointer) = some i ∧ l[i]? = some d ∧
      (l.eraseIdx i).Perm rest := by
  have hmem : d ∈ l := hperm.mem_iff.mpr List.mem_cons_self
  obtain ⟨i, hi⟩ : ∃ i, (l.findIdx? fun e => e.pointer == d.pointer) = some i := by
    refine Option.isSome_iff_exists.mp ?_
    rw [List.findIdx?_isSome]
    exact List.any_eq_true.mpr ⟨d, hmem, beq_self_eq_true _⟩
  obtain ⟨hlt, hp, -⟩ := List.findIdx?_eq_some_iff_getElem.mp hi
  have hd : l[i] = d := List.inj_on_of_nodup_map hnodup (List.getElem_mem hlt) hmem (eq_of_beq hp)
  refine ⟨i, hi, by rw [List.getElem?_eq_getElem hlt, hd], ?_⟩
  refine List.Perm.cons_inv (a := d) (List.Perm.trans ?_ hperm)
  have herase := List.getElem_cons_eraseIdx_perm hlt
  rwa [hd] at herase

/-- **`do_deallocate` has a result** if what the user has is given back. -/
theorem doDeallocate_spec (hvalid : O.Validated) {R : DisjointPool} {w : World} {b : Live}
    (h : Inv O R w (b :: live)) :
    ∃ R' w', doDeallocate O b.pointer b.request.bytes b.request.alignment R w = some (R', w') ∧
      Inv O R' w' live := by
  have haligned := h.aligned hvalid List.mem_cons_self
  rw [doDeallocate, if_neg (by simp [b.request.alignment_valid, haligned])]
  cases hpool : poolOf O b.request with
  | none =>
    have hoversized : isOversized O b.request.bytes b.request.alignment := by
      rw [poolOf] at hpool
      by_contra hnot
      exact absurd hpool (by simp [hnot])
    obtain ⟨d, rest, hserves, hperm, hserved⟩ := h.oversized.back hpool
    obtain ⟨i, hfind, hget, herase⟩ := findIdx?_pointer hperm h.pointers_nodup
    have hpooled : Pooled O R.pools R.allocated live := by
      intro j bucket hbucket
      have := h.pooled j bucket hbucket
      rwa [liveIn_cons_of_ne (by simp [hpool])] at this
    rw [if_pos hoversized, ← hserves.pointer]
    simp only [hfind, hget, Option.bind_eq_bind, Option.bind_some]
    split
    · -- the block is cached
      obtain ⟨position, hlower, hsorted, hcached⟩ := h.sorted.insertIdx d
      have hinv : Inv O { R with cachedOversized := R.cachedOversized.insertIdx position d } w live :=
        { h with
          sorted := hsorted
          pooled := hpooled
          oversized := hserved.cache.perm hperm hcached.symm }
      exact ⟨_, w, by rw [hlower]; rfl, hinv⟩
    · -- the block is given back
      have howned : w.outstanding.Perm (d.allocation ::
          owned O { R with oversized := R.oversized.eraseIdx i }) := by
        refine h.outstanding.trans (List.Perm.trans ?_ List.perm_middle)
        exact ((hperm.trans (herase.symm.cons d)).map _).append_left _
      obtain ⟨w', hback, hw, hsub⟩ := doDeallocate_of_perm howned
      rw [show w.doDeallocate d.pointer d.size d.alignment = some w' from hback, Option.bind_some]
      refine ⟨_, w', rfl, { h with
        outstanding := hw
        held := h.held.sublist hsub
        valid := fun e he => h.valid e ((List.eraseIdx_sublist _ _).mem he)
        pooled := hpooled
        oversized := hserved.perm herase (List.Perm.refl _) }⟩
  | some i =>
    have hpooled : ¬ isOversized O b.request.bytes b.request.alignment := by
      rw [poolOf] at hpool
      intro hoversized
      exact absurd hpool (by simp [hoversized])
    have hidx : ceilIlog2 (max b.request.bytes O.smallestBlockSize) - smallestBlockLog2 O = i := by
      have hlog2 : ceilIlog2 (max b.request.bytes O.smallestBlockSize) = i + smallestBlockLog2 O :=
        (inPool_of_poolOf hvalid hpool).log2
      omega
    obtain ⟨bucket, hbucket⟩ := h.bucket hvalid hpool
    rw [if_neg hpooled]
    simp only [hidx, hbucket, Option.bind_eq_bind, Option.bind_some]
    refine ⟨_, w, rfl, { h with
      length := (List.length_set).trans h.length
      counts := h.counts.set (h.counts i bucket hbucket)
      chunks := fun c hc => by rw [List.length_set]; exact h.chunks c hc
      pooled := ?_
      oversized := h.oversized.of_cons (by simp [hpool]) }⟩
    refine h.pooled.set (fun _ _ => rfl)
      (fun j hne => (liveIn_cons_of_ne (by simp [hpool, hne.symm]) _).symm) ?_
    have hperm := h.pooled i bucket hbucket
    rw [liveIn_cons_self hpool, List.map_cons] at hperm
    rwa [List.append_assoc]

end Cccl.Pool.DisjointPool
