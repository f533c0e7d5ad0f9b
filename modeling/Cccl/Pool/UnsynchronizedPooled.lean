/-
# Blocks of the pools of the pool resource

The pooled part of `do_allocate` and of `do_deallocate` of `unsynchronized_pool_resource`, and `release`.

A new chunk has room for as many blocks as its size says, if the size does not wrap, and at least one of them,
so that the free list is not null when its front is taken (`Cuts`).  The blocks of a chunk are pushed one by
one, each to its own slot (`pushBlocks_spec`).  `release` walks the list of chunks and the list of oversized
blocks, and gives back all that is allocated.
-/
import Cccl.Pool.UnsynchronizedOversized

namespace Cccl.Pool.UnsynchronizedPool

open Cmath Regions Chains

variable {O : PoolOptions} {chunks : List Chunk} {blocks cached : List Block}
  {desc : Block → OversizedBlock} {free : ℕ → List ℕ} {R : UnsynchronizedPool} {live : List Live}

/-! ## 1. Free lists -/

theorem FreeList.head_ne {heap : Heap} {i head : ℕ} {l : List ℕ} (h : FreeList O heap i head l)
    (hl : l ≠ []) : head ≠ 0 := by
  cases l with
  | nil => exact absurd rfl hl
  | cons p l =>
    have := bytesOf_pos (O := O) i
    have := h.1
    omega

theorem loadBlock_of_heap {m : Memory} {a next : ℕ} (ha : a ≠ 0)
    (h : m.heap a = some (.block next)) : m.loadBlock a = some next := by
  simp [Memory.loadBlock, Memory.load, ha, h]

theorem loadChunk_of_heap {m : Memory} {a size next : ℕ} (ha : a ≠ 0)
    (h : m.heap a = some (.chunk size next)) : m.loadChunk a = some (size, next) := by
  simp [Memory.loadChunk, Memory.load, ha, h]

theorem storeBlock_spec {m : Memory} (hplaced : Placed O chunks blocks m.world) {i p : ℕ}
    (hp : p ∈ blocksOf O i chunks) (next : ℕ) :
    ∃ m', m.store (p + bytesOf O i) (.block next) = some m' ∧ m'.world = m.world ∧
      m'.heap (p + bytesOf O i) = some (.block next) ∧
      Kept O chunks blocks {.slot i p} m.heap m'.heap :=
  store_spec hplaced (P := .slot i p) hp (Nat.le_add_right _ _) (Nat.add_assoc _ _ _).le

/-- **Blocks are pushed to a free list.** -/
theorem pushBlocks_spec {i : ℕ} {bases l : List ℕ} {m : Memory} {head : ℕ}
    (hplaced : Placed O chunks blocks m.world) (hbases : ∀ p ∈ bases, p ∈ blocksOf O i chunks)
    (hl : ∀ p ∈ l, p ∈ blocksOf O i chunks) (hnodup : (bases ++ l).Nodup)
    (h : FreeList O m.heap i head l) :
    ∃ head' m', pushBlocks (bases.map (· + bytesOf O i)) head m = some (head', m') ∧
      m'.world = m.world ∧
      Kept O chunks blocks {P | ∃ p ∈ bases, P = .slot i p} m.heap m'.heap ∧
      FreeList O m'.heap i head' (bases.reverse ++ l) := by
  induction bases generalizing l m head with
  | nil => exact ⟨head, m, rfl, rfl, Kept.refl _, h⟩
  | cons p bases ih =>
    obtain ⟨hp, hbases⟩ := List.forall_mem_cons.mp hbases
    obtain ⟨hnot, hnodup⟩ := List.nodup_cons.mp hnodup
    obtain ⟨m₁, hstore, hworld₁, hheap₁, hkept₁⟩ := storeBlock_spec hplaced hp head
    have hne : ∀ q ∈ l, Parcel.slot i q ∉ ({.slot i p} : Set Parcel) := by
      rintro q hq heq
      obtain ⟨-, rfl⟩ := Parcel.slot.inj heq
      exact hnot (List.mem_append_right _ hq)
    have hfree₁ : FreeList O m₁.heap i (p + bytesOf O i) (p :: l) :=
      ⟨rfl, head, hheap₁, h.kept hkept₁ fun q hq => ⟨hl q hq, hne q hq⟩⟩
    obtain ⟨head', m', hpush, hworld', hkept', hfree'⟩ := ih (hworld₁ ▸ hplaced) hbases
      (List.forall_mem_cons.mpr ⟨hp, hl⟩)
      (List.perm_middle.nodup_iff.mpr (List.nodup_cons.mpr ⟨hnot, hnodup⟩)) hfree₁
    refine ⟨head', m', ?_, hworld'.trans hworld₁, (hkept₁.trans hkept').mono ?_, ?_⟩
    · simp only [List.map_cons, pushBlocks, hstore, Option.bind_eq_bind, Option.bind_some]
      exact hpush
    · rintro P (rfl | ⟨q, hq, rfl⟩)
      · exact ⟨p, List.mem_cons_self, rfl⟩
      · exact ⟨q, List.mem_cons_of_mem _ hq, rfl⟩
    · rwa [List.reverse_cons, List.append_assoc]

/-! ## 2. Chunks -/

/-- **The options with which chunks can be cut into blocks**: each chunk has some block, and its size does not
wrap. -/
def Cuts (O : PoolOptions) : Prop :=
  ∀ k, O.smallestBlockSize ≤ 2 ^ k → 2 ^ k ≤ O.largestBlockSize → 0 < blocksInChunk O 0 k ∧
    (2 ^ k + max 8 O.alignment + O.alignment) * blocksInChunk O 0 k + 16 < 2 ^ 64

/-- The alignment divides the bytes of a block and the room for its descriptor. -/
theorem alignment_dvd (hvalid : O.Validated) (hne : O.alignment ≠ 0) {i : ℕ}
    (hsmallest : O.smallestBlockSize ≤ bytesOf O i) : O.alignment ∣ bytesOf O i + max 8 O.alignment := by
  have hpower := hvalid.alignment.resolve_left hne
  refine Nat.dvd_add (dvd_of_valid hpower ⟨_, rfl⟩ (hvalid.alignment_le.trans hsmallest)) ?_
  rcases le_total 8 O.alignment with hle | hle
  · rw [max_eq_right hle]
  · rw [max_eq_left hle]
    exact dvd_of_valid hpower ⟨3, rfl⟩ hle

theorem alignment_dvd_stride (hvalid : O.Validated) (hne : O.alignment ≠ 0) {i : ℕ}
    (hsmallest : O.smallestBlockSize ≤ bytesOf O i) : O.alignment ∣ stride O i :=
  Nat.dvd_add (alignment_dvd hvalid hne hsmallest) (Nat.dvd_refl _)

/-- The size of a block with its descriptor is rounded up by a whole alignment. -/
theorem blockSize_eq (hvalid : O.Validated) (hne : O.alignment ≠ 0) {i : ℕ}
    (hsmallest : O.smallestBlockSize ≤ bytesOf O i) (hword : stride O i < 2 ^ 64) :
    blockSize O (bytesOf O i) = stride O i := by
  have hmod := Nat.mod_eq_zero_of_dvd (alignment_dvd hvalid hne hsmallest)
  have hsize : (bytesOf O i + max 8 O.alignment) % 2 ^ 64 = bytesOf O i + max 8 O.alignment :=
    Nat.mod_eq_of_lt (Nat.lt_of_le_of_lt (Nat.le_add_right _ _) hword)
  simp only [blockSize]
  rw [hsize, hmod, Nat.sub_zero]
  exact Nat.mod_eq_of_lt hword

/-- The blocks of one size are apart from each other, with their descriptors. -/
theorem blocksOf_pairwise {w : World} (h : Placed O chunks blocks w) (i : ℕ) :
    (blocksOf O i chunks).Pairwise fun p q => Apart p (stride O i) q (stride O i) := by
  refine pieces_pairwise (stride_pos i) (fun c _ hidx => ?_) h.chunks_apart
  rw [Chunk.size, hidx, Nat.mul_comm]
  exact Nat.le_add_right _ _

theorem blocksOf_nodup {w : World} (h : Placed O chunks blocks w) (i : ℕ) :
    (blocksOf O i chunks).Nodup :=
  (blocksOf_pairwise h i).imp fun hpq => hpq.ne (stride_pos i) (stride_pos i)

/-- **A new chunk** is linked before the other ones, and its blocks before the free ones. -/
theorem allocateChunk_spec (u : Upstream) (hvalid : O.Validated) (hcuts : Cuts O) {m : Memory}
    {request : Request} {i : ℕ} (hi : InPool O request i) (h : Inv O R m live) :
    ∃ enough R' m', allocateChunk O u (ceilIlog2 (room O request)) i R m = some (enough, R', m') ∧
      Inv O R' m' live ∧
      (enough = true → ∃ bucket, R'.pools[i]? = some bucket ∧ bucket.freeList ≠ 0) := by
  obtain ⟨chunks, free, blocks, cached, desc, hplaced, hpooled, hover⟩ := h
  have hlt : i < R.pools.length := hpooled.length ▸ hi.lt
  obtain ⟨bucket, hbucket⟩ : ∃ bucket, R.pools[i]? = some bucket := ⟨_, List.getElem?_eq_getElem hlt⟩
  have hcount := hpooled.counts bucket (List.mem_of_getElem? hbucket)
  obtain ⟨hpos, hsize⟩ := hcuts (i + smallestBlockLog2 O) hi.smallest hi.largest
  rw [hi.log2]
  simp only [allocateChunk, hbucket, Option.bind_eq_bind, Option.bind_some, hcount]
  set n := blocksInChunk O 0 (i + smallestBlockLog2 O)
  have hbytes : 1 <<< (i + smallestBlockLog2 O) = bytesOf O i := Nat.one_shiftLeft _
  have hstride : blockSize O (bytesOf O i) = stride O i := by
    refine blockSize_eq hvalid hi.alignment_ne hi.smallest ?_
    have : stride O i * 1 ≤ stride O i * n := Nat.mul_le_mul_left _ hpos
    have : stride O i * n + 16 < 2 ^ 64 := hsize
    omega
  have hchunkSize : stride O i * n % 2 ^ 64 = stride O i * n :=
    Nat.mod_eq_of_lt (Nat.lt_of_le_of_lt (Nat.le_add_right _ 16) hsize)
  have hallocSize : (stride O i * n + 16) % 2 ^ 64 = stride O i * n + 16 := Nat.mod_eq_of_lt hsize
  rw [hbytes, hstride, hchunkSize, hallocSize]
  rcases memory_doAllocate_cases u (stride O i * n + 16) O.alignment m with
    ⟨m₁, hnone, hheap₁, hw⟩ | ⟨p, m₁, hsome, hheap₁, hw, hheld⟩
  · simp only [hnone]
    refine ⟨false, R, m₁, rfl, ⟨chunks, free, blocks, cached, desc, hplaced.calls hw, hheap₁ ▸ hpooled,
      hheap₁ ▸ hover⟩, fun h => absurd h (by simp)⟩
  simp only [hsome]
  obtain ⟨c, hc⟩ : ∃ c : Chunk, c = ⟨p, i, n⟩ := ⟨_, rfl⟩
  have hcsize : c.size O = stride O i * n := by rw [hc]; rfl
  have hcaddr : p + stride O i * n = c.addr O := by rw [Chunk.addr, hcsize, hc]
  have hplaced₁ : Placed O (c :: chunks) blocks m₁.world := by
    refine hplaced.pushChunk ?_ (hheld (Nat.succ_pos _) hplaced.held)
    rw [hw, hcsize, hc]
  have hnew : blocksOf O i (c :: chunks) = cut p (stride O i) n ++ blocksOf O i chunks := by
    rw [hc]
    exact pieces_cons_self rfl chunks
  have hother : ∀ j, j ≠ i → blocksOf O j (c :: chunks) = blocksOf O j chunks := by
    intro j hne
    rw [hc]
    exact pieces_cons_of_ne (Ne.symm hne) chunks
  -- the descriptor of the chunk
  obtain ⟨m₂, hstore, hworld₂, hheap₂, hkept₂⟩ := store_spec (a := c.addr O)
    (d := .chunk (c.size O) R.allocated) hplaced₁ (P := .chunk c) List.mem_cons_self le_rfl le_rfl
  rw [hheap₁] at hkept₂
  have hfreeMem : ∀ q ∈ free i, q ∈ blocksOf O i (c :: chunks) := fun q hq => by
    rw [hnew]
    exact List.mem_append_right _ (hpooled.mem_blocksOf hbucket hq)
  have hfree₂ : FreeList O m₂.heap i bucket.freeList (free i) :=
    (hpooled.freeList i bucket hbucket).kept hkept₂ fun q hq => ⟨hfreeMem q hq, by simp⟩
  -- its blocks
  have hnodup : (cut p (stride O i) n ++ free i).Nodup := by
    have hall := blocksOf_nodup hplaced₁ i
    rw [hnew] at hall
    have hperm := (hpooled.pooled i bucket hbucket).symm.append_left (cut p (stride O i) n)
    rw [← List.append_assoc] at hperm
    exact (hperm.nodup_iff.mp hall).sublist (List.sublist_append_left _ _)
  obtain ⟨head', m₃, hpush, hworld₃, hkept₃, hfree₃⟩ := pushBlocks_spec (hworld₂ ▸ hplaced₁)
    (fun q hq => by rw [hnew]; exact List.mem_append_left _ hq) hfreeMem hnodup hfree₂
  have hkept := hkept₂.trans hkept₃
  refine ⟨true, { R with
    allocated := c.addr O
    pools := R.pools.set i ⟨head', 0⟩ }, m₃, ?_,
    ⟨c :: chunks, Function.update free i ((cut p (stride O i) n).reverse ++ free i), blocks, cached, desc,
      hworld₃ ▸ hworld₂ ▸ hplaced₁, ?_, ?_⟩, fun _ => ⟨_, List.getElem?_set_self hlt, ?_⟩⟩
  · rw [hcaddr, ← hcsize, hstore, Option.bind_some, cut_add, hpush, Option.bind_some]
  · have hchunks : ∀ e ∈ chunks, e ∈ c :: chunks ∧
        Parcel.chunk e ∉ ({.chunk c} ∪ {P | ∃ q ∈ cut p (stride O i) n, P = .slot i q} : Set Parcel) := by
      intro e he
      refine ⟨List.mem_cons_of_mem _ he, ?_⟩
      have hapart := (List.pairwise_cons.mp hplaced₁.chunks_apart).1 e he
      rintro (heq | ⟨q, -, heq⟩)
      · obtain rfl := Parcel.chunk.inj heq
        exact hapart.ne (by omega) (by omega) rfl
      · exact absurd heq (by simp)
    exact {
      length := (List.length_set).trans hpooled.length
      counts := fun b hb => by
        rcases List.mem_or_eq_of_mem_set hb with hb | rfl
        · exact hpooled.counts b hb
        · rfl
      sizes := List.forall_mem_cons.mpr ⟨hcsize ▸ ⟨Nat.mul_pos (stride_pos i) hpos, hsize⟩, hpooled.sizes⟩
      chunkList := ⟨rfl, R.allocated, hkept₃ (.chunk c) List.mem_cons_self (by simp) _ _ hheap₂ le_rfl
        le_rfl, hpooled.chunkList.kept hkept hchunks⟩
      freeList := by
        have hfree : ∀ j b, R.pools[j]? = some b → FreeList O m.heap j b.freeList (free j) ∧
            ∀ q ∈ free j, q ∈ blocksOf O j chunks := fun j b hj =>
          ⟨hpooled.freeList j b hj, fun q hq => hpooled.mem_blocksOf hj hq⟩
        refine forall_set hfree (fun j b hne hj => ?_) ?_
        · rw [Function.update_of_ne hne]
          refine hj.1.kept hkept fun q hq => ⟨by rw [hother j hne]; exact hj.2 q hq, ?_⟩
          rintro (heq | ⟨r, -, heq⟩)
          · exact absurd heq (by simp)
          · exact hne (Parcel.slot.inj heq).1
        · rw [Function.update_self]
          exact hfree₃
      pooled := by
        refine forall_set hpooled.pooled (fun j b hne hj => ?_) ?_
        · rw [Function.update_of_ne hne, hother j hne]
          exact hj
        · rw [Function.update_self, hnew, List.append_assoc]
          exact (List.reverse_perm _).append (hpooled.pooled i bucket hbucket) }
  · refine hover.kept hkept (fun o => ?_) rfl rfl
    rintro (heq | ⟨r, -, heq⟩)
    · exact absurd heq (by simp [Block.parcel])
    · exact absurd heq (by simp [Block.parcel])
  · refine hfree₃.head_ne (List.append_ne_nil_of_left_ne_nil ?_ _)
    refine List.ne_nil_of_length_pos ?_
    rw [List.length_reverse, length_cut]
    exact hpos

/-! ## 3. Allocation and deallocation -/

theorem liveIn_cons_none {request : Request} {i : ℕ} (hi : poolOf O request = some i) (p : ℕ) :
    liveIn O none (⟨p, request⟩ :: live) = liveIn O none live :=
  liveIn_cons_of_ne (by simp [hi]) live

theorem liveIn_cons_other {request : Request} {i j : ℕ} (hi : poolOf O request = some i) (hne : j ≠ i)
    (p : ℕ) : liveIn O (some j) (⟨p, request⟩ :: live) = liveIn O (some j) live :=
  liveIn_cons_of_ne (by simp [hi, hne.symm]) live

/-- **The user gets the front of a free list.** -/
theorem takeBlock_spec {m : Memory} {request : Request} {i : ℕ} {bucket : LinkedBucket}
    (hi : poolOf O request = some i) (hlog2 : ceilIlog2 (room O request) = i + smallestBlockLog2 O)
    (hbucket : R.pools[i]? = some bucket) (hne : bucket.freeList ≠ 0) (h : Inv O R m live) :
    ∃ p R', takeBlock (ceilIlog2 (room O request)) i R m = some (p, R') ∧
      Inv O R' m (⟨p, request⟩ :: live) := by
  obtain ⟨chunks, free, blocks, cached, desc, hplaced, hpooled, hover⟩ := h
  have hfree := hpooled.freeList i bucket hbucket
  have hperm := hpooled.pooled i bucket hbucket
  cases hl : free i with
  | nil =>
    rw [hl] at hfree
    exact absurd hfree hne
  | cons p rest =>
    rw [hl] at hfree hperm
    obtain ⟨hhead, next, hheap, hrest⟩ := hfree
    have hp : bucket.freeList - 1 <<< ceilIlog2 (room O request) = p := by
      rw [hhead, hlog2, Nat.one_shiftLeft]
      exact Nat.add_sub_cancel p _
    refine ⟨p, { R with pools := R.pools.set i { bucket with freeList := next } }, ?_,
      chunks, Function.update free i rest, blocks, cached, desc, hplaced, ?_, ?_⟩
    · simp only [takeBlock, hbucket, loadBlock_of_heap hne hheap, hp, Option.bind_eq_bind,
        Option.bind_some]
    · exact { hpooled with
        length := (List.length_set).trans hpooled.length
        counts := fun b hb => by
          rcases List.mem_or_eq_of_mem_set hb with hb | rfl
          · exact hpooled.counts b hb
          · exact hpooled.counts bucket (List.mem_of_getElem? hbucket)
        freeList := forall_set hpooled.freeList
          (fun j b hne hj => by rw [Function.update_of_ne hne]; exact hj)
          (by rw [Function.update_self]; exact hrest)
        pooled := by
          refine forall_set hpooled.pooled (fun j b hne hj => ?_) ?_
          · rw [Function.update_of_ne hne, liveIn_cons_other hi hne]
            exact hj
          · rw [Function.update_self, liveIn_cons_self hi]
            exact List.perm_middle.trans hperm }
    · exact { hover.live (liveIn_cons_none hi p) with }

/-- **An allocation from a pool** has a result. -/
theorem allocatePooled_spec (u : Upstream) (hvalid : O.Validated) (hcuts : Cuts O) {m : Memory}
    {request : Request} {i : ℕ} (hi : poolOf O request = some i) (h : Inv O R m live) :
    ∃ answer R' m', allocatePooled O u (room O request) R m = some (answer, R', m') ∧
      Inv O R' m' (received request answer live) := by
  have hin := inPool_of_poolOf hvalid hi
  have hidx : ceilIlog2 (room O request) - smallestBlockLog2 O = i := by
    have := hin.log2
    omega
  obtain ⟨bucket, hbucket⟩ : ∃ bucket, R.pools[i]? = some bucket := by
    obtain ⟨chunks, free, blocks, cached, desc, -, hpooled, -⟩ := h
    exact ⟨_, List.getElem?_eq_getElem (hpooled.length ▸ hin.lt)⟩
  simp only [allocatePooled, hidx, hbucket, Option.bind_eq_bind, Option.bind_some]
  split
  · obtain ⟨enough, R', m', hchunk, hinv, henough⟩ := allocateChunk_spec u hvalid hcuts hin h
    rw [hchunk, Option.bind_some]
    cases enough with
    | false => exact ⟨none, R', m', rfl, hinv⟩
    | true =>
      obtain ⟨bucket', hbucket', hne⟩ := henough rfl
      obtain ⟨p, R'', htake, hinv'⟩ := takeBlock_spec hi hin.log2 hbucket' hne hinv
      refine ⟨some p, R'', m', ?_, hinv'⟩
      simp [htake]
  · rename_i hne
    obtain ⟨p, R', htake, hinv⟩ := takeBlock_spec hi hin.log2 hbucket hne h
    refine ⟨some p, R', m, ?_, hinv⟩
    simp [htake]

/-- **A block of a pool is given back.** -/
theorem deallocatePooled_spec (hvalid : O.Validated) {m : Memory} {b : Live} {i : ℕ}
    (hi : poolOf O b.request = some i) (h : Inv O R m (b :: live)) :
    ∃ bucket m', R.pools[i]? = some bucket ∧
      m.store (b.pointer + bytesOf O i) (.block bucket.freeList) = some m' ∧
      Inv O { R with pools := R.pools.set i { bucket with freeList := b.pointer + bytesOf O i } } m'
        live := by
  obtain ⟨chunks, free, blocks, cached, desc, hplaced, hpooled, hover⟩ := h
  have hin := inPool_of_poolOf hvalid hi
  obtain ⟨bucket, hbucket⟩ : ∃ bucket, R.pools[i]? = some bucket :=
    ⟨_, List.getElem?_eq_getElem (hpooled.length ▸ hin.lt)⟩
  have hperm := hpooled.pooled i bucket hbucket
  rw [liveIn_cons_self hi, List.map_cons] at hperm
  have hb : b.pointer ∈ blocksOf O i chunks := hperm.mem_iff.mp (by simp)
  have hnot : b.pointer ∉ free i := by
    have hnodup := hperm.nodup_iff.mpr (blocksOf_nodup hplaced i)
    exact fun hmem => (List.nodup_append.mp hnodup).2.2 _ hmem _ List.mem_cons_self rfl
  obtain ⟨m', hstore, hworld, hheap, hkept⟩ := storeBlock_spec hplaced hb bucket.freeList
  refine ⟨bucket, m', hbucket, hstore, chunks, Function.update free i (b.pointer :: free i), blocks,
    cached, desc, hworld ▸ hplaced, ?_, ?_⟩
  · exact {
      length := (List.length_set).trans hpooled.length
      counts := fun c hc => by
        rcases List.mem_or_eq_of_mem_set hc with hc | rfl
        · exact hpooled.counts c hc
        · exact hpooled.counts bucket (List.mem_of_getElem? hbucket)
      sizes := hpooled.sizes
      chunkList := hpooled.chunkList.kept hkept fun c hc => ⟨hc, by simp⟩
      freeList := by
        have hfree : ∀ j c, R.pools[j]? = some c → FreeList O m.heap j c.freeList (free j) ∧
            ∀ q ∈ free j, q ∈ blocksOf O j chunks := fun j c hj =>
          ⟨hpooled.freeList j c hj, fun q hq => hpooled.mem_blocksOf hj hq⟩
        refine forall_set hfree (fun j c hne hj => ?_) ?_
        · rw [Function.update_of_ne hne]
          refine hj.1.kept hkept fun q hq => ⟨hj.2 q hq, fun heq => hne ?_⟩
          exact (Parcel.slot.inj heq).1
        · rw [Function.update_self]
          refine ⟨rfl, bucket.freeList, hheap, ?_⟩
          refine (hpooled.freeList i bucket hbucket).kept hkept fun q hq =>
            ⟨hpooled.mem_blocksOf hbucket hq, fun heq => hnot ?_⟩
          exact (Parcel.slot.inj heq).2 ▸ hq
      pooled := by
        refine forall_set hpooled.pooled (fun j c hne hj => ?_) ?_
        · rw [Function.update_of_ne hne]
          rwa [liveIn_cons_of_ne (by simp [hi, hne.symm])] at hj
        · rw [Function.update_self]
          exact List.perm_middle.symm.trans hperm }
  · refine (hover.live ?_).kept hkept (fun o => by simp [Block.parcel]) rfl rfl
    exact (liveIn_cons_of_ne (by simp [hi]) live).symm

/-! ## 4. `release` -/

theorem kept_clear_chunk {w : World} {c : Chunk} (h : Placed O (c :: chunks) blocks w) (heap : Heap) :
    Kept O chunks blocks ∅ heap (heap.clear c.base (c.size O + 16)) := by
  intro Q hQ _ x d hx hQle hQend
  have hapart : Apart (Q.pointer O) (Q.bytes O) c.base (c.size O + 16) := by
    rcases hQ.cases with ⟨e, he, hQe⟩ | ⟨o, ho, rfl⟩
    · have hce := (List.pairwise_cons.mp h.chunks_apart).1 e he
      exact hce.symm.within hQe.within.1 hQe.within.2 le_rfl le_rfl
    · exact (h.chunk_apart_block List.mem_cons_self ho).symm
  rw [Heap.clear, hx, Option.filter_some, if_pos]
  simpa using hapart.within hQle hQend le_rfl le_rfl

/-- **All chunks are given back**, and what is not of a chunk is kept. -/
theorem releaseChunks_spec (hgood : ∀ o ∈ blocks, o.Good) {fuel head : ℕ} (hfuel : chunks.length < fuel)
    {m : Memory} (hplaced : Placed O chunks blocks m.world) (hheap : InHeap m.heap desc blocks)
    (hsizes : ∀ c ∈ chunks, 0 < c.size O ∧ c.size O + 16 < 2 ^ 64)
    (h : ChunkList O m.heap head chunks) :
    ∃ m', releaseChunks O fuel head m = some m' ∧ Placed O [] blocks m'.world ∧
      InHeap m'.heap desc blocks := by
  induction chunks generalizing fuel head m with
  | nil =>
    obtain ⟨fuel, rfl⟩ : ∃ k, fuel = k + 1 := ⟨fuel - 1, by omega⟩
    exact ⟨m, if_pos h, hplaced, hheap⟩
  | cons c chunks ih =>
    obtain ⟨fuel, rfl⟩ : ∃ k, fuel = k + 1 := ⟨fuel - 1, by omega⟩
    obtain ⟨rfl, next, hnext, hrest⟩ := h
    obtain ⟨⟨hpos, hword⟩, hsizes⟩ := List.forall_mem_cons.mp hsizes
    have hne : c.addr O ≠ 0 := by
      unfold Chunk.addr
      omega
    have hbase : c.addr O - c.size O = c.base := Nat.add_sub_cancel _ _
    obtain ⟨w', hback, hw, hsub⟩ := doDeallocate_of_perm
      (show m.world.outstanding.Perm (⟨c.base, c.size O + 16, O.alignment⟩ :: owned O chunks blocks)
        from hplaced.outstanding)
    have hkept := kept_clear_chunk hplaced m.heap
    obtain ⟨m', hrelease, hplaced', hheap'⟩ := ih (m := ⟨w', m.heap.clear c.base (c.size O + 16)⟩)
      (by simpa using hfuel) ⟨hw, hplaced.held.sublist hsub⟩
      (hheap.kept hkept hgood fun o ho => ⟨ho, Set.notMem_empty _⟩) hsizes
      (hrest.kept hkept fun e he => ⟨he, Set.notMem_empty _⟩)
    refine ⟨m', ?_, hplaced', hheap'⟩
    rw [releaseChunks, if_neg hne]
    simp only [loadChunk_of_heap hne hnext, hbase, Nat.mod_eq_of_lt hword, Memory.doDeallocate,
      Option.bind_eq_bind, Option.bind_some]
    rw [show m.world.doDeallocate c.base (c.size O + 16) O.alignment = some w' from hback]
    exact hrelease

/-- **All oversized blocks are given back.** -/
theorem releaseOversized_spec (hgood : ∀ o ∈ blocks, o.Good) (hisDesc : ∀ o ∈ blocks, Matches (desc o) o)
    (hchain : Chain Block.addr (fun o => (desc o).next) blocks 0) {fuel : ℕ} (hfuel : blocks.length < fuel)
    {m : Memory} (hplaced : Placed O [] blocks m.world) (hheap : InHeap m.heap desc blocks) :
    ∃ m', releaseOversized fuel (first Block.addr blocks 0) m = some m' ∧ m'.world.outstanding = [] := by
  induction blocks generalizing fuel m with
  | nil =>
    obtain ⟨fuel, rfl⟩ : ∃ k, fuel = k + 1 := ⟨fuel - 1, by omega⟩
    exact ⟨m, rfl, hplaced.outstanding.eq_nil⟩
  | cons o blocks ih =>
    obtain ⟨fuel, rfl⟩ : ∃ k, fuel = k + 1 := ⟨fuel - 1, by omega⟩
    obtain ⟨ho, hgood⟩ := List.forall_mem_cons.mp hgood
    obtain ⟨hd, hisDesc⟩ := List.forall_mem_cons.mp hisDesc
    obtain ⟨hnext, hchain⟩ := hchain
    have hbase : o.addr - (desc o).currentSize = o.base := by
      rw [hd.currentSize]
      exact Nat.add_sub_cancel _ _
    have hsize : ((desc o).size + 48) % 2 ^ 64 = o.size + 48 := by
      rw [hd.size, Nat.mod_eq_of_lt ho.word]
    obtain ⟨w', hback, hw, hsub⟩ := doDeallocate_of_perm
      (show m.world.outstanding.Perm (⟨o.base, o.size + 48, o.alignment⟩ :: owned O [] blocks)
        from hplaced.outstanding)
    have hplaced' : Placed O [] blocks w' := ⟨hw, hplaced.held.sublist hsub⟩
    have hkept := kept_clear hplaced (P := o.parcel) ⟨o, List.mem_cons_self, rfl, rfl⟩ le_rfl le_rfl m.heap
    have hnot := (List.nodup_cons.mp hplaced.blocks_nodup).1
    have hheap' : InHeap (m.heap.clear o.base (o.size + 48)) desc blocks := by
      intro x hx
      have hmem := List.mem_cons_of_mem o hx
      have hwithin := (hgood x hx).within O
      exact hkept x.parcel ⟨x, hmem, rfl, rfl⟩
        (parcel_ne hplaced hmem List.mem_cons_self (ne_of_mem_of_not_mem hx hnot)) _ _ (hheap x hmem)
        hwithin.1 hwithin.2
    obtain ⟨m', hrelease, hempty⟩ := ih hgood hisDesc hchain (by simpa using hfuel)
      (m := ⟨w', m.heap.clear o.base (o.size + 48)⟩) hplaced' hheap'
    refine ⟨m', ?_, hempty⟩
    have hload := loadOversized_of_heap ho.addr_ne (hheap o List.mem_cons_self)
    rw [first_cons, releaseOversized, if_neg ho.addr_ne]
    simp only [hload, hbase, hsize, hd.alignment, Memory.doDeallocate, Option.bind_eq_bind,
      Option.bind_some]
    rw [show m.world.doDeallocate o.base (o.size + 48) o.alignment = some w' from hback]
    simp only [Option.bind_some]
    rw [show (desc o).next = first Block.addr blocks 0 from hnext]
    exact hrelease

/-- **`release` has a result**, after which nothing is allocated. -/
theorem release_spec {m : Memory} (h : Inv O R m live) :
    ∃ R' m', release O R m = some (R', m') ∧ Inv O R' m' [] ∧ m'.world.outstanding = [] := by
  obtain ⟨chunks, free, blocks, cached, desc, hplaced, hpooled, hover⟩ := h
  have hlength : m.world.outstanding.length = chunks.length + blocks.length := by
    rw [hplaced.outstanding.length_eq, owned, List.length_append, List.length_map, List.length_map]
  obtain ⟨m₁, hchunks, hplaced₁, hheap₁⟩ := releaseChunks_spec hover.good
    (show chunks.length < m.world.outstanding.length + 1 by omega) hplaced hover.inHeap hpooled.sizes
    hpooled.chunkList
  have hlength₁ : m₁.world.outstanding.length = blocks.length := by
    rw [hplaced₁.outstanding.length_eq, owned, List.length_append, List.length_map, List.length_map]
    exact Nat.zero_add _
  obtain ⟨m', hoversized, hempty⟩ := releaseOversized_spec hover.good hover.isDesc hover.linked.next
    (show blocks.length < m₁.world.outstanding.length + 1 by omega) hplaced₁ hheap₁
  have hbuckets : ∀ (i : ℕ) (bucket : LinkedBucket),
      (R.pools.map fun _ => (⟨0, 0⟩ : LinkedBucket))[i]? = some bucket → bucket = ⟨0, 0⟩ := by
    intro i bucket hi
    rw [List.getElem?_map] at hi
    obtain ⟨_, -, rfl⟩ := Option.map_eq_some_iff.mp hi
    rfl
  refine ⟨⟨R.pools.map fun _ => ⟨0, 0⟩, 0, 0, 0⟩, m', ?_, ⟨[], fun _ => [], [], [], desc, ?_, ?_, ?_⟩, hempty⟩
  · rw [← hover.head] at hoversized
    simp only [release, hchunks, hoversized, Option.bind_eq_bind, Option.bind_some]
  · exact ⟨hempty ▸ List.Perm.refl _, hempty ▸ Held.nil⟩
  · exact {
      length := (List.length_map _).trans hpooled.length
      counts := fun b hb => by
        obtain ⟨_, -, rfl⟩ := List.mem_map.mp hb
        rfl
      sizes := fun c hc => absurd hc List.not_mem_nil
      chunkList := rfl
      freeList := fun i bucket hi => by rw [hbuckets i bucket hi]; rfl
      pooled := fun i bucket hi => List.Perm.refl _ }
  · exact {
      good := fun o ho => absurd ho List.not_mem_nil
      inHeap := fun o ho => absurd ho List.not_mem_nil
      isDesc := fun o ho => absurd ho List.not_mem_nil
      head := rfl
      linked := ⟨trivial, trivial⟩
      cachedHead := rfl
      cachedChain := trivial
      full := fun o ho => absurd ho List.not_mem_nil
      served := Served.nil }

end Cccl.Pool.UnsynchronizedPool
