/-
# What the pool resource keeps

The invariant of `unsynchronized_pool_resource`: the chunks and the free blocks of each pool are the linked
lists that are in memory (`Pooled`), and so are the oversized blocks, linked both ways, and the cached ones
among them (`Oversized`).  What is not free or cached is in the hands of the user.

The lists of the pools depend on the descriptors in chunks only, and those of the oversized blocks on the
descriptors in these, so that each part of the invariant is kept by what is written for the other one.  The
neighbours of a block in the list of all oversized blocks are given new links in one step (`relink_spec`).
-/
import Cccl.Pool.Parcels

namespace Cccl.Pool.UnsynchronizedPool

open Cmath Regions Chains

variable (O : PoolOptions)

/-! ## 1. The lists of the pools -/

/-- The chunks are linked from an address on. -/
def ChunkList (heap : Heap) : ℕ → List Chunk → Prop
  | head, [] => head = 0
  | head, c :: rest => head = c.addr O ∧
    ∃ next, heap head = some (.chunk (c.size O) next) ∧ ChunkList heap next rest

/-- The free blocks of a pool are linked from an address on. -/
def FreeList (heap : Heap) (i : ℕ) : ℕ → List ℕ → Prop
  | head, [] => head = 0
  | head, p :: rest => head = p + bytesOf O i ∧
    ∃ next, heap head = some (.block next) ∧ FreeList heap i next rest

/-- **What is kept of the pools.** -/
structure Pooled (chunks : List Chunk) (free : ℕ → List ℕ) (R : UnsynchronizedPool) (heap : Heap)
    (live : List Live) : Prop where
  length : R.pools.length = ceilIlog2 O.largestBlockSize - smallestBlockLog2 O + 1
  counts : ∀ bucket ∈ R.pools, bucket.previousAllocatedCount = 0
  sizes : ∀ c ∈ chunks, 0 < c.size O ∧ c.size O + 16 < 2 ^ 64
  chunkList : ChunkList O heap R.allocated chunks
  freeList : ∀ i bucket, R.pools[i]? = some bucket → FreeList O heap i bucket.freeList (free i)
  pooled : ∀ i bucket, R.pools[i]? = some bucket →
    (free i ++ (liveIn O (some i) live).map Live.pointer).Perm (blocksOf O i chunks)

variable {O} {chunks : List Chunk} {blocks : List Block} {S : Set Parcel} {heap heap' : Heap}

theorem ChunkList.kept {head : ℕ} {l : List Chunk} (h : ChunkList O heap head l)
    (hkept : Kept O chunks blocks S heap heap') (hl : ∀ c ∈ l, c ∈ chunks ∧ Parcel.chunk c ∉ S) :
    ChunkList O heap' head l := by
  induction l generalizing head with
  | nil => exact h
  | cons c rest ih =>
    obtain ⟨rfl, next, hnext, hrest⟩ := h
    obtain ⟨⟨hc, hS⟩, hl⟩ := List.forall_mem_cons.mp hl
    exact ⟨rfl, next, hkept (.chunk c) hc hS _ _ hnext le_rfl le_rfl, ih hrest hl⟩

theorem FreeList.kept {i head : ℕ} {l : List ℕ} (h : FreeList O heap i head l)
    (hkept : Kept O chunks blocks S heap heap')
    (hl : ∀ p ∈ l, p ∈ blocksOf O i chunks ∧ Parcel.slot i p ∉ S) : FreeList O heap' i head l := by
  induction l generalizing head with
  | nil => exact h
  | cons p rest ih =>
    obtain ⟨rfl, next, hnext, hrest⟩ := h
    obtain ⟨⟨hp, hS⟩, hl⟩ := List.forall_mem_cons.mp hl
    refine ⟨rfl, next, hkept (.slot i p) hp hS _ _ hnext (Nat.le_add_right _ _) ?_, ih hrest hl⟩
    exact (Nat.add_assoc _ _ _).le

theorem Pooled.mem_blocksOf {free : ℕ → List ℕ} {R : UnsynchronizedPool} {live : List Live}
    (h : Pooled O chunks free R heap live) {i : ℕ} {bucket : LinkedBucket}
    (hbucket : R.pools[i]? = some bucket) {p : ℕ} (hp : p ∈ free i) : p ∈ blocksOf O i chunks :=
  (h.pooled i bucket hbucket).mem_iff.mp (List.mem_append_left _ hp)

theorem Pooled.kept {free : ℕ → List ℕ} {R R' : UnsynchronizedPool} {live : List Live}
    (h : Pooled O chunks free R heap live) (hkept : Kept O chunks blocks S heap heap')
    (hS : ∀ P ∈ S, ∃ base size, P = .block base size) (hpools : R'.pools = R.pools)
    (hallocated : R'.allocated = R.allocated) : Pooled O chunks free R' heap' live where
  length := hpools ▸ h.length
  counts := hpools ▸ h.counts
  sizes := h.sizes
  chunkList := by
    rw [hallocated]
    refine h.chunkList.kept hkept fun c hc => ⟨hc, fun hcS => ?_⟩
    obtain ⟨_, _, heq⟩ := hS _ hcS
    exact absurd heq (by simp)
  freeList i bucket hbucket := by
    rw [hpools] at hbucket
    refine (h.freeList i bucket hbucket).kept hkept fun p hp => ⟨h.mem_blocksOf hbucket hp, fun hpS => ?_⟩
    obtain ⟨_, _, heq⟩ := hS _ hpS
    exact absurd heq (by simp)
  pooled i bucket hbucket := h.pooled i bucket (hpools ▸ hbucket)

/-- What the user has of the oversized blocks does not matter to the pools. -/
theorem Pooled.live {free : ℕ → List ℕ} {R : UnsynchronizedPool} {live live' : List Live}
    (h : Pooled O chunks free R heap live)
    (hlive : ∀ i, liveIn O (some i) live' = liveIn O (some i) live) :
    Pooled O chunks free R heap live' :=
  { h with pooled := fun i bucket hbucket => by rw [hlive]; exact h.pooled i bucket hbucket }

/-! ## 2. The lists of the oversized blocks -/

/-- The descriptor says what the block is. -/
structure Matches (desc : OversizedBlock) (o : Block) : Prop where
  size : desc.size = o.size
  alignment : desc.alignment = o.alignment
  currentSize : desc.currentSize = o.current

/-- What holds of each oversized block. -/
structure Block.Good (o : Block) : Prop where
  pos : 0 < o.current
  le : o.current ≤ o.size
  word : o.size + 48 < 2 ^ 64
  valid : isValidAlignment o.alignment = true

/-- The oversized block is what the user has. -/
structure Serves (O : PoolOptions) (o : Block) (b : Live) : Prop where
  base : o.base = b.pointer
  current : o.current = room O b.request
  alignment : o.alignment = b.request.alignment

/-- The descriptors of some blocks are in memory. -/
def InHeap (heap : Heap) (desc : Block → OversizedBlock) (l : List Block) : Prop :=
  ∀ o ∈ l, heap o.addr = some (.oversized (desc o))

/-- The list of all oversized blocks is linked both ways. -/
structure Linked (desc : Block → OversizedBlock) (l : List Block) : Prop where
  next : Chain Block.addr (fun o => (desc o).next) l 0
  prev : Chain Block.addr (fun o => (desc o).prev) l.reverse 0

/-- **What is kept of the oversized blocks.** -/
structure Oversized (O : PoolOptions) (blocks cached : List Block) (desc : Block → OversizedBlock)
    (R : UnsynchronizedPool) (heap : Heap) (live : List Live) : Prop where
  good : ∀ o ∈ blocks, o.Good
  inHeap : InHeap heap desc blocks
  isDesc : ∀ o ∈ blocks, Matches (desc o) o
  head : R.oversized = first Block.addr blocks 0
  linked : Linked desc blocks
  cachedHead : R.cachedOversized = first Block.addr cached 0
  cachedChain : Chain Block.addr (fun o => (desc o).nextCached) cached 0
  full : ∀ o ∈ cached, o.current = o.size
  served : Served O (Serves O) blocks cached live

/-- **The invariant of the resource**, of its memory and of what the user has. -/
def Inv (O : PoolOptions) (R : UnsynchronizedPool) (m : Memory) (live : List Live) : Prop :=
  ∃ chunks free blocks cached desc, Placed O chunks blocks m.world ∧
    Pooled O chunks free R m.heap live ∧ Oversized O blocks cached desc R m.heap live

theorem Inv.perm {R : UnsynchronizedPool} {m : Memory} {live live' : List Live} (h : Inv O R m live)
    (hperm : live.Perm live') : Inv O R m live' := by
  obtain ⟨chunks, free, blocks, cached, desc, hplaced, hpooled, hover⟩ := h
  refine ⟨chunks, free, blocks, cached, desc, hplaced, { hpooled with pooled := fun i bucket hi => ?_ },
    { hover with served := hover.served.perm_live hperm }⟩
  refine List.Perm.trans ?_ (hpooled.pooled i bucket hi)
  exact List.Perm.append_left _ ((hperm.symm.filter _).map _)

theorem Block.Good.addr_ne {o : Block} (h : o.Good) : o.addr ≠ 0 := by
  have := h.pos
  unfold Block.addr
  omega

theorem Block.Good.within {o : Block} (h : o.Good) (O : PoolOptions) :
    o.parcel.pointer O ≤ o.addr ∧ o.addr + 48 ≤ o.parcel.pointer O + o.parcel.bytes O := by
  have := h.le
  simp only [Block.parcel, Parcel.pointer, Parcel.bytes, Block.addr]
  omega

theorem InHeap.kept {desc : Block → OversizedBlock} {l : List Block} (h : InHeap heap desc l)
    (hkept : Kept O chunks blocks S heap heap') (hgood : ∀ o ∈ l, o.Good)
    (hl : ∀ o ∈ l, o ∈ blocks ∧ o.parcel ∉ S) : InHeap heap' desc l := by
  intro o ho
  obtain ⟨hmem, hS⟩ := hl o ho
  have hwithin := (hgood o ho).within O
  exact hkept o.parcel ⟨o, hmem, rfl, rfl⟩ hS _ _ (h o ho) hwithin.1 hwithin.2

/-- Writes to chunks keep what is kept of the oversized blocks. -/
theorem Oversized.kept {cached : List Block} {desc : Block → OversizedBlock}
    {R R' : UnsynchronizedPool} {live : List Live} (h : Oversized O blocks cached desc R heap live)
    (hkept : Kept O chunks blocks S heap heap') (hS : ∀ o : Block, o.parcel ∉ S)
    (hoversized : R'.oversized = R.oversized) (hcached : R'.cachedOversized = R.cachedOversized) :
    Oversized O blocks cached desc R' heap' live :=
  { h with
    inHeap := h.inHeap.kept hkept h.good fun o ho => ⟨ho, hS o⟩
    head := hoversized.trans h.head
    cachedHead := hcached.trans h.cachedHead }

/-- What the user has from the pools does not matter to the oversized blocks. -/
theorem Oversized.live {cached : List Block} {desc : Block → OversizedBlock} {R : UnsynchronizedPool}
    {live live' : List Live} (h : Oversized O blocks cached desc R heap live)
    (hlive : liveIn O none live' = liveIn O none live) :
    Oversized O blocks cached desc R heap live' :=
  { h with served := by unfold Served; rw [hlive]; exact h.served }

theorem loadOversized_of_heap {m : Memory} {a : ℕ} {d : OversizedBlock} (ha : a ≠ 0)
    (h : m.heap a = some (.oversized d)) : m.loadOversized a = some d := by
  simp [Memory.loadOversized, Memory.load, ha, h]

theorem update_spec {m : Memory} (hplaced : Placed O chunks blocks m.world) {o : Block}
    (ho : o ∈ blocks) (hgood : o.Good) {d : OversizedBlock}
    (hheap : m.heap o.addr = some (.oversized d)) (f : OversizedBlock → OversizedBlock) :
    ∃ m', m.update o.addr f = some m' ∧ m'.world = m.world ∧
      m'.heap o.addr = some (.oversized (f d)) ∧ Kept O chunks blocks {o.parcel} m.heap m'.heap := by
  have hwithin := hgood.within O
  have hP : HasParcel O chunks blocks o.parcel := ⟨o, ho, rfl, rfl⟩
  obtain ⟨m', hstore, hrest⟩ :=
    store_spec (d := .oversized (f d)) hplaced hP hwithin.1 hwithin.2
  refine ⟨m', ?_, hrest⟩
  simp only [Memory.update, loadOversized_of_heap hgood.addr_ne hheap, Option.bind_eq_bind,
    Option.bind_some]
  exact hstore

theorem parcel_ne {w : World} (hplaced : Placed O chunks blocks w) {o q : Block} (ho : o ∈ blocks)
    (hq : q ∈ blocks) (hne : o ≠ q) : o.parcel ≠ q.parcel := by
  intro heq
  have hapart := apart_of_pairwise hplaced.blocks_apart ho hq hne
  exact hapart.ne (by omega) (by omega) (Parcel.block.inj heq).1

theorem InHeap.update {m : Memory} (hplaced : Placed O chunks blocks m.world)
    (hgood : ∀ o ∈ blocks, o.Good) {desc : Block → OversizedBlock} (h : InHeap m.heap desc blocks)
    {x : Block} (hx : x ∈ blocks) (f : OversizedBlock → OversizedBlock) (desc' : Block → OversizedBlock)
    (hself : desc' x = f (desc x)) (hother : ∀ y, y ≠ x → desc' y = desc y) :
    ∃ m', m.update x.addr f = some m' ∧ m'.world = m.world ∧
      InHeap m'.heap desc' blocks ∧ Kept O chunks blocks {x.parcel} m.heap m'.heap := by
  obtain ⟨m', hupdate, hworld, hheap, hkept⟩ := update_spec hplaced hx (hgood x hx) (h x hx) f
  refine ⟨m', hupdate, hworld, fun o ho => ?_, hkept⟩
  rcases eq_or_ne o x with rfl | hne
  · rw [hheap, hself]
  · have hwithin := (hgood o ho).within O
    rw [hother o hne]
    exact hkept o.parcel ⟨o, ho, rfl, rfl⟩ (parcel_ne hplaced ho hx hne) _ _ (h o ho) hwithin.1
      hwithin.2

/-- What `relink` makes of the descriptors of the blocks before and after one. -/
def relinked (l₁ l₂ : List Block) (next prev : ℕ) (desc : Block → OversizedBlock) (x : Block) :
    OversizedBlock :=
  { desc x with
    next := if l₁.getLast? = some x then next else (desc x).next
    prev := if l₂.head? = some x then prev else (desc x).prev }

theorem relinkPrev_spec {m : Memory} {R : UnsynchronizedPool} {l₁ l₂ : List Block}
    {desc : Block → OversizedBlock} {d : OversizedBlock}
    (hplaced : Placed O chunks (l₁ ++ l₂) m.world) (hgood : ∀ x ∈ l₁ ++ l₂, x.Good)
    (hheap : InHeap m.heap desc (l₁ ++ l₂)) (hprev : d.prev = first Block.addr l₁.reverse 0)
    (hhead : R.oversized = first Block.addr (l₁ ++ l₂) 0) (next : ℕ) :
    ∃ m', relinkPrev d next R m = some ({ R with oversized := first Block.addr l₁ next }, m') ∧
      m'.world = m.world ∧
      Kept O chunks (l₁ ++ l₂) {P | ∃ x ∈ l₁, P = x.parcel} m.heap m'.heap ∧
      InHeap m'.heap (fun x => { desc x with
        next := if l₁.getLast? = some x then next else (desc x).next }) (l₁ ++ l₂) := by
  rcases List.eq_nil_or_concat' l₁ with rfl | ⟨l, q, rfl⟩
  · exact ⟨m, if_neg (not_not.mpr hprev), rfl, Kept.refl _, hheap⟩
  · have hq : q ∈ l ++ [q] ++ l₂ := by simp
    have hqprev : d.prev = q.addr := by rw [hprev, List.reverse_append]; rfl
    have hlast : (l ++ [q]).getLast? = some q := List.getLast?_concat
    obtain ⟨m', hupdate, hworld, hheap', hkept⟩ := hheap.update hplaced hgood hq
      (fun d => { d with next := next }) (fun x => { desc x with
        next := if (l ++ [q]).getLast? = some x then next else (desc x).next }) (by simp) (fun y hne => by simp [hne.symm])
    have hR : first Block.addr (l ++ [q]) next = R.oversized := by
      rw [hhead, List.append_assoc, first_append, first_append]
      rfl
    refine ⟨m', ?_, hworld, hkept.mono ?_, hheap'⟩
    · rw [relinkPrev, if_pos (hqprev ▸ (hgood q hq).addr_ne), hqprev, hupdate, hR]
      rfl
    · rintro P rfl
      exact ⟨q, by simp, rfl⟩

theorem relinkNext_spec {m : Memory} {l₁ l₂ : List Block} {desc : Block → OversizedBlock}
    {d : OversizedBlock} (hplaced : Placed O chunks (l₁ ++ l₂) m.world)
    (hgood : ∀ x ∈ l₁ ++ l₂, x.Good) (hheap : InHeap m.heap desc (l₁ ++ l₂))
    (hnext : d.next = first Block.addr l₂ 0) (prev : ℕ) :
    ∃ m', relinkNext d prev m = some m' ∧ m'.world = m.world ∧
      Kept O chunks (l₁ ++ l₂) {P | ∃ x ∈ l₂, P = x.parcel} m.heap m'.heap ∧
      InHeap m'.heap (fun x => { desc x with
        prev := if l₂.head? = some x then prev else (desc x).prev }) (l₁ ++ l₂) := by
  cases l₂ with
  | nil => exact ⟨m, if_neg (not_not.mpr hnext), rfl, Kept.refl _, hheap⟩
  | cons r l₂ =>
    have hr : r ∈ l₁ ++ r :: l₂ := by simp
    have hrnext : d.next = r.addr := hnext
    obtain ⟨m', hupdate, hworld, hheap', hkept⟩ := hheap.update hplaced hgood hr
      (fun d => { d with prev := prev }) (fun x => { desc x with
        prev := if (r :: l₂).head? = some x then prev else (desc x).prev }) (by simp) (fun y hne => by simp [hne.symm])
    refine ⟨m', ?_, hworld, hkept.mono ?_, hheap'⟩
    · rw [relinkNext, if_pos (hrnext ▸ (hgood r hr).addr_ne), hrnext, hupdate]
    · rintro P rfl
      exact ⟨r, by simp, rfl⟩

/-- **The neighbours of a block get other links.** -/
theorem relink_spec {m : Memory} {R : UnsynchronizedPool} {l₁ l₂ : List Block} {o : Block}
    {desc : Block → OversizedBlock} {d : OversizedBlock}
    (hplaced : Placed O chunks (l₁ ++ o :: l₂) m.world) (hgood : ∀ x ∈ l₁ ++ o :: l₂, x.Good)
    (hheap : InHeap m.heap desc (l₁ ++ o :: l₂)) (hprev : d.prev = first Block.addr l₁.reverse 0)
    (hnext : d.next = first Block.addr l₂ 0)
    (hhead : R.oversized = first Block.addr (l₁ ++ o :: l₂) 0) (next prev : ℕ) :
    ∃ m', relink d next prev R m = some ({ R with oversized := first Block.addr l₁ next }, m') ∧
      m'.world = m.world ∧
      Kept O chunks (l₁ ++ o :: l₂) {P | ∃ x ∈ l₁ ++ l₂, P = x.parcel} m.heap m'.heap ∧
      InHeap m'.heap (relinked l₁ l₂ next prev desc) (l₁ ++ o :: l₂) := by
  obtain ⟨m₁, hfirst, hworld₁, hkept₁, hheap₁⟩ :=
    relinkPrev_spec hplaced hgood hheap hprev hhead next
  have hassoc : l₁ ++ o :: l₂ = (l₁ ++ [o]) ++ l₂ := by simp
  rw [← hworld₁, hassoc] at hplaced
  rw [hassoc] at hgood hheap₁
  obtain ⟨m₂, hsecond, hworld₂, hkept₂, hheap₂⟩ :=
    relinkNext_spec hplaced hgood hheap₁ hnext prev
  rw [← hassoc] at hkept₂ hheap₂
  refine ⟨m₂, ?_, hworld₂.trans hworld₁, (hkept₁.trans hkept₂).mono ?_, hheap₂⟩
  · simp only [relink, hfirst, hsecond, Option.bind_eq_bind, Option.bind_some]
  · rintro P (⟨x, hx, rfl⟩ | ⟨x, hx, rfl⟩)
    · exact ⟨x, List.mem_append_left _ hx, rfl⟩
    · exact ⟨x, List.mem_append_right _ hx, rfl⟩

end Cccl.Pool.UnsynchronizedPool
