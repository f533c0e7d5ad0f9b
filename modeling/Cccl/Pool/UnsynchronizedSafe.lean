/-
# The pool resource is safe, if cached blocks are taken with their own alignment

`unsynchronized_pool_resource` takes a cached oversized block also for a request that is aligned less, and
leaves the alignment in its descriptor as it was.  `do_deallocate` asserts that this alignment is the one that
is given back: the assertion fails (`not_forall_correct`).  It is also not asked that a chunk has any block, or
that sizes with their descriptors are words: `validate` accepts options with which the free list is null when
its front is taken, and a request of nearly `2 ^ 64` bytes is answered with a small block.

If the options are such that chunks have blocks (`Usable`), and in each allocation of a run the size with its
descriptor does not wrap and a block that is taken from the cache is aligned as is asked (`Meets`), then in
every reachable state what the user has is as it should be, also with respect to all descriptors, and every
operation has a result (`reachable_correct`).
-/
import Cccl.Pool.UnsynchronizedPooled

namespace Cccl.Pool.UnsynchronizedPool

open Cmath Regions Chains

/-! ## 1. What the user has -/

/-- The descriptors that are linked from an address on. -/
inductive Follows (heap : Heap) (link : Descriptor → Option ℕ) : ℕ → ℕ → Prop
  | here {a : ℕ} : Follows heap link a a
  | next {a b c : ℕ} {d : Descriptor} : a ≠ 0 → heap a = some d → link d = some b →
      Follows heap link b c → Follows heap link a c

def nextBlock : Descriptor → Option ℕ
  | .block next => some next
  | _ => none

def nextChunk : Descriptor → Option ℕ
  | .chunk _ next => some next
  | _ => none

def nextOversized : Descriptor → Option ℕ
  | .oversized desc => some desc.next
  | _ => none

def nextCached : Descriptor → Option ℕ
  | .oversized desc => some desc.nextCached
  | _ => none

/-- The linked lists of the resource. -/
def lists (R : UnsynchronizedPool) : List (ℕ × (Descriptor → Option ℕ)) :=
  (R.allocated, nextChunk) :: (R.oversized, nextOversized) :: (R.cachedOversized, nextCached) ::
    R.pools.map fun bucket => (bucket.freeList, nextBlock)

/-- The blocks of the user are aligned and within what is allocated, and apart from each other and from the
descriptors that are in the lists of the resource. -/
structure Safe (s : Sys) : Prop where
  aligned : ∀ b ∈ s.live, b.pointer % b.request.alignment = 0
  held : ∀ b ∈ s.live, ∃ a ∈ s.memory.world.outstanding,
    a.pointer ≤ b.pointer ∧ b.pointer + b.request.bytes ≤ a.pointer + a.size
  apart : s.live.Pairwise fun a b => Apart a.pointer a.request.bytes b.pointer b.request.bytes
  descriptors : ∀ x ∈ lists s.resource, ∀ a, Follows s.memory.heap x.2 x.1 a → a ≠ 0 →
    ∃ d, s.memory.heap a = some d ∧ ∀ b ∈ s.live, Apart a d.bytes b.pointer b.request.bytes

variable {O : PoolOptions} {chunks : List Chunk} {blocks cached : List Block}
  {desc : Block → OversizedBlock} {free : ℕ → List ℕ} {R : UnsynchronizedPool} {m : Memory}
  {live : List Live}

theorem ChunkList.of_follows {heap : Heap} {head a : ℕ} {l : List Chunk}
    (h : ChunkList O heap head l) (ha : Follows heap nextChunk head a) (hne : a ≠ 0) :
    ∃ c ∈ l, a = c.addr O ∧ ∃ next, heap a = some (.chunk (c.size O) next) := by
  induction ha generalizing l with
  | here =>
    cases l with
    | nil => exact absurd h hne
    | cons c l =>
      obtain ⟨rfl, next, hnext, -⟩ := h
      exact ⟨c, List.mem_cons_self, rfl, next, hnext⟩
  | next hnz hheap hlink _ ih =>
    cases l with
    | nil => exact absurd h hnz
    | cons c l =>
      obtain ⟨rfl, next, hnext, hrest⟩ := h
      obtain rfl := Option.some_inj.mp (hnext.symm.trans hheap)
      obtain rfl := Option.some_inj.mp hlink
      obtain ⟨e, he, heq⟩ := ih hrest hne
      exact ⟨e, List.mem_cons_of_mem _ he, heq⟩

theorem FreeList.of_follows {heap : Heap} {i head a : ℕ} {l : List ℕ} (h : FreeList O heap i head l)
    (ha : Follows heap nextBlock head a) (hne : a ≠ 0) :
    ∃ p ∈ l, a = p + bytesOf O i ∧ ∃ next, heap a = some (.block next) := by
  induction ha generalizing l with
  | here =>
    cases l with
    | nil => exact absurd h hne
    | cons p l =>
      obtain ⟨rfl, next, hnext, -⟩ := h
      exact ⟨p, List.mem_cons_self, rfl, next, hnext⟩
  | next hnz hheap hlink _ ih =>
    cases l with
    | nil => exact absurd h hnz
    | cons p l =>
      obtain ⟨rfl, next, hnext, hrest⟩ := h
      obtain rfl := Option.some_inj.mp (hnext.symm.trans hheap)
      obtain rfl := Option.some_inj.mp hlink
      obtain ⟨q, hq, heq⟩ := ih hrest hne
      exact ⟨q, List.mem_cons_of_mem _ hq, heq⟩

/-- The list of all oversized blocks and the list of the cached ones have blocks in them. -/
theorem blocks_of_follows {heap : Heap} {link : Descriptor → Option ℕ} {next : Block → ℕ} {head a : ℕ}
    {l : List Block} (hchain : Chain Block.addr next l 0) (hheap : InHeap heap desc l)
    (hlink : ∀ o, link (.oversized (desc o)) = some (next o)) (hhead : head = first Block.addr l 0)
    (ha : Follows heap link head a) (hne : a ≠ 0) : ∃ o ∈ l, a = o.addr := by
  induction ha generalizing l with
  | here =>
    cases l with
    | nil => exact absurd hhead hne
    | cons o l => exact ⟨o, List.mem_cons_self, hhead⟩
  | next hnz hd hb _ ih =>
    cases l with
    | nil => exact absurd hhead hnz
    | cons o l =>
      obtain ⟨ho, hl⟩ := List.forall_mem_cons.mp hheap
      rw [hhead, first_cons, ho] at hd
      obtain rfl := Option.some_inj.mp hd
      rw [hlink, hchain.1] at hb
      obtain ⟨q, hq, heq⟩ := ih hchain.2 hl (Option.some_inj.mp hb).symm hne
      exact ⟨q, List.mem_cons_of_mem _ hq, heq⟩

/-- The parcel in which a block of the user is, before the room for its descriptor. -/
def ParcelOf (O : PoolOptions) (chunks : List Chunk) (blocks : List Block) (b : Live) (P : Parcel) : Prop :=
  (∃ i, poolOf O b.request = some i ∧ P = .slot i b.pointer ∧ b.pointer ∈ blocksOf O i chunks ∧
    room O b.request ≤ bytesOf O i) ∨
  poolOf O b.request = none ∧ ∃ o ∈ blocks, Serves O o b ∧ P = o.parcel

theorem parcelOf_live (hvalid : O.Validated) (hpooled : Pooled O chunks free R m.heap live)
    (hover : Oversized O blocks cached desc R m.heap live) {b : Live} (hb : b ∈ live) :
    ∃ P, ParcelOf O chunks blocks b P := by
  cases hpool : poolOf O b.request with
  | none =>
    obtain ⟨o, ho, hserves⟩ := hover.served.exists_serves hb hpool
    exact ⟨o.parcel, Or.inr ⟨hpool, o, ho, hserves, rfl⟩⟩
  | some i =>
    have hin := inPool_of_poolOf hvalid hpool
    obtain ⟨bucket, hbucket⟩ : ∃ bucket, R.pools[i]? = some bucket :=
      ⟨_, List.getElem?_eq_getElem (hpooled.length ▸ hin.lt)⟩
    have hmem := (hpooled.pooled i bucket hbucket).mem_iff.mp
      (List.mem_append_right _ (List.mem_map_of_mem (mem_liveIn.mpr ⟨hb, hpool⟩)))
    exact ⟨.slot i b.pointer, Or.inl ⟨i, hpool, rfl, hmem, hin.room⟩⟩

/-- A block of the user ends before the room for its descriptor. -/
theorem ParcelOf.within (hgood : ∀ o ∈ blocks, o.Good) {b : Live} {P : Parcel}
    (h : ParcelOf O chunks blocks b P) : HasParcel O chunks blocks P ∧ P.pointer O = b.pointer ∧
      b.pointer + room O b.request ≤ P.pointer O + P.bytes O := by
  rcases h with ⟨i, -, rfl, hmem, hroom⟩ | ⟨-, o, ho, hserves, rfl⟩
  · refine ⟨hmem, rfl, ?_⟩
    simp only [Parcel.pointer, Parcel.bytes]
    omega
  · refine ⟨⟨o, ho, rfl, rfl⟩, hserves.base, ?_⟩
    have hle := (hgood o ho).le
    have hcurrent := hserves.current
    have hbase := hserves.base
    simp only [Block.parcel, Parcel.pointer, Parcel.bytes]
    omega

/-- What is in another parcel is apart from a block of the user. -/
theorem ParcelOf.apart (hplaced : Placed O chunks blocks m.world) (hgood : ∀ o ∈ blocks, o.Good) {b : Live}
    {P Q : Parcel} (h : ParcelOf O chunks blocks b P) (hQ : HasParcel O chunks blocks Q) (hne : Q ≠ P)
    {a n : ℕ} (hle : Q.pointer O ≤ a) (hend : a + n ≤ Q.pointer O + Q.bytes O) :
    Apart a n b.pointer b.request.bytes := by
  obtain ⟨hP, hpointer, hroom⟩ := h.within hgood
  have hbytes := le_room O b.request
  exact (parcels_apart hplaced hQ hP hne).within hle hend hpointer.le (by omega)

/-- **The blocks of the user are apart from each other.** -/
theorem live_apart (hvalid : O.Validated) (hplaced : Placed O chunks blocks m.world)
    (hpooled : Pooled O chunks free R m.heap live)
    (hover : Oversized O blocks cached desc R m.heap live) :
    live.Pairwise fun a b => Apart a.pointer a.request.bytes b.pointer b.request.bytes := by
  refine pairwise_of_classes (fun b => poolOf O b.request) (fun k => ?_) fun a ha b hb hne => ?_
  · cases k with
    | none =>
      obtain ⟨pairs, hfst, hsnd, hserves⟩ := hover.served
      have hall := hfst.pairwise hplaced.blocks_apart fun hab => hab.symm
      have hpairs := List.pairwise_map.mp (List.pairwise_append.mp hall).1
      refine hsnd.symm.pairwise (List.pairwise_map.mpr (hpairs.imp_of_mem fun hx hy hxy => ?_))
        fun hab => hab.symm
      have hmem : ∀ z ∈ pairs, z.1 ∈ blocks := fun z hz =>
        hfst.mem_iff.mpr (List.mem_append_left _ (List.mem_map_of_mem hz))
      have hend : ∀ z ∈ pairs, z.2.pointer + z.2.request.bytes ≤ z.1.base + (z.1.size + 48) := by
        intro z hz
        have hgood := hover.good z.1 (hmem z hz)
        have hle := hgood.le
        have hbase := (hserves z hz).base
        have hcurrent := (hserves z hz).current
        have hbytes := le_room O z.2.request
        omega
      exact hxy.within (hserves _ hx).base.le (hend _ hx) (hserves _ hy).base.le (hend _ hy)
    | some i =>
      rcases hlive : liveIn O (some i) live with _ | ⟨b, rest⟩
      · change (liveIn O (some i) live).Pairwise _
        rw [hlive]
        exact List.Pairwise.nil
      · have hb : b ∈ liveIn O (some i) live := hlive ▸ List.mem_cons_self
        have hin := inPool_of_poolOf hvalid (mem_liveIn.mp hb).2
        obtain ⟨bucket, hbucket⟩ : ∃ bucket, R.pools[i]? = some bucket :=
          ⟨_, List.getElem?_eq_getElem (hpooled.length ▸ hin.lt)⟩
        have hall := (hpooled.pooled i bucket hbucket).symm.pairwise (blocksOf_pairwise hplaced i)
          fun hab => hab.symm
        have hslots := List.pairwise_map.mp (List.pairwise_append.mp hall).2.1
        refine hslots.imp_of_mem fun hx hy hxy => ?_
        have hroom : ∀ z ∈ liveIn O (some i) live, z.request.bytes ≤ stride O i := by
          intro z hz
          have hzroom : room O z.request ≤ bytesOf O i :=
            (inPool_of_poolOf hvalid (mem_liveIn.mp hz).2).room
          have hbytes := le_room O z.request
          have hstride := bytesOf_add_le_stride (O := O) i
          omega
        exact hxy.within le_rfl (Nat.add_le_add_left (hroom _ hx) _) le_rfl
          (Nat.add_le_add_left (hroom _ hy) _)
  · obtain ⟨P, hP⟩ := parcelOf_live hvalid hpooled hover ha
    obtain ⟨Q, hQ⟩ := parcelOf_live hvalid hpooled hover hb
    have hPQ : P ≠ Q := by
      rintro rfl
      rcases hP with ⟨i, hi, rfl, -⟩ | ⟨hi, o, -, -, rfl⟩
      · rcases hQ with ⟨j, hj, heq, -⟩ | ⟨hj, o, -, -, heq⟩
        · exact hne (by rw [hi, hj, (Parcel.slot.inj heq).1])
        · exact absurd heq (by simp [Block.parcel])
      · rcases hQ with ⟨j, hj, heq, -⟩ | ⟨hj, -⟩
        · exact absurd heq (by simp [Block.parcel])
        · exact hne (hi.trans hj.symm)
    obtain ⟨hHas, hpointer, hroom⟩ := hP.within hover.good
    have hbytes := le_room O a.request
    exact hQ.apart hplaced hover.good hHas hPQ hpointer.le (by omega)

/-- The descriptor of a chunk is apart from the blocks of the user. -/
theorem chunk_apart (hvalid : O.Validated) (hplaced : Placed O chunks blocks m.world)
    (hpooled : Pooled O chunks free R m.heap live) (hover : Oversized O blocks cached desc R m.heap live)
    {c : Chunk} (hc : c ∈ chunks) {b : Live} (hb : b ∈ live) :
    Apart (c.addr O) 16 b.pointer b.request.bytes := by
  obtain ⟨P, hP⟩ := parcelOf_live hvalid hpooled hover hb
  refine hP.apart hplaced hover.good (Q := .chunk c) hc ?_ le_rfl le_rfl
  rintro rfl
  rcases hP with ⟨i, -, heq, -⟩ | ⟨-, o, -, -, heq⟩
  · exact absurd heq (by simp)
  · exact absurd heq (by simp [Block.parcel])

/-- The link of a free block is apart from the blocks of the user. -/
theorem free_apart (hvalid : O.Validated) (hplaced : Placed O chunks blocks m.world)
    (hpooled : Pooled O chunks free R m.heap live) (hover : Oversized O blocks cached desc R m.heap live)
    {i : ℕ} {bucket : LinkedBucket} (hbucket : R.pools[i]? = some bucket) {p : ℕ} (hp : p ∈ free i)
    {b : Live} (hb : b ∈ live) : Apart (p + bytesOf O i) 8 b.pointer b.request.bytes := by
  obtain ⟨P, hP⟩ := parcelOf_live hvalid hpooled hover hb
  refine hP.apart hplaced hover.good (Q := .slot i p) (hpooled.mem_blocksOf hbucket hp) ?_
    (Nat.le_add_right _ _) (Nat.add_assoc _ _ _).le
  rintro rfl
  rcases hP with ⟨j, hj, heq, -⟩ | ⟨-, o, -, -, heq⟩
  · obtain ⟨rfl, rfl⟩ := Parcel.slot.inj heq
    have hnodup := (hpooled.pooled i bucket hbucket).nodup_iff.mpr (blocksOf_nodup hplaced i)
    exact (List.nodup_append.mp hnodup).2.2 _ hp _
      (List.mem_map_of_mem (mem_liveIn.mpr ⟨hb, hj⟩)) rfl
  · exact absurd heq (by simp [Block.parcel])

/-- The descriptor of an oversized block is apart from the blocks of the user. -/
theorem block_apart (hvalid : O.Validated) (hplaced : Placed O chunks blocks m.world)
    (hpooled : Pooled O chunks free R m.heap live) (hover : Oversized O blocks cached desc R m.heap live)
    {o : Block} (ho : o ∈ blocks) {b : Live} (hb : b ∈ live) :
    Apart o.addr 48 b.pointer b.request.bytes := by
  obtain ⟨P, hP⟩ := parcelOf_live hvalid hpooled hover hb
  have hwithin := (hover.good o ho).within O
  by_cases heq : o.parcel = P
  · -- the descriptor is behind what the user has of the block
    subst heq
    rcases hP with ⟨i, -, heq, -⟩ | ⟨-, q, hq, hserves, heq⟩
    · exact absurd heq (by simp [Block.parcel])
    · have hoq : o = q := by
        by_contra hne
        exact parcel_ne hplaced ho hq hne heq
      have hbytes := le_room O b.request
      have hbase := hserves.base
      have hcurrent := hserves.current
      refine Or.inr ?_
      rw [hoq, Block.addr]
      omega
  · exact hP.apart hplaced hover.good (Q := o.parcel) ⟨o, ho, rfl, rfl⟩ heq hwithin.1 hwithin.2

theorem live_aligned (hvalid : O.Validated) (hplaced : Placed O chunks blocks m.world)
    (hpooled : Pooled O chunks free R m.heap live) (hover : Oversized O blocks cached desc R m.heap live)
    {b : Live} (hb : b ∈ live) : b.pointer % b.request.alignment = 0 := by
  have howned : ∀ a ∈ owned O chunks blocks, a.pointer % a.alignment = 0 := hplaced.held_owned.aligned
  obtain ⟨P, ⟨i, hi, -, hmem, -⟩ | ⟨-, o, ho, hserves, -⟩⟩ := parcelOf_live hvalid hpooled hover hb
  · have hin := inPool_of_poolOf hvalid hi
    have hpower := hvalid.alignment.resolve_left hin.alignment_ne
    obtain ⟨c, hc, -, hcut⟩ := mem_pieces.mp hmem
    obtain ⟨j, -, hj⟩ := mem_cut.mp hcut
    have hbase := howned _ (List.mem_append_left _ (List.mem_map.mpr ⟨c, hc, rfl⟩))
    have hdvd : O.alignment ∣ b.pointer := by
      rw [hj]
      exact Nat.dvd_add (Nat.dvd_of_mod_eq_zero hbase)
        (Dvd.dvd.mul_left (alignment_dvd_stride hvalid hin.alignment_ne hin.smallest) j)
    exact Nat.mod_eq_zero_of_dvd ((dvd_of_valid (isPowerOfTwo_of_valid b.request.alignment_valid) hpower
      hin.alignment_le).trans hdvd)
  · have hbase := howned _ (List.mem_append_right _ (List.mem_map.mpr ⟨o, ho, rfl⟩))
    simp only at hbase
    rwa [hserves.base, hserves.alignment] at hbase

/-- **The invariant says that what the user has is as it should be.** -/
theorem Inv.safe (hvalid : O.Validated) (h : Inv O R m live) : Safe ⟨R, m, live⟩ := by
  obtain ⟨chunks, free, blocks, cached, desc, hplaced, hpooled, hover⟩ := h
  refine ⟨fun b hb => live_aligned hvalid hplaced hpooled hover hb, fun b hb => ?_,
    live_apart hvalid hplaced hpooled hover, ?_⟩
  · obtain ⟨P, hP⟩ := parcelOf_live hvalid hpooled hover hb
    obtain ⟨hHas, hpointer, hroom⟩ := hP.within hover.good
    obtain ⟨a, ha, hle, hend⟩ := parcel_outstanding hplaced hHas
    have hbytes := le_room O b.request
    exact ⟨a, ha, by omega, by omega⟩
  · have hsub : ∀ o ∈ cached, o ∈ blocks := fun o ho => hover.served.cached_subset ho
    rintro x hx a ha hne
    simp only [lists, List.mem_cons, List.mem_map] at hx
    rcases hx with rfl | rfl | rfl | ⟨bucket, hbucket, rfl⟩
    · obtain ⟨c, hc, rfl, next, hheap⟩ := hpooled.chunkList.of_follows ha hne
      exact ⟨_, hheap, fun b hb => chunk_apart hvalid hplaced hpooled hover hc hb⟩
    · obtain ⟨o, ho, rfl⟩ := blocks_of_follows hover.linked.next hover.inHeap (fun _ => rfl) hover.head ha
        hne
      exact ⟨_, hover.inHeap o ho, fun b hb => block_apart hvalid hplaced hpooled hover ho hb⟩
    · obtain ⟨o, ho, rfl⟩ := blocks_of_follows hover.cachedChain
        (fun o ho => hover.inHeap o (hsub o ho)) (fun _ => rfl) hover.cachedHead ha hne
      exact ⟨_, hover.inHeap o (hsub o ho), fun b hb =>
        block_apart hvalid hplaced hpooled hover (hsub o ho) hb⟩
    · obtain ⟨i, hi⟩ := List.mem_iff_getElem?.mp hbucket
      obtain ⟨p, hp, rfl, next, hheap⟩ := (hpooled.freeList i bucket hi).of_follows ha hne
      exact ⟨_, hheap, fun b hb => free_apart hvalid hplaced hpooled hover hi hp hb⟩

/-! ## 2. Runs -/

/-- **The user may write to his blocks.** -/
theorem write_spec (hvalid : O.Validated) (h : Inv O R m live) {b : Live} (hb : b ∈ live) :
    Inv O R { m with heap := m.heap.clear b.pointer b.request.bytes } live := by
  obtain ⟨chunks, free, blocks, cached, desc, hplaced, hpooled, hover⟩ := h
  obtain ⟨P, hP⟩ := parcelOf_live hvalid hpooled hover hb
  obtain ⟨hHas, hpointer, hroom⟩ := hP.within hover.good
  have hbytes := le_room O b.request
  have hkept := kept_clear hplaced hHas hpointer.le (show b.pointer + b.request.bytes ≤ _ by omega) m.heap
  have hlost : ∀ {a : ℕ} {d : Descriptor}, m.heap a = some d →
      Apart a d.bytes b.pointer b.request.bytes →
      m.heap.clear b.pointer b.request.bytes a = some d := by
    intro a d ha hapart
    rw [Heap.clear, ha, Option.filter_some, if_pos (by simpa using hapart)]
  refine ⟨chunks, free, blocks, cached, desc, hplaced, ?_, ?_⟩
  · refine { hpooled with
      chunkList := hpooled.chunkList.kept hkept fun c hc => ⟨hc, ?_⟩
      freeList := fun i bucket hi => (hpooled.freeList i bucket hi).kept hkept fun p hp =>
        ⟨hpooled.mem_blocksOf hi hp, ?_⟩ }
    · rintro rfl
      rcases hP with ⟨i, -, heq, -⟩ | ⟨-, o, -, -, heq⟩
      · exact absurd heq (by simp)
      · exact absurd heq (by simp [Block.parcel])
    · rintro rfl
      rcases hP with ⟨j, hj, heq, -⟩ | ⟨-, o, -, -, heq⟩
      · obtain ⟨rfl, rfl⟩ := Parcel.slot.inj heq
        have hnodup := (hpooled.pooled i bucket hi).nodup_iff.mpr (blocksOf_nodup hplaced i)
        exact (List.nodup_append.mp hnodup).2.2 _ hp _
          (List.mem_map_of_mem (mem_liveIn.mpr ⟨hb, hj⟩)) rfl
      · exact absurd heq (by simp [Block.parcel])
  · exact { hover with
      inHeap := fun o ho =>
        hlost (hover.inHeap o ho) (block_apart hvalid hplaced hpooled hover ho hb) }

/-- The options with which the resource can be used. -/
def Usable (O : PoolOptions) : Prop := O.alignment = 0 ∨ Cuts O

/-- **The actions that go well**: the size of an oversized block with its descriptor is a word, and what is
taken from the cache is aligned as is asked. -/
def Meets (O : PoolOptions) (s : Sys) : Action → Prop
  | .allocate request => isOversized O request.bytes request.alignment →
    request.bytes + 48 < 2 ^ 64 ∧ TakesAligned O s.resource s.memory request
  | _ => True

theorem poolOf_eq_none_iff {request : Request} :
    poolOf O request = none ↔ isOversized O request.bytes request.alignment := by
  rw [poolOf]
  split <;> simp_all

theorem doAllocate_spec (u : Upstream) (hvalid : O.Validated) (hO : Usable O) {request : Request}
    (hmeets : isOversized O request.bytes request.alignment →
      request.bytes + 48 < 2 ^ 64 ∧ TakesAligned O R m request) (h : Inv O R m live) :
    ∃ answer R' m', doAllocate O u request.bytes request.alignment R m = some (answer, R', m') ∧
      Inv O R' m' (received request answer live) := by
  rw [doAllocate, if_neg (by simp [request.alignment_valid])]
  split
  · rename_i hoversized
    obtain ⟨hword, htakes⟩ := hmeets hoversized
    obtain ⟨k, hk⟩ := hvalid.smallest
    have hsmallest : 0 < O.smallestBlockSize ∧ O.smallestBlockSize ≤ 2 ^ 63 := by
      have hlt : O.smallestBlockSize < 2 ^ 64 := O.words _ (by simp)
      rw [hk] at hlt ⊢
      have hk' := (Nat.pow_lt_pow_iff_right (by decide)).mp hlt
      exact ⟨Nat.two_pow_pos k, Nat.pow_le_pow_right (by decide) (Nat.lt_succ_iff.mp hk')⟩
    have hpos : 0 < room O request := hsmallest.1.trans_le (Nat.le_max_right _ _)
    have hroom : room O request + 48 < 2 ^ 64 := by
      unfold room
      omega
    exact allocateOversized_spec u (poolOf_eq_none_iff.mpr hoversized) hpos hroom htakes h
  · rename_i hpooled
    obtain ⟨i, hi⟩ := Option.ne_none_iff_exists'.mp (mt poolOf_eq_none_iff.mp hpooled)
    have hcuts := hO.resolve_left (inPool_of_poolOf hvalid hi).alignment_ne
    exact allocatePooled_spec u hvalid hcuts hi h

theorem doDeallocate_spec (hvalid : O.Validated) {b : Live} (h : Inv O R m (b :: live)) :
    ∃ R' m', doDeallocate O b.pointer b.request.bytes b.request.alignment R m = some (R', m') ∧
      Inv O R' m' live := by
  have haligned := (h.safe hvalid).aligned b List.mem_cons_self
  rw [doDeallocate, if_neg (by simp [b.request.alignment_valid, haligned])]
  split
  · rename_i hoversized
    exact deallocateOversized_spec (poolOf_eq_none_iff.mpr hoversized) h
  · rename_i hpooled
    obtain ⟨i, hi⟩ := Option.ne_none_iff_exists'.mp (mt poolOf_eq_none_iff.mp hpooled)
    obtain ⟨bucket, m', hbucket, hstore, hinv⟩ := deallocatePooled_spec hvalid hi h
    have hlog2 : ceilIlog2 (max b.request.bytes O.smallestBlockSize) = i + smallestBlockLog2 O :=
      (inPool_of_poolOf hvalid hi).log2
    have hblock : b.pointer + 1 <<< (i + smallestBlockLog2 O) = b.pointer + bytesOf O i := by
      rw [Nat.one_shiftLeft]
      rfl
    simp only [hlog2, Nat.add_sub_cancel, hbucket, hblock, hstore, Option.bind_eq_bind, Option.bind_some]
    exact ⟨_, m', rfl, hinv⟩

/-- Every action that goes well has a result, which keeps the invariant. -/
theorem act_spec (u : Upstream) (hvalid : O.Validated) (hO : Usable O) {s : Sys}
    (h : Inv O s.resource s.memory s.live) {a : Action} (ha : Meets O s a) :
    ∃ s', act O u s a = some s' ∧ Inv O s'.resource s'.memory s'.live := by
  cases a with
  | allocate request =>
    obtain ⟨answer, R', m', hresult, hinv⟩ := doAllocate_spec u hvalid hO ha h
    simp only [act, hresult, Option.bind_eq_bind, Option.bind_some]
    cases answer with
    | none => exact ⟨_, rfl, hinv⟩
    | some p => exact ⟨_, rfl, hinv⟩
  | deallocate i =>
    simp only [act]
    cases hb : s.live[i]? with
    | none => exact ⟨s, rfl, h⟩
    | some b =>
      obtain ⟨hlt, rfl⟩ := List.getElem?_eq_some_iff.mp hb
      obtain ⟨R', m', hresult, hinv⟩ :=
        doDeallocate_spec hvalid (h.perm (List.getElem_cons_eraseIdx_perm hlt).symm)
      simp only [hresult, Option.bind_eq_bind, Option.bind_some]
      exact ⟨_, rfl, hinv⟩
  | write i =>
    simp only [act]
    cases hb : s.live[i]? with
    | none => exact ⟨s, rfl, h⟩
    | some b => exact ⟨_, rfl, write_spec hvalid h (List.mem_of_getElem? hb)⟩
  | release =>
    obtain ⟨R', m', hresult, hinv, -⟩ := release_spec h
    simp only [act, hresult, Option.bind_eq_bind, Option.bind_some]
    exact ⟨_, rfl, hinv⟩

/-- What is promised of a state: what the user has is as it should be; every action has a result, so that no
assertion fails, no null pointer is used and nothing is given back that is not allocated; and after `release`
all has been given back. -/
structure Correct (O : PoolOptions) (u : Upstream) (use : Sys → Action → Prop) (s : Sys) : Prop where
  safe : Safe s
  act : ∀ a, use s a → ∃ s', act O u s a = some s'
  release : ∀ s', UnsynchronizedPool.act O u s .release = some s' → s'.memory.world.outstanding = []

theorem Inv.create (O : PoolOptions) : Inv O (create O) ⟨⟨0, []⟩, fun _ => none⟩ [] := by
  refine ⟨[], fun _ => [], [], [], fun _ => ⟨0, 0, 0, 0, 0, 0⟩, ⟨List.Perm.refl _, Held.nil⟩, ?_, ?_⟩
  · exact {
      length := List.length_replicate
      counts := fun bucket hb => by rw [(List.mem_replicate.mp hb).2]
      sizes := fun c hc => absurd hc List.not_mem_nil
      chunkList := rfl
      freeList := fun i bucket hi => by
        rw [(List.mem_replicate.mp (List.mem_of_getElem? hi)).2]
        rfl
      pooled := fun i bucket hi => List.Perm.refl _ }
  · exact {
      good := fun o ho => absurd ho List.not_mem_nil
      inHeap := fun o ho => absurd ho List.not_mem_nil
      isDesc := fun o ho => absurd ho List.not_mem_nil
      head := rfl
      linked := ⟨trivial, trivial⟩
      cachedHead := rfl
      cachedChain := trivial
      full := fun o ho => absurd ho List.not_mem_nil
      served := Served.nil }

/-- **The pool resource is safe in all runs that go well**: in every reachable state what the user has is
aligned, large enough and apart, also from all descriptors, and every operation has a result. -/
theorem reachable_safe (u : Upstream) (hvalidate : O.validate = true) (hO : Usable O) {s : Sys}
    (h : (runs O u (Meets O)).Reachable s) : Correct O u (Meets O) s := by
  have hvalid := PoolOptions.validated_of_validate hvalidate
  have hinv : Inv O s.resource s.memory s.live := by
    refine h.invariant (P := fun s => Inv O s.resource s.memory s.live) (fun s hs => ?_)
      fun s a s' hs hstep => ?_
    · rw [show s = _ from hs]
      exact Inv.create O
    · obtain ⟨s'', hs'', hinv⟩ := act_spec u hvalid hO hs hstep.1
      rw [← Option.some_inj.mp (hs''.symm.trans hstep.2)]
      exact hinv
  refine ⟨hinv.safe hvalid, fun a ha => ?_, fun s' hs' => ?_⟩
  · obtain ⟨s', hs', -⟩ := act_spec u hvalid hO hinv ha
    exact ⟨s', hs'⟩
  · obtain ⟨R, m, hresult, -, hempty⟩ := release_spec hinv
    simp only [act, hresult, Option.bind_eq_bind, Option.bind_some] at hs'
    rw [← Option.some_inj.mp hs']
    exact hempty

open PoolOptions

theorem getDefaultOptions_cuts : Cuts getDefaultOptions := by
  intro k _ hlarge
  have hcuts : ∀ k ≤ 20, 0 < blocksInChunk getDefaultOptions 0 k ∧
      (2 ^ k + max 8 16 + 16) * blocksInChunk getDefaultOptions 0 k + 16 < 2 ^ 64 := by decide
  exact hcuts k ((Nat.pow_le_pow_iff_right (by decide)).mp hlarge)

/-- After 100 bytes have been allocated with the default options. -/
theorem reachable_safe_default :
    ∃ s, act getDefaultOptions Upstream.above
        ⟨create getDefaultOptions, ⟨⟨0, []⟩, fun _ => none⟩, []⟩
        (.allocate ⟨100, 16, by decide, by decide, by decide⟩) = some s ∧
      Correct getDefaultOptions Upstream.above (Meets getDefaultOptions) s := by
  have hinit : (runs getDefaultOptions Upstream.above (Meets getDefaultOptions)).Reachable
      ⟨create getDefaultOptions, ⟨⟨0, []⟩, fun _ => none⟩, []⟩ := Lts.Reachable.init rfl
  have hO : Usable getDefaultOptions := Or.inr getDefaultOptions_cuts
  have hmeets : Meets getDefaultOptions ⟨create getDefaultOptions, ⟨⟨0, []⟩, fun _ => none⟩, []⟩
      (.allocate ⟨100, 16, by decide, by decide, by decide⟩) :=
    fun hoversized => absurd hoversized (by decide)
  obtain ⟨s, hs⟩ := (reachable_safe Upstream.above (by decide) hO hinit).act _ hmeets
  exact ⟨s, hs, reachable_safe Upstream.above (by decide) hO (hinit.step ⟨hmeets, hs⟩)⟩

/-- A request for 100 bytes. -/
def hundred (alignment : ℕ) (h : alignment ∈ [32, 64]) : Request where
  bytes := 100
  alignment := alignment
  bytes_lt := by decide
  alignment_lt := by
    revert alignment
    decide
  alignment_valid := by
    revert alignment
    decide

/-- A block that is aligned to 64 is given back, and taken again for a request that is aligned to 32.  If that
is given back, then an assertion fails. -/
theorem act_taken_block :
    ((((act getDefaultOptions Upstream.above ⟨create getDefaultOptions, ⟨⟨0, []⟩, fun _ => none⟩, []⟩
      (.allocate (hundred 64 (by decide)))).bind
      (act getDefaultOptions Upstream.above · (.deallocate 0))).bind
      (act getDefaultOptions Upstream.above · (.allocate (hundred 32 (by decide))))).bind
      (act getDefaultOptions Upstream.above · (.deallocate 0))).isSome = false := by
  decide

theorem not_forall_safe :
    ¬ ∀ (O : PoolOptions) (u : Upstream), O.validate = true → ∀ s,
      (runs O u fun _ _ => True).Reachable s → Correct O u (fun _ _ => True) s := by
  intro h
  have hact : ∀ {s} a, (runs getDefaultOptions Upstream.above fun _ _ => True).Reachable s →
      ∃ s', act getDefaultOptions Upstream.above s a = some s' ∧
        (runs getDefaultOptions Upstream.above fun _ _ => True).Reachable s' := by
    intro s a hs
    obtain ⟨s', hs'⟩ := (h getDefaultOptions Upstream.above (by decide) s hs).act a trivial
    exact ⟨s', hs', hs.step ⟨trivial, hs'⟩⟩
  obtain ⟨s₁, hs₁, hreach₁⟩ := hact (.allocate (hundred 64 (by decide))) (Lts.Reachable.init rfl)
  obtain ⟨s₂, hs₂, hreach₂⟩ := hact (.deallocate 0) hreach₁
  obtain ⟨s₃, hs₃, hreach₃⟩ := hact (.allocate (hundred 32 (by decide))) hreach₂
  obtain ⟨s₄, hs₄, -⟩ := hact (.deallocate 0) hreach₃
  have hnone := act_taken_block
  rw [hs₁, Option.bind_some, hs₂, Option.bind_some, hs₃, Option.bind_some, hs₄] at hnone
  exact absurd hnone (by simp)

end Cccl.Pool.UnsynchronizedPool
