/-
# What a pool resource has in its memory

What `unsynchronized_pool_resource` has allocated are chunks and oversized blocks.  A chunk is cut into slots,
each of which is a block with room for its descriptor behind it, and ends with its own descriptor; and an
oversized block has room for its descriptor behind it, wherever in it the descriptor is.  These are parcels,
which are apart from each other (`parcels_apart`).

So a write in one parcel leaves the descriptors in all other ones as they are (`store_spec`, `Kept`).
-/
import Cccl.Lib.Chain
import Cccl.Pool.UnsynchronizedPool

namespace Cccl.Pool.UnsynchronizedPool

open Regions

/-! ## 1. Chunks and oversized blocks -/

/-- A chunk of some blocks of one size. -/
structure Chunk where
  base : ℕ
  idx : ℕ
  count : ℕ
deriving DecidableEq

/-- An oversized block, of which the user has `current` bytes. -/
structure Block where
  base : ℕ
  size : ℕ
  alignment : ℕ
  current : ℕ
deriving DecidableEq

def Block.addr (o : Block) : ℕ := o.base + o.current

inductive Parcel
  | chunk (c : Chunk)
  | slot (i p : ℕ)
  | block (base size : ℕ)

def Block.parcel (o : Block) : Parcel := .block o.base o.size

variable (O : PoolOptions)

/-- The size of the blocks of a pool. -/
def bytesOf (i : ℕ) : ℕ := 2 ^ (i + smallestBlockLog2 O)

/-- From one block of a pool to the next one. -/
def stride (i : ℕ) : ℕ := bytesOf O i + max 8 O.alignment + O.alignment

def Chunk.size (c : Chunk) : ℕ := stride O c.idx * c.count

def Chunk.addr (c : Chunk) : ℕ := c.base + c.size O

/-- The blocks of a pool that have been cut from chunks. -/
def blocksOf (i : ℕ) (chunks : List Chunk) : List ℕ :=
  pieces Chunk.idx Chunk.base Chunk.count (stride O i) i chunks

/-- What is allocated from the upstream resource. -/
def owned (chunks : List Chunk) (blocks : List Block) : List Allocation :=
  chunks.map (fun c => ⟨c.base, c.size O + 16, O.alignment⟩) ++
    blocks.map fun o => ⟨o.base, o.size + 48, o.alignment⟩

/-- The chunks and blocks are what is allocated. -/
structure Placed (chunks : List Chunk) (blocks : List Block) (w : World) : Prop where
  outstanding : w.outstanding.Perm (owned O chunks blocks)
  held : Held w.outstanding

def Parcel.pointer : Parcel → ℕ
  | .chunk c => c.addr O
  | .slot _ p => p
  | .block base _ => base

def Parcel.bytes : Parcel → ℕ
  | .chunk _ => 16
  | .slot i _ => bytesOf O i + 8
  | .block _ size => size + 48

/-- The parcels of some chunks and blocks. -/
def HasParcel (chunks : List Chunk) (blocks : List Block) : Parcel → Prop
  | .chunk c => c ∈ chunks
  | .slot i p => p ∈ blocksOf O i chunks
  | .block base size => ∃ o ∈ blocks, o.base = base ∧ o.size = size

/-- The parcel is cut from the chunk. -/
def InChunk (c : Chunk) (P : Parcel) : Prop :=
  P = .chunk c ∨ ∃ p ∈ cut c.base (stride O c.idx) c.count, P = .slot c.idx p

variable {O} {chunks : List Chunk} {blocks : List Block} {w : World}

theorem stride_pos (i : ℕ) : 0 < stride O i := by
  have : 0 < bytesOf O i := Nat.two_pow_pos _
  unfold stride
  omega

theorem bytesOf_pos (i : ℕ) : 0 < bytesOf O i := Nat.two_pow_pos _

theorem bytesOf_add_le_stride (i : ℕ) : bytesOf O i + 8 ≤ stride O i := by
  unfold stride
  omega

theorem InChunk.within {c : Chunk} {P : Parcel} (h : InChunk O c P) :
    c.base ≤ P.pointer O ∧ P.pointer O + P.bytes O ≤ c.base + (c.size O + 16) := by
  rcases h with rfl | ⟨p, hp, rfl⟩
  · exact ⟨Nat.le_add_right _ _, (Nat.add_assoc _ _ _).le⟩
  · have hwithin := cut_within hp
    have hstride := bytesOf_add_le_stride (O := O) c.idx
    rw [Nat.mul_comm] at hwithin
    simp only [Parcel.pointer, Parcel.bytes, Chunk.size]
    omega

theorem InChunk.apart {c : Chunk} {P Q : Parcel} (hP : InChunk O c P) (hQ : InChunk O c Q)
    (hne : P ≠ Q) : Apart (P.pointer O) (P.bytes O) (Q.pointer O) (Q.bytes O) := by
  have hstride := bytesOf_add_le_stride (O := O) c.idx
  have hslot : ∀ p ∈ cut c.base (stride O c.idx) c.count, p + (bytesOf O c.idx + 8) ≤ c.addr O := by
    intro p hp
    have hwithin := cut_within hp
    rw [Nat.mul_comm] at hwithin
    simp only [Chunk.addr, Chunk.size]
    omega
  rcases hP with rfl | ⟨p, hp, rfl⟩
  · rcases hQ with rfl | ⟨q, hq, rfl⟩
    · exact absurd rfl hne
    · exact Or.inr (hslot q hq)
  · rcases hQ with rfl | ⟨q, hq, rfl⟩
    · exact Or.inl (hslot p hp)
    · have hpq : p ≠ q := fun heq => hne (by rw [heq])
      refine (cut_apart hp hq hpq).within le_rfl ?_ le_rfl ?_
      · exact Nat.add_le_add_left hstride p
      · exact Nat.add_le_add_left hstride q

theorem HasParcel.cases {P : Parcel} (h : HasParcel O chunks blocks P) :
    (∃ c ∈ chunks, InChunk O c P) ∨ ∃ o ∈ blocks, P = o.parcel := by
  cases P with
  | chunk c => exact Or.inl ⟨c, h, Or.inl rfl⟩
  | slot i p =>
    obtain ⟨c, hc, rfl, hp⟩ := mem_pieces.mp h
    exact Or.inl ⟨c, hc, Or.inr ⟨p, hp, rfl⟩⟩
  | block base size =>
    obtain ⟨o, ho, rfl, rfl⟩ := h
    exact Or.inr ⟨o, ho, rfl⟩

theorem Placed.held_owned (h : Placed O chunks blocks w) : Held (owned O chunks blocks) :=
  h.held.perm h.outstanding

theorem Placed.chunks_apart (h : Placed O chunks blocks w) :
    chunks.Pairwise fun c e => Apart c.base (c.size O + 16) e.base (e.size O + 16) :=
  List.pairwise_map.mp (List.pairwise_append.mp h.held_owned.apart).1

theorem Placed.blocks_apart (h : Placed O chunks blocks w) :
    blocks.Pairwise fun o q => Apart o.base (o.size + 48) q.base (q.size + 48) :=
  List.pairwise_map.mp (List.pairwise_append.mp h.held_owned.apart).2.1

theorem Placed.chunk_apart_block (h : Placed O chunks blocks w) {c : Chunk} (hc : c ∈ chunks)
    {o : Block} (ho : o ∈ blocks) : Apart c.base (c.size O + 16) o.base (o.size + 48) :=
  (List.pairwise_append.mp h.held_owned.apart).2.2 _
    (List.mem_map_of_mem (f := fun c : Chunk => (⟨c.base, c.size O + 16, O.alignment⟩ : Allocation)) hc) _
    (List.mem_map_of_mem (f := fun o : Block => (⟨o.base, o.size + 48, o.alignment⟩ : Allocation)) ho)

theorem Placed.blocks_nodup (h : Placed O chunks blocks w) : blocks.Nodup :=
  h.blocks_apart.imp fun hab heq => hab.ne (by omega) (by omega) (congrArg Block.base heq)

/-- The same is allocated if the upstream resource has only been called. -/
theorem Placed.calls (h : Placed O chunks blocks w) {w' : World}
    (hw : w'.outstanding = w.outstanding) : Placed O chunks blocks w' :=
  ⟨hw ▸ h.outstanding, hw ▸ h.held⟩

theorem Placed.pushBlock (h : Placed O chunks blocks w) {w' : World} {o : Block}
    (hw : w'.outstanding = ⟨o.base, o.size + 48, o.alignment⟩ :: w.outstanding)
    (hheld : Held w'.outstanding) : Placed O chunks (o :: blocks) w' where
  outstanding := by
    rw [hw]
    exact (h.outstanding.cons _).trans List.perm_middle.symm
  held := hheld

theorem Placed.pushChunk (h : Placed O chunks blocks w) {w' : World} {c : Chunk}
    (hw : w'.outstanding = ⟨c.base, c.size O + 16, O.alignment⟩ :: w.outstanding)
    (hheld : Held w'.outstanding) : Placed O (c :: chunks) blocks w' where
  outstanding := by
    rw [hw]
    exact h.outstanding.cons _
  held := hheld

theorem memory_doAllocate_cases (u : Upstream) (size alignment : ℕ) (m : Memory) :
    (∃ m', m.doAllocate u size alignment = (none, m') ∧ m'.heap = m.heap ∧
      m'.world.outstanding = m.world.outstanding) ∨
    ∃ p m', m.doAllocate u size alignment = (some p, m') ∧ m'.heap = m.heap ∧
      m'.world.outstanding = ⟨p, size, alignment⟩ :: m.world.outstanding ∧
      (0 < size → Held m.world.outstanding → Held m'.world.outstanding) := by
  rcases doAllocate_cases u size alignment m.world with ⟨w, hnone, hw⟩ | ⟨p, w, hsome, hw, hheld⟩
  · exact Or.inl ⟨{ m with world := w }, by rw [Memory.doAllocate, hnone], rfl, hw⟩
  · exact Or.inr ⟨p, { m with world := w }, by rw [Memory.doAllocate, hsome], rfl, hw, hheld⟩

/-- **The parcels are apart from each other.** -/
theorem parcels_apart (h : Placed O chunks blocks w) {P Q : Parcel} (hP : HasParcel O chunks blocks P)
    (hQ : HasParcel O chunks blocks Q) (hne : P ≠ Q) :
    Apart (P.pointer O) (P.bytes O) (Q.pointer O) (Q.bytes O) := by
  rcases hP.cases with ⟨c, hc, hPc⟩ | ⟨o, ho, rfl⟩
  · rcases hQ.cases with ⟨e, he, hQe⟩ | ⟨q, hq, rfl⟩
    · rcases eq_or_ne c e with rfl | hce
      · exact hPc.apart hQe hne
      · exact (apart_of_pairwise h.chunks_apart hc he hce).within hPc.within.1 hPc.within.2
          hQe.within.1 hQe.within.2
    · exact (h.chunk_apart_block hc hq).within hPc.within.1 hPc.within.2 le_rfl le_rfl
  · rcases hQ.cases with ⟨e, he, hQe⟩ | ⟨q, hq, rfl⟩
    · exact ((h.chunk_apart_block he ho).within hQe.within.1 hQe.within.2 le_rfl le_rfl).symm
    · exact apart_of_pairwise h.blocks_apart ho hq fun heq => hne (by rw [heq])

theorem parcel_outstanding (h : Placed O chunks blocks w) {P : Parcel}
    (hP : HasParcel O chunks blocks P) :
    ∃ b ∈ w.outstanding, b.pointer ≤ P.pointer O ∧
      P.pointer O + P.bytes O ≤ b.pointer + b.size := by
  rcases hP.cases with ⟨c, hc, hPc⟩ | ⟨o, ho, rfl⟩
  · refine ⟨⟨c.base, c.size O + 16, O.alignment⟩, ?_, hPc.within⟩
    exact h.outstanding.mem_iff.mpr (List.mem_append_left _ (List.mem_map.mpr ⟨c, hc, rfl⟩))
  · refine ⟨⟨o.base, o.size + 48, o.alignment⟩, ?_, le_rfl, le_rfl⟩
    exact h.outstanding.mem_iff.mpr (List.mem_append_right _ (List.mem_map.mpr ⟨o, ho, rfl⟩))

/-! ## 2. Writes -/

/-- The descriptors in all parcels are kept, apart from those in some. -/
def Kept (O : PoolOptions) (chunks : List Chunk) (blocks : List Block) (S : Set Parcel)
    (heap heap' : Heap) : Prop :=
  ∀ Q, HasParcel O chunks blocks Q → Q ∉ S → ∀ x d, heap x = some d → Q.pointer O ≤ x →
    x + d.bytes ≤ Q.pointer O + Q.bytes O → heap' x = some d

variable {S T : Set Parcel} {heap heap' heap'' : Heap}

theorem Kept.refl (heap : Heap) : Kept O chunks blocks S heap heap := fun _ _ _ _ _ hx _ _ => hx

theorem Kept.trans (h : Kept O chunks blocks S heap heap') (h' : Kept O chunks blocks T heap' heap'') :
    Kept O chunks blocks (S ∪ T) heap heap'' := by
  intro Q hQ hnot x d hx hle hend
  have hS : Q ∉ S := fun hQS => hnot (Or.inl hQS)
  have hT : Q ∉ T := fun hQT => hnot (Or.inr hQT)
  exact h' Q hQ hT x d (h Q hQ hS x d hx hle hend) hle hend

theorem Kept.mono (h : Kept O chunks blocks S heap heap') (hST : S ⊆ T) :
    Kept O chunks blocks T heap heap' := fun Q hQ hnot => h Q hQ fun hQS => hnot (hST hQS)

/-- What is written to the bytes of one parcel leaves all other ones as they are. -/
theorem kept_clear (h : Placed O chunks blocks w) {P : Parcel} (hP : HasParcel O chunks blocks P)
    {p n : ℕ} (hle : P.pointer O ≤ p) (hend : p + n ≤ P.pointer O + P.bytes O) (heap : Heap) :
    Kept O chunks blocks {P} heap (heap.clear p n) := by
  intro Q hQ hne x d hx hQle hQend
  have hapart := (parcels_apart h hQ hP hne).within hQle hQend hle hend
  rw [Heap.clear, hx, Option.filter_some, if_pos (by simpa using hapart)]

/-- **A descriptor is written to a parcel.** -/
theorem store_spec {m : Memory} (h : Placed O chunks blocks m.world) {P : Parcel}
    (hP : HasParcel O chunks blocks P) {a : ℕ} {d : Descriptor} (hle : P.pointer O ≤ a)
    (hend : a + d.bytes ≤ P.pointer O + P.bytes O) :
    ∃ m', m.store a d = some m' ∧ m'.world = m.world ∧ m'.heap a = some d ∧
      Kept O chunks blocks {P} m.heap m'.heap := by
  obtain ⟨b, hb, hbase, hbend⟩ := parcel_outstanding h hP
  refine ⟨_, if_pos ⟨b, hb, hbase.trans hle, hend.trans hbend⟩, rfl, if_pos rfl, ?_⟩
  intro Q hQ hne x e hx hQle hQend
  have hkept := kept_clear h hP hle hend m.heap Q hQ hne x e hx hQle hQend
  have hxa : x ≠ a := by
    rintro rfl
    rw [Heap.clear, hx, Option.filter_some] at hkept
    have hnot : ¬ Apart x e.bytes x d.bytes := fun hapart => hapart.ne e.bytes_pos d.bytes_pos rfl
    rw [if_neg (by simpa using hnot)] at hkept
    exact absurd hkept (by simp)
  exact (if_neg hxa).trans hkept

end Cccl.Pool.UnsynchronizedPool
