/-
# Oversized blocks of the pool resource

The oversized part of `do_allocate` and of `do_deallocate` of `unsynchronized_pool_resource`.

The loop over the cached blocks finds one that is good, with what comes before it (`findCached_spec`), so that
it can be taken out of the list of cached blocks (`unlinkCached_spec`).  A block that is taken from the cache
keeps its own alignment, which `do_deallocate` compares with the one that has been asked for: so it is only
said that blocks that are aligned as is asked are taken (`allocateOversized_spec`).
-/
import Cccl.Pool.UnsynchronizedMove

namespace Cccl.Pool.UnsynchronizedPool

open Regions Chains

variable {O : PoolOptions} {chunks : List Chunk} {blocks cached : List Block}
  {desc : Block → OversizedBlock} {R : UnsynchronizedPool} {live : List Live}

/-! ## 1. Taking a block from the cache -/

/-- **The loop over the cached blocks** ends, and what it finds is good. -/
theorem findCached_spec (bytes alignment : ℕ) {m : Memory} {c : List Block} (hgood : ∀ o ∈ c, o.Good)
    (hheap : InHeap m.heap desc c) (hchain : Chain Block.addr (fun o => (desc o).nextCached) c 0)
    (fuel : ℕ) (hfuel : c.length < fuel) (previous : Option ℕ) :
    ∃ r, findCached O bytes alignment m fuel previous (first Block.addr c 0) = some r ∧
      ∀ q ptr d, r = some (q, ptr, d) → ∃ c₁ o c₂, c = c₁ ++ o :: c₂ ∧ ptr = o.addr ∧ d = desc o ∧
        isGood O bytes alignment (desc o) = true ∧
        q = (c₁.getLast?.map Block.addr).or previous := by
  induction c generalizing fuel previous with
  | nil =>
    obtain ⟨fuel, rfl⟩ : ∃ k, fuel = k + 1 := ⟨fuel - 1, by simp at hfuel; omega⟩
    exact ⟨none, rfl, fun q ptr d h => absurd h (by simp)⟩
  | cons o c ih =>
    obtain ⟨fuel, rfl⟩ : ∃ k, fuel = k + 1 := ⟨fuel - 1, by simp at hfuel; omega⟩
    obtain ⟨ho, hc⟩ := List.forall_mem_cons.mp hgood
    obtain ⟨hload, hheap⟩ := List.forall_mem_cons.mp hheap
    have hstep : findCached O bytes alignment m (fuel + 1) previous o.addr =
        if isGood O bytes alignment (desc o) then some (some (previous, o.addr, desc o))
        else findCached O bytes alignment m fuel (some o.addr) (desc o).nextCached := by
      rw [findCached, if_neg ho.addr_ne, loadOversized_of_heap ho.addr_ne hload]
      rfl
    rw [first_cons, hstep]
    split
    · rename_i hisGood
      refine ⟨_, rfl, fun q ptr d h => ?_⟩
      obtain ⟨rfl, rfl, rfl⟩ : previous = q ∧ o.addr = ptr ∧ desc o = d := by simpa using h
      exact ⟨[], o, c, rfl, rfl, rfl, hisGood, rfl⟩
    · rw [show (desc o).nextCached = first Block.addr c 0 from hchain.1]
      obtain ⟨r, hr, hfound⟩ := ih hc hheap hchain.2 fuel (by simpa using hfuel) (some o.addr)
      refine ⟨r, hr, fun q ptr d h => ?_⟩
      obtain ⟨c₁, p, c₂, rfl, hptr, hd, hisGood, hq⟩ := hfound q ptr d h
      refine ⟨o :: c₁, p, c₂, rfl, hptr, hd, hisGood, ?_⟩
      rw [hq]
      cases c₁ with
      | nil => rfl
      | cons x c₁ => rw [List.getLast?_cons_cons]; simp [List.getLast?_cons]

/-- **A block is taken out of the list of the cached ones.** -/
theorem unlinkCached_spec {m : Memory} {c₁ c₂ : List Block} {o : Block}
    (hplaced : Placed O chunks blocks m.world) (hgood : ∀ x ∈ blocks, x.Good)
    (hheap : InHeap m.heap desc blocks) (hsub : ∀ x ∈ c₁, x ∈ blocks)
    (hhead : R.cachedOversized = first Block.addr (c₁ ++ o :: c₂) 0)
    (hnext : (desc o).nextCached = first Block.addr c₂ 0) :
    ∃ m', unlinkCached ((c₁.getLast?.map Block.addr).or none) (desc o) R m =
        some ({ R with cachedOversized := first Block.addr (c₁ ++ c₂) 0 }, m') ∧
      m'.world = m.world ∧
      Kept O chunks blocks {P | ∃ base size, P = .block base size} m.heap m'.heap ∧
      InHeap m'.heap (fun x => { desc x with
        nextCached := if c₁.getLast? = some x then (desc o).nextCached else (desc x).nextCached })
        blocks := by
  rcases List.eq_nil_or_concat' c₁ with rfl | ⟨c, q, rfl⟩
  · exact ⟨m, by rw [List.nil_append, ← hnext]; rfl, rfl, Kept.refl _, hheap⟩
  · have hq : q ∈ blocks := hsub q (by simp)
    have hlast : (c ++ [q]).getLast? = some q := List.getLast?_concat
    obtain ⟨m', hupdate, hworld, hheap', hkept⟩ := hheap.update hplaced hgood hq
      (fun d => { d with nextCached := (desc o).nextCached }) (fun x => { desc x with
        nextCached := if (c ++ [q]).getLast? = some x then (desc o).nextCached
          else (desc x).nextCached }) (by simp)
      (fun y hne => by simp [hne.symm])
    have hR : first Block.addr (c ++ [q] ++ c₂) 0 = R.cachedOversized := by
      rw [hhead]
      simp only [List.append_assoc, List.singleton_append, first_append, first_cons]
    refine ⟨m', ?_, hworld, hkept.mono ?_, hheap'⟩
    · rw [hR, hlast]
      simp only [Option.map_some, Option.some_or, unlinkCached, hupdate]
    · rintro P rfl
      exact ⟨_, _, rfl⟩

theorem Oversized.cached_nodup {m : Memory} (hplaced : Placed O chunks blocks m.world)
    (h : Oversized O blocks cached desc R m.heap live) : cached.Nodup := by
  obtain ⟨pairs, hfst, -⟩ := h.served
  exact (List.nodup_append.mp (hfst.nodup_iff.mp hplaced.blocks_nodup)).2.1

theorem Block.Good.resized {o : Block} (h : o.Good) {n : ℕ} (hpos : 0 < n) (hle : n ≤ o.size) :
    (o.resized n).Good := ⟨hpos, hle, h.word, h.valid⟩

/-- **The user gets a cached block**, which is as large as is asked, and aligned so. -/
theorem takeCached_spec {m : Memory} {c₁ c₂ : List Block} {o : Block} {request : Request}
    (hplaced : Placed O chunks blocks m.world)
    (h : Oversized O blocks (c₁ ++ o :: c₂) desc R m.heap live)
    (hpool : poolOf O request = none) (hpos : 0 < room O request) (hle : room O request ≤ o.size)
    (halign : o.alignment = request.alignment) :
    ∃ p R' m' blocks' desc', takeCached (room O request) ((c₁.getLast?.map Block.addr).or none) o.addr
        (desc o) R m = some (p, R', m') ∧
      m'.world = m.world ∧ R'.pools = R.pools ∧ R'.allocated = R.allocated ∧
      Kept O chunks blocks {P | ∃ base size, P = .block base size} m.heap m'.heap ∧
      Placed O chunks blocks' m'.world ∧
      Oversized O blocks' (c₁ ++ c₂) desc' R' m'.heap (⟨p, request⟩ :: live) := by
  have hcached : ∀ x ∈ c₁ ++ o :: c₂, x ∈ blocks := fun x hx => h.served.cached_subset hx
  have hcnodup := h.cached_nodup hplaced
  have ho : o ∈ blocks := hcached o (by simp)
  obtain ⟨l₁, l₂, rfl⟩ := List.append_of_mem ho
  have hisDesc := h.isDesc o ho
  have hfull : o.current = o.size := h.full o (by simp)
  have hnext := (chain_append.mp h.cachedChain).2.1
  obtain ⟨m₁, hunlink, hworld₁, hkept₁, hheap₁⟩ := unlinkCached_spec hplaced h.good h.inHeap
    (fun x hx => hcached x (List.mem_append_left _ hx)) h.cachedHead hnext
  have hret : o.addr - (desc o).size = o.base := by
    rw [hisDesc.size, Block.addr, hfull, Nat.add_sub_cancel]
  obtain ⟨m₂, m', desc', hmoved, hstore, hworld', hkept', hheap', hlinked', hisDesc', -, hcachedDesc⟩ :=
    resize_spec (R := { R with cachedOversized := first Block.addr (c₁ ++ c₂) 0 })
      (d := { desc o with nextCached := 0 }) (hworld₁ ▸ hplaced) h.good hheap₁ ⟨h.linked.next, h.linked.prev⟩
      (fun x hx => ⟨(h.isDesc x hx).size, (h.isDesc x hx).alignment, (h.isDesc x hx).currentSize⟩)
      ⟨hisDesc.size, hisDesc.alignment, hisDesc.currentSize⟩ ⟨rfl, rfl⟩ h.head
      (room O request != (desc o).size) (room O request) (by rw [bne_eq_false_iff_eq, hisDesc.size, hfull]) ((h.good o ho).resized hpos hle)
  have hworld := hworld'.trans hworld₁
  refine ⟨o.base, { R with
      oversized := first Block.addr (l₁ ++ o.resized (room O request) :: l₂) 0
      cachedOversized := first Block.addr (c₁ ++ c₂) 0 },
    m', l₁ ++ o.resized (room O request) :: l₂, desc', ?_, hworld, rfl, rfl, (hkept₁.trans hkept').mono (by rw [Set.union_self]), hworld ▸ hplaced.resized _, ?_⟩
  · simp only [takeCached, hunlink, hret, hmoved, hstore, Option.bind_eq_bind, Option.bind_some]
  -- the other cached blocks are among the other blocks
  have hothers : ∀ x ∈ c₁ ++ c₂, x ∈ l₁ ++ l₂ := by
    intro x hx
    have hne : x ≠ o := by
      rintro rfl
      exact (List.nodup_cons.mp (List.perm_middle.nodup_iff.mp hcnodup)).1 hx
    have hmem := hcached x (List.perm_middle.mem_iff.mpr (List.mem_cons_of_mem _ hx))
    exact (List.mem_cons.mp (List.perm_middle.mem_iff.mp hmem)).resolve_left hne
  have hchain : Chain Block.addr (fun x => (desc' x).nextCached) (c₁ ++ c₂) 0 := by
    obtain ⟨hbefore, hx, hafter⟩ := h.cachedChain.takeOut hcnodup
      (fun x => (desc' x).nextCached) (desc o).nextCached fun x hx => hcachedDesc x (hothers x hx)
    exact chain_append.mpr ⟨hx ▸ hbefore, hafter⟩
  have hserved : Served O (Serves O) (l₁ ++ o.resized (room O request) :: l₂) (c₁ ++ c₂)
      (⟨o.base, request⟩ :: live) := by
    obtain ⟨rest, hperm, hrest⟩ := (h.served.perm (List.Perm.refl _) List.perm_middle).drop
    have hrest' : (l₁ ++ l₂).Perm rest := (List.perm_middle.symm.trans hperm).cons_inv
    have hserves : Serves O (o.resized (room O request)) ⟨o.base, request⟩ := ⟨rfl, rfl, halign⟩
    refine (hrest.new hpool hserves).perm ?_ (List.Perm.refl _)
    exact List.perm_middle.trans (hrest'.cons _)
  exact {
    good := by
      intro x hx
      rcases List.mem_cons.mp (List.perm_middle.mem_iff.mp hx) with rfl | hx
      · exact (h.good o ho).resized hpos hle
      · exact h.good x (List.perm_middle.mem_iff.mpr (List.mem_cons_of_mem _ hx))
    inHeap := hheap'
    isDesc := hisDesc'
    head := rfl
    linked := hlinked'
    cachedHead := rfl
    cachedChain := hchain
    full := fun x hx => h.full x (List.perm_middle.mem_iff.mpr (List.mem_cons_of_mem _ hx))
    served := hserved }

/-! ## 2. A new block -/

theorem liveIn_cons_some {request : Request} (hpool : poolOf O request = none) (p i : ℕ) :
    liveIn O (some i) (⟨p, request⟩ :: live) = liveIn O (some i) live :=
  liveIn_cons_of_ne (by simp [hpool]) live

/-- **The user gets a new oversized block**, or the upstream resource has no memory. -/
theorem newOversized_spec (u : Upstream) {m : Memory} {request : Request}
    (hpool : poolOf O request = none) (hpos : 0 < room O request) (hword : room O request + 48 < 2 ^ 64)
    (h : Inv O R m live) :
    ∃ answer R' m', newOversized u (room O request) request.alignment R m = some (answer, R', m') ∧
      Inv O R' m' (received request answer live) := by
  obtain ⟨chunks, free, blocks, cached, desc, hplaced, hpooled, hover⟩ := h
  simp only [newOversized, Nat.mod_eq_of_lt hword]
  rcases memory_doAllocate_cases u (room O request + 48) request.alignment m with
    ⟨m₁, hnone, hheap₁, hw⟩ | ⟨p, m₁, hsome, hheap₁, hw, hheld⟩
  · simp only [hnone]
    refine ⟨none, R, m₁, rfl, chunks, free, blocks, cached, desc, hplaced.calls hw, ?_, ?_⟩
    · exact hheap₁ ▸ hpooled
    · exact hheap₁ ▸ hover
  simp only [hsome]
  have hplaced₁ : Placed O chunks (⟨p, room O request, request.alignment, room O request⟩ :: blocks)
      m₁.world := hplaced.pushBlock hw (hheld (Nat.succ_pos _) hplaced.held)
  set o : Block := ⟨p, room O request, request.alignment, room O request⟩ with ho
  have hogood : o.Good := ⟨hpos, le_rfl, hword, request.alignment_valid⟩
  have hgood : ∀ x ∈ o :: blocks, x.Good := List.forall_mem_cons.mpr ⟨hogood, hover.good⟩
  have hwithin := hogood.within O
  obtain ⟨hnot, hnodup⟩ := List.nodup_cons.mp hplaced₁.blocks_nodup
  -- the descriptor of the new block
  let d : OversizedBlock := ⟨room O request, request.alignment, 0, R.oversized, 0, room O request⟩
  obtain ⟨m₂, hstore, hworld₂, hnew, hkept₂⟩ := store_spec (d := .oversized d) hplaced₁
    (P := o.parcel) ⟨o, List.mem_cons_self, rfl, rfl⟩ hwithin.1 hwithin.2
  let desc₂ : Block → OversizedBlock := fun x => if x = o then d else desc x
  have hdesc₂ : ∀ x ∈ blocks, desc₂ x = desc x := fun x hx =>
    if_neg (ne_of_mem_of_not_mem hx hnot)
  have hself₂ : desc₂ o = d := if_pos rfl
  have hheap₂ : InHeap m₂.heap desc₂ ([o] ++ blocks) := by
    refine List.forall_mem_cons.mpr ⟨hnew.trans (by rw [hself₂]), fun x hx => ?_⟩
    have hxwithin := (hover.good x hx).within O
    have hne : x ≠ o := ne_of_mem_of_not_mem hx hnot
    rw [hdesc₂ x hx]
    exact hkept₂ x.parcel ⟨x, List.mem_cons_of_mem _ hx, rfl, rfl⟩
      (parcel_ne hplaced₁ (List.mem_cons_of_mem _ hx) List.mem_cons_self hne) _ _
      (hheap₁ ▸ hover.inHeap x hx) hxwithin.1 hxwithin.2
  obtain ⟨m₃, hrelink, hworld₃, hkept₃, hheap₃⟩ := relinkNext_spec (d := d)
    (hworld₂ ▸ hplaced₁) hgood hheap₂ hover.head o.addr
  let desc₃ : Block → OversizedBlock := fun x =>
    { desc₂ x with prev := if blocks.head? = some x then o.addr else (desc₂ x).prev }
  have hself₃ : (desc₃ o).prev = 0 := by
    have hne : blocks.head? ≠ some o := fun heq => hnot (List.mem_of_mem_head? heq)
    exact (if_neg hne).trans (congrArg OversizedBlock.prev hself₂)
  refine ⟨some p, { R with oversized := o.addr }, m₃, ?_, chunks, free, o :: blocks, cached, desc₃,
    hworld₃ ▸ hworld₂ ▸ hplaced₁, ?_, ?_⟩
  · have haddr : p + room O request = o.addr := rfl
    simp only [haddr, d, hstore, hrelink, Option.bind_eq_bind, Option.bind_some]
  · have hkept := (hkept₂.trans hkept₃).mono (T := {P | ∃ base size, P = .block base size}) (by
      rintro P (rfl | ⟨x, -, rfl⟩)
      · exact ⟨_, _, rfl⟩
      · exact ⟨_, _, rfl⟩)
    rw [hheap₁] at hkept
    have hkeptPooled : Pooled O chunks free { R with oversized := o.addr } m₃.heap live :=
      hpooled.kept hkept (fun P hP => hP) rfl rfl
    exact hkeptPooled.live fun i => liveIn_cons_some hpool p i
  · have hserves : Serves O o ⟨p, request⟩ := ⟨rfl, rfl, rfl⟩
    have hisDesc : ∀ x ∈ o :: blocks, Matches (desc₃ x) x := by
      refine List.forall_mem_cons.mpr ⟨?_, fun x hx => ?_⟩
      · have hd : Matches d o := ⟨rfl, rfl, rfl⟩
        rw [← hself₂] at hd
        exact ⟨hd.size, hd.alignment, hd.currentSize⟩
      · have hx' := hover.isDesc x hx
        rw [← hdesc₂ x hx] at hx'
        exact ⟨hx'.size, hx'.alignment, hx'.currentSize⟩
    exact {
      good := hgood
      inHeap := hheap₃
      isDesc := hisDesc
      head := rfl
      linked := hover.linked.push hnodup
        ((congrArg OversizedBlock.next hself₂).trans hover.head) hself₃ fun x hx => by
          rw [← hdesc₂ x hx]
          exact ⟨rfl, rfl⟩
      cachedHead := hover.cachedHead
      cachedChain := hover.cachedChain.congr fun x hx => by
        rw [← hdesc₂ x (hover.served.cached_subset hx)]
      full := hover.full
      served := hover.served.new hpool hserves }

/-! ## 3. Allocation and deallocation -/

/-- What is taken from the cache for a request is aligned as the request asks. -/
def TakesAligned (O : PoolOptions) (R : UnsynchronizedPool) (m : Memory) (request : Request) : Prop :=
  ∀ q ptr d, searchCached O (room O request) request.alignment R m = some (some (q, ptr, d)) →
    d.alignment = request.alignment

/-- **An oversized allocation** has a result. -/
theorem allocateOversized_spec (u : Upstream) {m : Memory} {request : Request}
    (hpool : poolOf O request = none) (hpos : 0 < room O request) (hword : room O request + 48 < 2 ^ 64)
    (htakes : TakesAligned O R m request) (h : Inv O R m live) :
    ∃ answer R' m', allocateOversized O u (room O request) request.alignment R m =
        some (answer, R', m') ∧ Inv O R' m' (received request answer live) := by
  obtain ⟨chunks, free, blocks, cached, desc, hplaced, hpooled, hover⟩ := h
  have hsub : ∀ x ∈ cached, x ∈ blocks := fun x hx => hover.served.cached_subset hx
  obtain ⟨found, hsearch, hfound⟩ : ∃ found, searchCached O (room O request) request.alignment R m =
      some found ∧ ∀ q ptr d, found = some (q, ptr, d) → ∃ c₁ o c₂, cached = c₁ ++ o :: c₂ ∧
        ptr = o.addr ∧ d = desc o ∧ isGood O (room O request) request.alignment (desc o) = true ∧
        q = (c₁.getLast?.map Block.addr).or none := by
    rw [searchCached]
    split
    · have hfuel : cached.length < m.world.outstanding.length + 1 := by
        rw [hplaced.outstanding.length_eq, owned, List.length_append, List.length_map, List.length_map]
        have := hover.served.length_le
        omega
      rw [hover.cachedHead]
      exact findCached_spec _ _ (fun x hx => hover.good x (hsub x hx))
        (fun x hx => hover.inHeap x (hsub x hx)) hover.cachedChain _ hfuel none
    · exact ⟨none, rfl, fun q ptr d h => absurd h (by simp)⟩
  rcases found with _ | ⟨q, ptr, d⟩
  · simp only [allocateOversized, hsearch, Option.bind_eq_bind, Option.bind_some]
    exact newOversized_spec u hpool hpos hword ⟨chunks, free, blocks, cached, desc, hplaced, hpooled, hover⟩
  · have halign := htakes q ptr d hsearch
    obtain ⟨c₁, o, c₂, rfl, rfl, rfl, hisGood, rfl⟩ := hfound q ptr d rfl
    have ho : o ∈ blocks := hsub o (by simp)
    have hisDesc := hover.isDesc o ho
    have hle : room O request ≤ o.size := by
      simp only [isGood, Bool.and_eq_true, decide_eq_true_eq] at hisGood
      exact hisDesc.size ▸ hisGood.1.1.1
    obtain ⟨p, R', m', blocks', desc', htake, hworld, hpools, hallocated, hkept, hplaced', hover'⟩ :=
      takeCached_spec hplaced hover hpool hpos hle (hisDesc.alignment ▸ halign)
    refine ⟨some p, R', m', ?_, chunks, free, blocks', c₁ ++ c₂, desc', hplaced', ?_, hover'⟩
    · simp only [allocateOversized, hsearch, htake, Option.bind_eq_bind, Option.bind_some]
    · exact (hpooled.kept hkept (fun P hP => hP) hpools hallocated).live
        fun i => liveIn_cons_some hpool p i

/-- **An oversized block is given back.** -/
theorem deallocateOversized_spec {m : Memory} {b : Live} (hpool : poolOf O b.request = none)
    (h : Inv O R m (b :: live)) :
    ∃ R' m', deallocateOversized O b.pointer (room O b.request) b.request.alignment R m =
        some (R', m') ∧ Inv O R' m' live := by
  obtain ⟨chunks, free, blocks, cached, desc, hplaced, hpooled, hover⟩ := h
  have hpooled' : Pooled O chunks free R m.heap live := hpooled.live fun i =>
    (liveIn_cons_of_ne (by simp [hpool]) live).symm
  obtain ⟨o, rest, hserves, hperm, hserved⟩ := hover.served.back hpool
  have ho : o ∈ blocks := hperm.mem_iff.mpr List.mem_cons_self
  obtain ⟨l₁, l₂, rfl⟩ := List.append_of_mem ho
  have hrest : (l₁ ++ l₂).Perm rest := (List.perm_middle.symm.trans hperm).cons_inv
  have hisDesc := hover.isDesc o ho
  have hogood := hover.good o ho
  have haddr : b.pointer + room O b.request = o.addr := by
    rw [Block.addr, hserves.base, hserves.current]
  have hload := loadOversized_of_heap hogood.addr_ne (hover.inHeap o ho)
  have hassert : ¬ ((desc o).currentSize ≠ room O b.request ∨ (desc o).alignment ≠ b.request.alignment) := by
    rw [hisDesc.currentSize, hisDesc.alignment, hserves.current, hserves.alignment]
    simp
  simp only [deallocateOversized, haddr, hload, Option.bind_eq_bind, Option.bind_some]
  rw [if_neg hassert, ← hserves.base]
  split
  · -- the block is cached
    have hcached : ∀ x ∈ cached, x ∈ l₁ ++ l₂ := fun x hx =>
      hrest.mem_iff.mpr (hserved.cached_subset hx)
    obtain ⟨m₁, m', desc', hmoved, hstore, hworld, hkept, hheap', hlinked', hisDesc', hself, hothers⟩ :=
      resize_spec (d := { desc o with nextCached := R.cachedOversized }) hplaced hover.good hover.inHeap
        hover.linked hover.isDesc ⟨hisDesc.size, hisDesc.alignment, hisDesc.currentSize⟩ ⟨rfl, rfl⟩
        hover.head ((desc o).size != room O b.request) (desc o).size
        (by rw [bne_eq_false_iff_eq, hserves.current])
        (hogood.resized (hisDesc.size ▸ hogood.pos.trans_le hogood.le) hisDesc.size.le)
    rw [hmoved, Option.bind_some, hstore, Option.bind_some]
    have hfull : (o.resized (desc o).size).current = (o.resized (desc o).size).size := hisDesc.size
    refine ⟨_, m', rfl, chunks, free, l₁ ++ o.resized (desc o).size :: l₂,
      o.resized (desc o).size :: cached, desc', hworld ▸ hplaced.resized _, ?_, ?_⟩
    · exact hpooled'.kept hkept (fun P hP => hP) rfl rfl
    · exact {
        good := by
          intro x hx
          rcases List.mem_cons.mp (List.perm_middle.mem_iff.mp hx) with rfl | hx
          · exact hogood.resized (hisDesc.size ▸ hogood.pos.trans_le hogood.le) hisDesc.size.le
          · exact hover.good x (List.perm_middle.mem_iff.mpr (List.mem_cons_of_mem _ hx))
        inHeap := hheap'
        isDesc := hisDesc'
        head := rfl
        linked := hlinked'
        cachedHead := rfl
        cachedChain := ⟨hself.trans hover.cachedHead, hover.cachedChain.congr fun x hx =>
          hothers x (hcached x hx)⟩
        full := List.forall_mem_cons.mpr ⟨hfull, hover.full⟩
        served := hserved.cache.perm (List.perm_middle.trans (hrest.cons _)) (List.Perm.refl _) }
  · -- the block is given back to the upstream resource
    obtain ⟨hnext, hprev⟩ := hover.linked.neighbours
    obtain ⟨m₁, hrelink, hworld₁, hkept₁, hheap₁⟩ := relink_spec hplaced hover.good hover.inHeap hprev
      hnext hover.head (desc o).next (desc o).prev
    have hsize : ((desc o).size + 48) % 2 ^ 64 = o.size + 48 := by
      rw [hisDesc.size, Nat.mod_eq_of_lt hogood.word]
    have howned : m₁.world.outstanding.Perm (⟨o.base, o.size + 48, o.alignment⟩ ::
        owned O chunks (l₁ ++ l₂)) := by
      rw [hworld₁]
      refine hplaced.outstanding.trans ?_
      simp only [owned, List.map_append, List.map_cons, ← List.append_assoc]
      exact List.perm_middle
    obtain ⟨w', hback, hw, hsub⟩ := doDeallocate_of_perm howned
    have hplaced' : Placed O chunks (l₁ ++ l₂) w' := ⟨hw, (hworld₁ ▸ hplaced.held).sublist hsub⟩
    have hkept' := kept_clear (hworld₁ ▸ hplaced) (P := o.parcel) ⟨o, ho, rfl, rfl⟩ le_rfl le_rfl m₁.heap
    have hdealloc : m₁.doDeallocate o.base (o.size + 48) o.alignment =
        some ⟨w', m₁.heap.clear o.base (o.size + 48)⟩ := by
      rw [Memory.doDeallocate, hback]
      rfl
    rw [hrelink, Option.bind_some, hsize, hisDesc.alignment, hdealloc, Option.bind_some]
    refine ⟨_, _, rfl, chunks, free, l₁ ++ l₂, cached,
      relinked l₁ l₂ (desc o).next (desc o).prev desc, hplaced', ?_, ?_⟩
    · refine hpooled'.kept ((hkept₁.trans hkept').mono (T := {P | ∃ base size, P = .block base size}) ?_)
        (fun P hP => hP) rfl rfl
      rintro P (⟨x, -, rfl⟩ | rfl)
      · exact ⟨_, _, rfl⟩
      · exact ⟨_, _, rfl⟩
    · have hothers : ∀ x ∈ l₁ ++ l₂, x ∈ l₁ ++ o :: l₂ ∧ x ≠ o := fun x hx => ne_of_mem_others hplaced hx
      exact {
        good := fun x hx => hover.good x (hothers x hx).1
        inHeap := by
          intro x hx
          obtain ⟨hmem, hne⟩ := hothers x hx
          have hwithin := (hover.good x hmem).within O
          exact hkept' x.parcel ⟨x, hmem, rfl, rfl⟩ (parcel_ne hplaced hmem ho hne) _ _ (hheap₁ x hmem)
            hwithin.1 hwithin.2
        isDesc := fun x hx => by
          have hx' := hover.isDesc x (hothers x hx).1
          exact ⟨hx'.size, hx'.alignment, hx'.currentSize⟩
        head := by rw [first_append, ← hnext]
        linked := hover.linked.takeOut hplaced.blocks_nodup
        cachedHead := hover.cachedHead
        cachedChain := hover.cachedChain
        full := hover.full
        served := hserved.perm hrest (List.Perm.refl _) }

end Cccl.Pool.UnsynchronizedPool
