/-
# An oversized block is taken from the cache or put into it

If the size that the user has of an oversized block changes, then its descriptor is moved, and its neighbours
in the list of all oversized blocks get other links (`moveDescriptor_spec`).  If it does not, then these links
are what they should be already.  So a block is replaced by one that is the same but for its size
(`replace_chains`), whatever list of cached blocks it is in.
-/
import Cccl.Pool.UnsynchronizedInv

namespace Cccl.Pool.UnsynchronizedPool

open Regions Chains

variable {O : PoolOptions} {chunks : List Chunk} {l₁ l₂ : List Block} {o : Block}
  {desc : Block → OversizedBlock}

/-- The block, of which the user has `n` bytes. -/
def Block.resized (o : Block) (n : ℕ) : Block := { o with current := n }

theorem reverse_append_cons (l₁ l₂ : List Block) (o : Block) :
    (l₁ ++ o :: l₂).reverse = l₂.reverse ++ o :: l₁.reverse := by simp

theorem Linked.neighbours (h : Linked desc (l₁ ++ o :: l₂)) :
    (desc o).next = first Block.addr l₂ 0 ∧ (desc o).prev = first Block.addr l₁.reverse 0 := by
  have hprev := h.prev
  rw [reverse_append_cons] at hprev
  exact ⟨(chain_append.mp h.next).2.1, (chain_append.mp hprev).2.1⟩

theorem Linked.relinked_self (h : Linked desc (l₁ ++ o :: l₂)) :
    relinked l₁ l₂ o.addr o.addr desc = desc := by
  funext x
  have hprev := h.prev
  rw [reverse_append_cons] at hprev
  have hnext' : (if l₁.getLast? = some x then o.addr else (desc x).next) = (desc x).next := by
    split
    · rename_i hlast
      exact (h.next.next_of_getLast? hlast).symm
    · rfl
  have hprev' : (if l₂.head? = some x then o.addr else (desc x).prev) = (desc x).prev := by
    split
    · rename_i hhead
      rw [← List.getLast?_reverse] at hhead
      exact (hprev.next_of_getLast? hhead).symm
    · rfl
  rw [relinked, hnext', hprev']

/-- **A block is replaced by one that is elsewhere.** -/
theorem Linked.replace (h : Linked desc (l₁ ++ o :: l₂)) (hnodup : (l₁ ++ o :: l₂).Nodup) {o' : Block}
    {desc' : Block → OversizedBlock} (hself : (desc' o').next = (desc o).next ∧
      (desc' o').prev = (desc o).prev)
    (hother : ∀ x ∈ l₁ ++ l₂,
      (desc' x).next = (relinked l₁ l₂ o'.addr o'.addr desc x).next ∧
      (desc' x).prev = (relinked l₁ l₂ o'.addr o'.addr desc x).prev) :
    Linked desc' (l₁ ++ o' :: l₂) where
  next := by
    obtain ⟨hbefore, hx, hafter⟩ := h.next.takeOut hnodup (fun x => (desc' x).next) o'.addr
      fun x hx => (hother x hx).1
    exact chain_append.mpr ⟨hbefore, hself.1.trans hx, hafter⟩
  prev := by
    have hprev := h.prev
    rw [← List.nodup_reverse] at hnodup
    rw [reverse_append_cons] at hprev hnodup ⊢
    obtain ⟨hbefore, hx, hafter⟩ := hprev.takeOut hnodup (fun x => (desc' x).prev) o'.addr
      fun x hx => by
        rw [List.getLast?_reverse]
        refine (hother x ?_).2
        simpa [or_comm] using hx
    exact chain_append.mpr ⟨hbefore, hself.2.trans hx, hafter⟩

theorem Linked.takeOut (h : Linked desc (l₁ ++ o :: l₂)) (hnodup : (l₁ ++ o :: l₂).Nodup) :
    Linked (relinked l₁ l₂ (desc o).next (desc o).prev desc) (l₁ ++ l₂) where
  next := by
    obtain ⟨hbefore, hx, hafter⟩ := h.next.takeOut hnodup
      (fun x => (relinked l₁ l₂ (desc o).next (desc o).prev desc x).next) (desc o).next fun x _ => rfl
    exact chain_append.mpr ⟨hx ▸ hbefore, hafter⟩
  prev := by
    have hprev := h.prev
    rw [← List.nodup_reverse] at hnodup
    rw [reverse_append_cons] at hprev hnodup
    obtain ⟨hbefore, hx, hafter⟩ := hprev.takeOut hnodup
      (fun x => (relinked l₁ l₂ (desc o).next (desc o).prev desc x).prev) (desc o).prev fun x _ => by rw [List.getLast?_reverse]; rfl
    rw [List.reverse_append]
    exact chain_append.mpr ⟨hx ▸ hbefore, hafter⟩

theorem Linked.push {l : List Block} (h : Linked desc l) (hnodup : l.Nodup) {o : Block}
    {desc' : Block → OversizedBlock} (hnext : (desc' o).next = first Block.addr l 0)
    (hprev : (desc' o).prev = 0)
    (hother : ∀ x ∈ l, (desc' x).next = (desc x).next ∧
      (desc' x).prev = if l.head? = some x then o.addr else (desc x).prev) :
    Linked desc' (o :: l) where
  next := ⟨hnext, h.next.congr fun x hx => (hother x hx).1⟩
  prev := by
    rw [List.reverse_cons]
    refine chain_append.mpr ⟨?_, hprev, trivial⟩
    refine h.prev.setEnd (List.nodup_reverse.mpr hnodup) fun x hx => ?_
    rw [List.getLast?_reverse]
    exact (hother x (List.mem_reverse.mp hx)).2

/-- **The descriptor of a block is moved**, if it should be. -/
theorem moveDescriptor_spec {m : Memory} {R : UnsynchronizedPool} {d : OversizedBlock}
    (hplaced : Placed O chunks (l₁ ++ o :: l₂) m.world) (hgood : ∀ x ∈ l₁ ++ o :: l₂, x.Good)
    (hheap : InHeap m.heap desc (l₁ ++ o :: l₂)) (hlinked : Linked desc (l₁ ++ o :: l₂))
    (hd : d.next = (desc o).next ∧ d.prev = (desc o).prev ∧ d.currentSize = o.current)
    (hhead : R.oversized = first Block.addr (l₁ ++ o :: l₂) 0) {move : Bool} {n : ℕ}
    (hmove : move = false ↔ n = o.current) :
    ∃ m', moveDescriptor move o.base n o.addr d R m =
        some ((o.resized n).addr, { d with currentSize := n },
          { R with oversized := first Block.addr (l₁ ++ o.resized n :: l₂) 0 }, m') ∧
      m'.world = m.world ∧
      Kept O chunks (l₁ ++ o :: l₂) {P | ∃ x ∈ l₁ ++ l₂, P = x.parcel} m.heap m'.heap ∧
      InHeap m'.heap (relinked l₁ l₂ (o.resized n).addr (o.resized n).addr desc) (l₁ ++ o :: l₂) := by
  obtain ⟨hnext, hprev⟩ := hlinked.neighbours
  cases move with
  | false =>
    obtain rfl := hmove.mp rfl
    have hself : o.resized o.current = o := rfl
    have hdself : { d with currentSize := o.current } = d := by rw [← hd.2.2]
    rw [hself, hlinked.relinked_self, hdself, ← hhead]
    exact ⟨m, rfl, rfl, Kept.refl _, hheap⟩
  | true =>
    obtain ⟨m', hrelink, hworld, hkept, hheap'⟩ := relink_spec (d := { d with currentSize := n })
      hplaced hgood hheap (hd.2.1.trans hprev) (hd.1.trans hnext) hhead (o.resized n).addr
      (o.resized n).addr
    refine ⟨m', ?_, hworld, hkept, hheap'⟩
    rw [first_append]
    rw [moveDescriptor, if_pos rfl]
    change (relink { d with currentSize := n } (o.resized n).addr (o.resized n).addr R m).bind _ = _
    rw [hrelink]
    rfl

theorem Placed.base_ne {w : World} {blocks : List Block} (hplaced : Placed O chunks blocks w)
    {x y : Block} (hx : x ∈ blocks) (hy : y ∈ blocks) (hne : x ≠ y) : x.base ≠ y.base :=
  (apart_of_pairwise hplaced.blocks_apart hx hy hne).ne (by omega) (by omega)

theorem ne_of_mem_others {w : World} (hplaced : Placed O chunks (l₁ ++ o :: l₂) w) {x : Block}
    (hx : x ∈ l₁ ++ l₂) : x ∈ l₁ ++ o :: l₂ ∧ x ≠ o := by
  have hmem : x ∈ l₁ ++ o :: l₂ := by
    rcases List.mem_append.mp hx with hx | hx
    · exact List.mem_append_left _ hx
    · exact List.mem_append_right _ (List.mem_cons_of_mem _ hx)
  refine ⟨hmem, ?_⟩
  rintro rfl
  have hnodup := (List.perm_middle.nodup_iff.mp hplaced.blocks_nodup)
  exact (List.nodup_cons.mp hnodup).1 hx

/-- A block that is resized is what it was for the upstream resource. -/
theorem Placed.resized {w : World} (h : Placed O chunks (l₁ ++ o :: l₂) w) (n : ℕ) :
    Placed O chunks (l₁ ++ o.resized n :: l₂) w where
  outstanding := by
    have howned : owned O chunks (l₁ ++ o.resized n :: l₂) = owned O chunks (l₁ ++ o :: l₂) := by
      simp only [owned, List.map_append, List.map_cons]
      rfl
    exact howned ▸ h.outstanding
  held := h.held

/-- **A block is resized.**  Its descriptor is written to where it should be now. -/
theorem resize_spec {m : Memory} {R : UnsynchronizedPool} {d : OversizedBlock}
    (hplaced : Placed O chunks (l₁ ++ o :: l₂) m.world) (hgood : ∀ x ∈ l₁ ++ o :: l₂, x.Good)
    (hheap : InHeap m.heap desc (l₁ ++ o :: l₂)) (hlinked : Linked desc (l₁ ++ o :: l₂))
    (hisDesc : ∀ x ∈ l₁ ++ o :: l₂, Matches (desc x) x) (hd : Matches d o)
    (hlinks : d.next = (desc o).next ∧ d.prev = (desc o).prev)
    (hhead : R.oversized = first Block.addr (l₁ ++ o :: l₂) 0) (move : Bool) (n : ℕ)
    (hmove : move = false ↔ n = o.current) (hn : (o.resized n).Good) :
    ∃ m₁ m' desc', moveDescriptor move o.base n o.addr d R m =
        some ((o.resized n).addr, { d with currentSize := n },
          { R with oversized := first Block.addr (l₁ ++ o.resized n :: l₂) 0 }, m₁) ∧
      m₁.store (o.resized n).addr (.oversized { d with currentSize := n }) = some m' ∧
      m'.world = m.world ∧
      Kept O chunks (l₁ ++ o :: l₂) {P | ∃ base size, P = .block base size} m.heap m'.heap ∧
      InHeap m'.heap desc' (l₁ ++ o.resized n :: l₂) ∧ Linked desc' (l₁ ++ o.resized n :: l₂) ∧
      (∀ x ∈ l₁ ++ o.resized n :: l₂, Matches (desc' x) x) ∧
      (desc' (o.resized n)).nextCached = d.nextCached ∧
      ∀ x ∈ l₁ ++ l₂, (desc' x).nextCached = (desc x).nextCached := by
  obtain ⟨m₁, hmoved, hworld₁, hkept₁, hheap₁⟩ := moveDescriptor_spec hplaced hgood hheap hlinked
    ⟨hlinks.1, hlinks.2, hd.currentSize⟩ hhead hmove
  have ho : o ∈ l₁ ++ o :: l₂ := by simp
  have hwithin := hn.within O
  obtain ⟨m', hstore, hworld', hnew, hkept'⟩ := store_spec (m := m₁)
    (d := .oversized { d with currentSize := n }) (hworld₁ ▸ hplaced) (P := o.parcel) ⟨o, ho, rfl, rfl⟩
    hwithin.1 hwithin.2
  let desc' : Block → OversizedBlock := fun x =>
    if x = o.resized n then { d with currentSize := n }
    else relinked l₁ l₂ (o.resized n).addr (o.resized n).addr desc x
  have hself : desc' (o.resized n) = { d with currentSize := n } := if_pos rfl
  have hother : ∀ x ∈ l₁ ++ l₂,
      desc' x = relinked l₁ l₂ (o.resized n).addr (o.resized n).addr desc x := by
    intro x hx
    obtain ⟨hmem, hne⟩ := ne_of_mem_others hplaced hx
    refine if_neg fun heq => hplaced.base_ne hmem ho hne ?_
    rw [heq]
    rfl
  have hall : ∀ {p : Block → Prop}, p (o.resized n) → (∀ x ∈ l₁ ++ l₂, p x) →
      ∀ x ∈ l₁ ++ o.resized n :: l₂, p x := by
    intro p hp hrest x hx
    rcases List.mem_append.mp hx with hx | hx
    · exact hrest x (List.mem_append_left _ hx)
    · rcases List.mem_cons.mp hx with rfl | hx
      · exact hp
      · exact hrest x (List.mem_append_right _ hx)
  refine ⟨m₁, m', desc', hmoved, hstore, hworld'.trans hworld₁, (hkept₁.trans hkept').mono ?_, ?_, ?_,
    ?_, by rw [hself], fun x hx => by rw [hother x hx]; rfl⟩
  · rintro P (⟨x, -, rfl⟩ | rfl)
    · exact ⟨_, _, rfl⟩
    · exact ⟨_, _, rfl⟩
  · refine hall (by rw [hnew, hself]) fun x hx => ?_
    obtain ⟨hmem, hne⟩ := ne_of_mem_others hplaced hx
    have hxwithin := (hgood x hmem).within O
    rw [hother x hx]
    exact hkept' x.parcel ⟨x, hmem, rfl, rfl⟩ (parcel_ne hplaced hmem ho hne) _ _ (hheap₁ x hmem)
      hxwithin.1 hxwithin.2
  · refine hlinked.replace hplaced.blocks_nodup ?_ fun x hx => ?_
    · rw [hself]
      exact hlinks
    · rw [hother x hx]
      exact ⟨rfl, rfl⟩
  · refine hall ?_ fun x hx => ?_
    · rw [hself]
      exact ⟨hd.size, hd.alignment, rfl⟩
    · have hx' := hisDesc x (ne_of_mem_others hplaced hx).1
      rw [hother x hx]
      exact ⟨hx'.size, hx'.alignment, hx'.currentSize⟩

end Cccl.Pool.UnsynchronizedPool
