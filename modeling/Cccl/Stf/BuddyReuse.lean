/-
# Memory of the buddy allocator and its previous users

A block that is given back comes with the events of its users, and whoever gets any of its bytes
next has to wait for them.  So the events follow the bytes: every free block carries, for each of
its bytes, the events of the byte's last deallocation (`EventsKept`).  Splitting a block hands its
events to both parts, so requests keep this.

A deallocation that merges enters the block with its own events only; those of the buddies it
merges with are collected on the way and dropped.  It keeps the invariant where the buddies have
nothing to add (`BuddiesDone`), and `buddy_reuse_lost` is a run where they have.
-/
import Cccl.Stf.BuddyLayout

namespace Cccl.Stf

open BuddyAllocatorMetadata

variable {E : Type*}

/-! ## 1. What is asked of a deallocation -/

/-- The buddy of the block of a level around an offset. -/
def buddyAround (index level : ℕ) : ℕ :=
  getBuddyIndex (index / 2 ^ level * 2 ^ level) level

/-- **The buddies have nothing to add**: for each level up to which all buddies of a block given back
are free, the events of the last deallocation of each byte of that buddy are among those the block is
given back with. -/
def BuddiesDone (s : BuddyState E) : BuddyAction E → Prop
  | .allocate _ _ => True
  | .deallocate index size prereqs =>
    ∀ l, Nat.clog 2 size ≤ l → l + 1 < s.data.levels →
      (∀ l', Nat.clog 2 size ≤ l' → l' ≤ l →
        ∃ b ∈ s.data.freeLists l', b.index = buddyAround index l') →
      ∀ x, InBlock l (buddyAround index l) x → s.released x ⊆ prereqs

/-- Every free block carries the events of its bytes. -/
def EventsKept (s : BuddyState E) : Prop :=
  ∀ l, ∀ b ∈ s.data.freeLists l, ∀ x, InBlock l b.index x → s.released x ⊆ b.prereqs

/-- **Safe reuse**: whatever block a request is given, the prerequisites it leaves with contain the
events of the last deallocation of each byte of the block. -/
def SafeReuse (s : BuddyState E) : Prop :=
  ∀ size < 2 ^ 64, ∀ prereqs r index, s.data.allocate size prereqs = some r →
    r.index = some index → ∀ x, InBlock (Nat.clog 2 size) index x → s.released x ⊆ r.prereqs

/-! ## 2. Blocks around an offset -/

theorem inBlock_around (index level : ℕ) : InBlock level (index / 2 ^ level * 2 ^ level) index := by
  have hpos := Nat.two_pow_pos level
  have hdiv := Nat.div_add_mod index (2 ^ level)
  have hmod := Nat.mod_lt index hpos
  rw [Nat.mul_comm] at hdiv
  exact ⟨by omega, by omega⟩

theorem eq_around {index level lower : ℕ} (hdvd : 2 ^ level ∣ lower)
    (hin : InBlock level lower index) : lower = index / 2 ^ level * 2 ^ level := by
  obtain ⟨q, rfl⟩ := hdvd
  obtain ⟨h1, h2⟩ := hin
  rw [← Nat.mul_succ] at h2
  have hq : index / 2 ^ level = q := by
    refine Nat.div_eq_of_lt_le ?_ ?_
    · rwa [Nat.mul_comm]
    · rwa [Nat.mul_comm]
  rw [hq, Nat.mul_comm]

/-- Merging with the buddy gives the block around the offset one level up. -/
theorem min_buddyAround (index level : ℕ) :
    min (index / 2 ^ level * 2 ^ level) (buddyAround index level)
      = index / 2 ^ (level + 1) * 2 ^ (level + 1) := by
  have hdouble : 2 ^ (level + 1) = 2 ^ level + 2 ^ level := by rw [pow_succ]; omega
  have hdvd : 2 ^ level ∣ index / 2 ^ level * 2 ^ level := Nat.dvd_mul_left _ _
  obtain ⟨h1, h2⟩ := inBlock_around index level
  rcases getBuddyIndex_cases hdvd with ⟨heven, hbuddy⟩ | ⟨lower, hlower, hodd, hbuddy⟩
  · rw [buddyAround, hbuddy, min_eq_left (by omega)]
    exact eq_around heven ⟨h1, by omega⟩
  · rw [buddyAround, hbuddy, min_eq_right (by omega)]
    exact eq_around hlower ⟨by omega, by omega⟩

theorem inBlock_parent {index level x : ℕ}
    (h : InBlock (level + 1) (index / 2 ^ (level + 1) * 2 ^ (level + 1)) x) :
    InBlock level (index / 2 ^ level * 2 ^ level) x ∨ InBlock level (buddyAround index level) x := by
  have hdouble : 2 ^ (level + 1) = 2 ^ level + 2 ^ level := by rw [pow_succ]; omega
  have hdvd : 2 ^ level ∣ index / 2 ^ level * 2 ^ level := Nat.dvd_mul_left _ _
  rw [← min_buddyAround] at h
  unfold InBlock buddyAround at *
  rcases getBuddyIndex_cases hdvd with ⟨-, hbuddy⟩ | ⟨lower, -, hodd, hbuddy⟩
  · rw [hbuddy] at h ⊢
    omega
  · rw [hbuddy] at h ⊢
    omega

/-! ## 3. The calls -/

/-- **A request leaves with the events of its bytes.** -/
theorem EventsKept.safeReuse {s : BuddyState E} (h : EventsKept s) : SafeReuse s := by
  intro size hsize prereqs r index hr hindex x hx
  rcases allocate_cases hsize hr with ⟨rfl, -⟩ | ⟨c, b, rest, hle, -, hlist, -, rfl⟩
  · exact absurd hindex (by simp)
  obtain rfl := Option.some.inj hindex
  have hpow : 2 ^ Nat.clog 2 size ≤ 2 ^ c := Nat.pow_le_pow_right (by omega) hle
  have hin : InBlock c b.index x := ⟨hx.1, by have := hx.2; omega⟩
  exact List.Subset.trans (h c b (by simp [hlist]) x hin) (List.subset_append_right _ _)

theorem EventsKept.allocate {s : BuddyState E} {size : ℕ} {prereqs : List E} {r : Allocation E}
    {live : List (ℕ × ℕ)} (h : EventsKept s) (hsize : size < 2 ^ 64)
    (hr : s.data.allocate size prereqs = some r) : EventsKept { s with data := r.data, live := live } := by
  rcases allocate_cases hsize hr with ⟨rfl, -⟩ | ⟨c, b, rest, hle, -, hlist, -, rfl⟩
  · exact h
  have hrest : ∀ l, ∀ b' ∈ Function.update s.data.freeLists c rest l, b' ∈ s.data.freeLists l := by
    intro l b' hb'
    rcases eq_or_ne l c with rfl | hl
    · rw [Function.update_self] at hb'
      simp [hlist, hb']
    · rwa [Function.update_of_ne hl] at hb'
  intro l b' hb' x hx
  simp only [split_apply] at hb'
  split at hb'
  · rename_i hl
    rcases List.mem_append.mp hb' with hb' | hb'
    · exact h l b' (hrest l b' hb') x hx
    · obtain rfl := List.mem_singleton.mp hb'
      have hpow : 2 ^ (l + 1) ≤ 2 ^ c := Nat.pow_le_pow_right (by omega) (by omega)
      have hdouble : 2 ^ (l + 1) = 2 ^ l + 2 ^ l := by rw [pow_succ]; omega
      obtain ⟨h1, h2⟩ := hx
      simp only at h1 h2
      exact h c b (by simp [hlist]) x ⟨by omega, by omega⟩
  · exact h l b' (hrest l b' hb') x hx

/-- What the loop of `deallocate` has in hand is the block around the offset; all buddies below its
level were free, and what it has not come to is as it was. -/
structure MergeInv (s : BuddyState E) (index level : ℕ) (t : Merge E) : Prop where
  le : level ≤ t.level
  around : t.index = index / 2 ^ t.level * 2 ^ t.level
  merged : ∀ l, level ≤ l → l < t.level → ∃ b ∈ s.data.freeLists l, b.index = buddyAround index l
  above : ∀ l, t.level ≤ l → t.freeLists l = s.data.freeLists l
  subset : ∀ l, t.freeLists l ⊆ s.data.freeLists l
  covers : ∀ x, InBlock t.level t.index x → InBlock level index x ∨
    ∃ l, level ≤ l ∧ l < t.level ∧ InBlock l (buddyAround index l) x

theorem MergeInv.step {s : BuddyState E} {index level : ℕ} {t : Merge E} {b : AvailBlock E}
    (h : MergeInv s index level t) (hb : b ∈ t.freeLists t.level)
    (hbuddy : b.index = getBuddyIndex t.index t.level) :
    MergeInv s index level ⟨t.level + 1, min t.index b.index, t.blockPrereqs ++ b.prereqs,
      Function.update t.freeLists t.level
        ((t.freeLists t.level).eraseP fun b' => b'.index = b.index)⟩ := by
  have hle := h.le
  have haround : b.index = buddyAround index t.level := by rw [hbuddy, h.around, buddyAround]
  have hup : min t.index b.index = index / 2 ^ (t.level + 1) * 2 ^ (t.level + 1) := by
    rw [haround, h.around, min_buddyAround]
  refine ⟨by simp only; omega, hup, fun l h1 h2 => ?_, fun l hl => ?_, fun l => ?_, fun x hx => ?_⟩
  · rcases eq_or_ne l t.level with rfl | hne
    · exact ⟨b, by rw [← h.above _ le_rfl]; exact hb, haround⟩
    · exact h.merged l h1 (by simp only at h2; omega)
  · simp only at hl ⊢
    rw [Function.update_of_ne (by omega)]
    exact h.above l (by omega)
  · rcases eq_or_ne l t.level with rfl | hne
    · simp only [Function.update_self]
      exact List.Subset.trans List.eraseP_subset (h.subset _)
    · simp only [Function.update_of_ne hne]
      exact h.subset l
  · simp only [hup] at hx
    rcases inBlock_parent hx with hx | hx
    · rw [← h.around] at hx
      rcases h.covers x hx with hx | ⟨l, h1, h2, hx⟩
      · exact Or.inl hx
      · exact Or.inr ⟨l, h1, by simp only; omega, hx⟩
    · exact Or.inr ⟨t.level, hle, by simp, hx⟩

theorem LayoutInv.disjoint {k : ℕ} {s : BuddyState E} (h : LayoutInv k s) {index size l x : ℕ}
    {b : AvailBlock E} (hlive : (index, size) ∈ s.live) (hb : b ∈ s.data.freeLists l)
    (hx : InBlock (Nat.clog 2 size) index x) : ¬ InBlock l b.index x := by
  intro hin
  have hal := h.free.aligned l b hb
  have hcover := h.cover x (lt_of_lt_of_le hin.2 hal.le)
  have hfree : 1 ≤ freeCover (k + 1) s.data.freeLists x := by
    have hpos : 1 ≤ (s.data.freeLists l).countP fun b => InBlock l b.index x :=
      List.countP_pos_iff.mpr ⟨b, hb, by simpa using hin⟩
    exact hpos.trans (Finset.single_le_sum
      (f := fun l => (s.data.freeLists l).countP fun b => InBlock l b.index x)
      (fun _ _ => Nat.zero_le _) (Finset.mem_range.mpr (Nat.lt_succ_of_le hal.level_le)))
  have hlive' : 1 ≤ liveCover s.live x :=
    List.countP_pos_iff.mpr ⟨_, hlive, by simpa using hx⟩
  omega

/-- **A deallocation keeps the events of the bytes** where the buddies have nothing to add. -/
theorem EventsKept.deallocate {k index size : ℕ} {s : BuddyState E} {prereqs : List E}
    {m : BuddyAllocatorMetadata E} {live : List (ℕ × ℕ)} (h : EventsKept s) (hinv : LayoutInv k s)
    (hdone : BuddiesDone s (.deallocate index size prereqs)) (hlive : (index, size) ∈ s.live)
    (hsize : size < 2 ^ 64) (hm : s.data.deallocate index size prereqs = some m) :
    EventsKept ⟨m, live, fun x =>
      if InBlock (Nat.clog 2 size) index x then prereqs else s.released x⟩ := by
  obtain ⟨t, ht, rfl⟩ := deallocate_some hsize hm
  have hblock : Aligned k (Nat.clog 2 size) index := hinv.live _ hlive
  have hle := hblock.level_le
  have hlevels := hinv.levels
  have hstart : MergeInv s index (Nat.clog 2 size)
      ⟨Nat.clog 2 size, index, prereqs, s.data.freeLists⟩ := by
    refine ⟨le_rfl, ?_, fun l h1 h2 => ?_, fun _ _ => rfl, fun _ => List.Subset.refl _,
      fun x hx => Or.inl hx⟩
    · exact eq_around hblock.dvd ⟨le_rfl, Nat.lt_add_of_pos_right (Nat.two_pow_pos _)⟩
    · simp only at h2
      omega
  have hrule := mergeBuddies_rule
    (P := fun t : Merge E => MergeInv s index (Nat.clog 2 size) t ∧ t.level ≤ k) k
    (fun t b ht hlt hb hbuddy => ⟨ht.1.step hb hbuddy, hlt⟩)
    (s.data.levels - 1 - Nat.clog 2 size) _ (by simp only; omega) ⟨hstart, hle⟩
  rw [ht] at hrule
  obtain ⟨⟨hend, htop⟩, -⟩ := hrule
  intro l b hb x hx
  have hold : ∀ b ∈ s.data.freeLists l, InBlock l b.index x →
      (if InBlock (Nat.clog 2 size) index x then prereqs else s.released x) ⊆ b.prereqs := by
    intro b hb hx
    rw [if_neg fun hx' => hinv.disjoint hlive hb hx' hx]
    exact h l b hb x hx
  rcases eq_or_ne l t.level with rfl | hl
  swap
  · simp only [push, Function.update_of_ne hl] at hb
    exact hold b (hend.subset l hb) hx
  simp only [push, Function.update_self] at hb
  rcases List.mem_append.mp hb with hb | hb
  · exact hold b (hend.subset _ hb) hx
  · obtain rfl := List.mem_singleton.mp hb
    simp only at hx ⊢
    split
    · exact List.Subset.refl _
    · rename_i hout
      rcases hend.covers x hx with hin | ⟨l, h1, h2, hin⟩
      · exact absurd hin hout
      · exact hdone l h1 (by omega) (fun l' h1' h2' => hend.merged l' h1' (by omega)) x hin

/-! ## 4. Every run -/

/-- **Memory is reused safely in every run in which the buddies have nothing to add**: whatever block
a request is given, it waits for the last users of each byte of the block, or for the initial
prerequisites where there were none. -/
theorem buddy_reuse (k : ℕ) (initPrereqs : List E) (s : BuddyState E)
    (h : (buddyRuns (2 ^ k) initPrereqs BuddiesDone).Reachable s) : SafeReuse s := by
  have hkept : EventsKept s := by
    induction h with
    | init hs =>
      obtain ⟨-, m, hm, rfl⟩ := hs
      intro l b hb x hx
      unfold create at hm
      split at hm
      swap
      · exact absurd hm (by simp)
      obtain ⟨level, -, rfl⟩ := Option.map_eq_some_iff.mp hm
      rcases eq_or_ne l level with rfl | hl
      · simp only [if_true, List.mem_singleton] at hb
        rw [hb]
        exact List.Subset.refl _
      · simp [hl] at hb
    | step hreach hstep ih =>
      obtain ⟨huse, hstep⟩ := hstep
      cases hstep with
      | allocate hsize hr => exact ih.allocate hsize hr
      | deallocate hlive hsize hm =>
        exact ih.deallocate (LayoutInv.of_reachable hreach) huse hlive hsize hm
  exact hkept.safeReuse

/-- The halves of a memory of two bytes are handed out and given back; the users of the second have
waited for those of the first. -/
theorem buddy_reuse_halves :
    ∃ s, (buddyRuns (2 ^ 1) ([] : List ℕ) BuddiesDone).Reachable s ∧ s.released 0 = [10] ∧
      s.released 1 = [10, 11] ∧ SafeReuse s := by
  have hone : levelOf 1 = some 0 := levelOf_two_pow (l := 0) (by omega)
  have hcreate : create (2 ^ 1) ([] : List ℕ)
      = some ⟨2, fun l => if l = 1 then [⟨0, []⟩] else []⟩ := by
    rw [create, levelOf_two_pow (by omega)]
    rfl
  have hreach : ∃ s, (buddyRuns (2 ^ 1) ([] : List ℕ) BuddiesDone).Reachable s ∧
      s.released 0 = [10] ∧ s.released 1 = [10, 11] := by
    refine ⟨_, .step (a := .deallocate 1 1 [10, 11]) (.step (a := .deallocate 0 1 [10])
      (.step (a := .allocate 1 []) (.step (a := .allocate 1 [])
        (.init ⟨by decide, _, hcreate, rfl⟩)
        ⟨trivial, .allocate (by decide) (by rw [BuddyAllocatorMetadata.allocate, hone]; rfl)⟩)
        ⟨trivial, .allocate (by decide) (by rw [BuddyAllocatorMetadata.allocate, hone]; rfl)⟩)
      ⟨?_, .deallocate (by decide) (by decide)
        (by rw [BuddyAllocatorMetadata.deallocate, hone]; rfl)⟩)
      ⟨?_, .deallocate (by decide) (by decide)
        (by rw [BuddyAllocatorMetadata.deallocate, hone]; rfl)⟩, rfl, rfl⟩
    · -- the other half is live
      intro l _ hl hfree
      obtain ⟨b, hb, -⟩ := hfree 0 (by simp) (Nat.zero_le l)
      change b ∈ [] at hb
      exact absurd hb (by simp)
    · intro l _ hl _ x hx
      change l + 1 < 2 at hl
      obtain rfl : l = 0 := by omega
      obtain rfl : x = 0 := by
        change 0 ≤ x ∧ x < 0 + 1 at hx
        omega
      change [10] ⊆ [10, 11]
      simp
  obtain ⟨s, hs, h0, h1⟩ := hreach
  exact ⟨s, hs, h0, h1, buddy_reuse 1 [] s hs⟩

/-- Both halves are given back, each with its own event.  The memory is one block again, and whoever
gets it waits for the users of the half given back last. -/
theorem buddy_reuse_lost :
    ∃ s, (buddyRuns (2 ^ 1) ([] : List ℕ) fun _ _ => True).Reachable s ∧ ¬ SafeReuse s := by
  have hone : levelOf 1 = some 0 := levelOf_two_pow (l := 0) (by omega)
  have htwo : levelOf 2 = some 1 := levelOf_two_pow (l := 1) (by omega)
  have hcreate : create (2 ^ 1) ([] : List ℕ)
      = some ⟨2, fun l => if l = 1 then [⟨0, []⟩] else []⟩ := by
    rw [create, levelOf_two_pow (by omega)]
    rfl
  refine ⟨_, .step (a := .deallocate 1 1 [11]) (.step (a := .deallocate 0 1 [10])
    (.step (a := .allocate 1 []) (.step (a := .allocate 1 []) (.init ⟨by decide, _, hcreate, rfl⟩)
      ⟨trivial, .allocate (by decide) (by rw [BuddyAllocatorMetadata.allocate, hone]; rfl)⟩)
      ⟨trivial, .allocate (by decide) (by rw [BuddyAllocatorMetadata.allocate, hone]; rfl)⟩)
    ⟨trivial, .deallocate (by decide) (by decide)
      (by rw [BuddyAllocatorMetadata.deallocate, hone]; rfl)⟩)
    ⟨trivial, .deallocate (by decide) (by decide)
      (by rw [BuddyAllocatorMetadata.deallocate, hone]; rfl)⟩, fun hsafe => ?_⟩
  have hlost := hsafe 2 (by decide) [] _ 0
    (by rw [BuddyAllocatorMetadata.allocate, htwo]; rfl) rfl 0
    ⟨le_rfl, Nat.lt_add_of_pos_right (Nat.two_pow_pos _)⟩
  change [10] ⊆ [11] at hlost
  exact absurd hlost (by decide)

end Cccl.Stf
