/-
# The blocks of the buddy allocator partition its memory

The free blocks of all levels and the live blocks, each rounded up to a power of two, cover every
byte exactly once.  That is an equation about counts, and each of the two calls keeps it for the
same reason: a block covers what its halves cover (`hit_halves`), so splitting and merging change
nothing, and handing out a block or taking one back moves it from one side to the other.

No two free blocks are buddies.  If nothing is live, take a free block of the lowest level: were
that not the top level, whatever covers its buddy would have to be the buddy itself or a block that
overlaps it.  So it is the whole memory.
-/
import Mathlib.Algebra.BigOperators.Group.Finset.Piecewise
import Mathlib.Algebra.Order.BigOperators.Group.Finset
import Cccl.Stf.Buddy

namespace Cccl.Stf

open BuddyAllocatorMetadata

variable {E : Type*}

/-! ## 1. Counting the blocks over a byte -/

/-- 1 where the block holds the byte. -/
def hit (level index x : ℕ) : ℕ :=
  if InBlock level index x then 1 else 0

/-- The number of free blocks that hold the byte. -/
def freeCover (levels : ℕ) (free : ℕ → List (AvailBlock E)) (x : ℕ) : ℕ :=
  ∑ l ∈ Finset.range levels, (free l).countP fun b => InBlock l b.index x

theorem hit_halves (level index x : ℕ) :
    hit (level + 1) index x = hit level index x + hit level (index + 2 ^ level) x := by
  have hdouble : 2 ^ (level + 1) = 2 ^ level + 2 ^ level := by rw [pow_succ]; omega
  unfold hit
  split_ifs <;> simp only [InBlock] at * <;> omega

theorem freeCover_update {levels l : ℕ} (hl : l < levels) (free : ℕ → List (AvailBlock E))
    (bs : List (AvailBlock E)) (x : ℕ) :
    freeCover levels (Function.update free l bs) x + (free l).countP (fun b => InBlock l b.index x)
      = freeCover levels free x + bs.countP fun b => InBlock l b.index x := by
  unfold freeCover
  have hmem := Finset.mem_range.mpr hl
  rw [← Finset.add_sum_erase _ _ hmem, ← Finset.add_sum_erase (Finset.range levels) _ hmem,
    Function.update_self]
  have hrest : ∑ j ∈ (Finset.range levels).erase l,
        (Function.update free l bs j).countP (fun b => InBlock j b.index x)
      = ∑ j ∈ (Finset.range levels).erase l, (free j).countP fun b => InBlock j b.index x := by
    refine Finset.sum_congr rfl fun j hj => ?_
    rw [Function.update_of_ne (Finset.ne_of_mem_erase hj)]
  omega

theorem freeCover_push {levels l : ℕ} (hl : l < levels) (b : AvailBlock E)
    (free : ℕ → List (AvailBlock E)) (x : ℕ) :
    freeCover levels (push l b free) x = freeCover levels free x + hit l b.index x := by
  have h := freeCover_update hl free (free l ++ [b]) x
  rw [List.countP_append, List.countP_singleton] at h
  have hb : (if decide (InBlock l b.index x) = true then 1 else 0) = hit l b.index x := by
    simp [hit]
  rw [push]
  omega

/-- Splitting a block that has been taken out leaves the requested part uncovered. -/
theorem freeCover_split {levels level : ℕ} (index : ℕ) (prereqs : List E) :
    ∀ (n : ℕ) (free : ℕ → List (AvailBlock E)) (x : ℕ), level + n < levels →
      freeCover levels (split level index prereqs n free) x + hit level index x
        = freeCover levels free x + hit (level + n) index x
  | 0, free, x, _ => by simp [split]
  | n + 1, free, x, h => by
    rw [split, freeCover_split index prereqs n _ x (by omega), freeCover_push (by omega), ← Nat.add_assoc level,
      hit_halves]
    simp only
    omega

theorem countP_eraseP {l i x : ℕ} : ∀ {bs : List (AvailBlock E)} {b : AvailBlock E}, b ∈ bs →
    b.index = i →
    (bs.eraseP fun b' => b'.index = i).countP (fun b' => InBlock l b'.index x) + hit l i x
      = bs.countP fun b' => InBlock l b'.index x
  | a :: bs, b, hb, hi => by
    rcases eq_or_ne a.index i with ha | ha
    · rw [List.eraseP_cons_of_pos (by simpa using ha), List.countP_cons]
      simp [hit, ha]
    · have hmem : b ∈ bs := by
        rcases List.mem_cons.mp hb with rfl | hmem
        · exact absurd hi ha
        · exact hmem
      rw [List.eraseP_cons_of_neg (by simpa using ha), List.countP_cons, List.countP_cons,
        ← countP_eraseP hmem hi]
      omega

/-! ## 2. The invariant -/

/-- A block of the memory, aligned to its own size. -/
structure Aligned (k level index : ℕ) : Prop where
  dvd : 2 ^ level ∣ index
  le : index + 2 ^ level ≤ 2 ^ k

/-- The free blocks are in place, and no two of them are buddies. -/
structure FreeInv (k : ℕ) (free : ℕ → List (AvailBlock E)) : Prop where
  aligned : ∀ l, ∀ b ∈ free l, Aligned k l b.index
  apart : ∀ l, ∀ b ∈ free l, ∀ b' ∈ free l, b'.index ≠ getBuddyIndex b.index l

/-- The number of live blocks that hold the byte. -/
def liveCover (live : List (ℕ × ℕ)) (x : ℕ) : ℕ :=
  live.countP fun p => InBlock (Nat.clog 2 p.2) p.1 x

/-- **The invariant of a run**, for a memory of `2 ^ k` bytes. -/
structure LayoutInv (k : ℕ) (s : BuddyState E) : Prop where
  levels : s.data.levels = k + 1
  free : FreeInv k s.data.freeLists
  live : ∀ p ∈ s.live, Aligned k (Nat.clog 2 p.2) p.1
  cover : ∀ x < 2 ^ k, freeCover (k + 1) s.data.freeLists x + liveCover s.live x = 1

theorem Aligned.level_le {k level index : ℕ} (h : Aligned k level index) : level ≤ k := by
  by_contra hlt
  have hpow : 2 ^ k < 2 ^ level := Nat.pow_lt_pow_right (by omega) (not_le.mp hlt)
  have hle := h.le
  omega

theorem Aligned.half {k level index : ℕ} (h : Aligned k (level + 1) index) :
    Aligned k level index ∧ Aligned k level (index + 2 ^ level) := by
  have hdouble : 2 ^ (level + 1) = 2 ^ level + 2 ^ level := by rw [pow_succ]; omega
  have hdvd : 2 ^ level ∣ index := (Nat.pow_dvd_pow 2 (Nat.le_succ level)).trans h.dvd
  have hle := h.le
  exact ⟨⟨hdvd, by omega⟩, ⟨Nat.dvd_add hdvd (dvd_refl _), by omega⟩⟩

/-- Lower levels: the block of the request, and the block left behind at each level. -/
theorem Aligned.descend {k c index : ℕ} (h : Aligned k c index) {l : ℕ} (hl : l < c) :
    Aligned k l index ∧ Aligned k l (index + 2 ^ l) := by
  have hpow : 2 ^ (l + 1) ≤ 2 ^ c := Nat.pow_le_pow_right (by omega) hl
  have hle := h.le
  exact Aligned.half ⟨(Nat.pow_dvd_pow 2 hl).trans h.dvd, by omega⟩

theorem Aligned.parent {k level index : ℕ} (h : Aligned k level index) (hlt : level < k) :
    Aligned k (level + 1) (min index (getBuddyIndex index level)) ∧
      ∀ x, hit (level + 1) (min index (getBuddyIndex index level)) x
        = hit level index x + hit level (getBuddyIndex index level) x := by
  have hdvd : 2 ^ (level + 1) ∣ 2 ^ k := Nat.pow_dvd_pow 2 hlt
  have hdouble : 2 ^ (level + 1) = 2 ^ level + 2 ^ level := by rw [pow_succ]; omega
  have hpos := Nat.two_pow_pos level
  have hfit : ∀ lower, 2 ^ (level + 1) ∣ lower → lower + 2 ^ level ≤ 2 ^ k →
      lower + 2 ^ (level + 1) ≤ 2 ^ k := by
    rintro lower ⟨q, rfl⟩ hle
    obtain ⟨r, hr⟩ := hdvd
    rw [hr] at hle ⊢
    have hqr : q < r := by
      by_contra hge
      have := Nat.mul_le_mul_left (2 ^ (level + 1)) (not_lt.mp hge)
      omega
    calc 2 ^ (level + 1) * q + 2 ^ (level + 1) = 2 ^ (level + 1) * (q + 1) := by rw [Nat.mul_succ]
      _ ≤ 2 ^ (level + 1) * r := Nat.mul_le_mul_left _ hqr
  have hle := h.le
  rcases getBuddyIndex_cases h.dvd with ⟨heven, hbuddy⟩ | ⟨lower, hlower, hindex, hbuddy⟩
  · rw [hbuddy, min_eq_left (by omega)]
    exact ⟨⟨heven, hfit index heven hle⟩, fun x => hit_halves level index x⟩
  · rw [hbuddy, min_eq_right (by omega), hindex]
    refine ⟨⟨hlower, hfit lower hlower (by omega)⟩, fun x => ?_⟩
    rw [hit_halves, Nat.add_comm]

theorem getBuddyIndex_ne (index level : ℕ) : index ≠ getBuddyIndex index level := by
  intro h
  have hone : (1 <<< level) = 0 := by
    have hcancel := congrArg (index ^^^ ·) h
    simpa [getBuddyIndex] using hcancel.symm
  simp at hone

theorem getBuddyIndex_getBuddyIndex (index level : ℕ) :
    getBuddyIndex (getBuddyIndex index level) level = index := by
  simp [getBuddyIndex]

/-! ## 3. The calls -/

theorem FreeInv.mono {k : ℕ} {free free' : ℕ → List (AvailBlock E)} (h : FreeInv k free)
    (hsub : ∀ l, free' l ⊆ free l) : FreeInv k free' :=
  ⟨fun l b hb => h.aligned l b (hsub l hb),
    fun l b hb b' hb' => h.apart l b (hsub l hb) b' (hsub l hb')⟩

theorem FreeInv.push {k level : ℕ} {free : ℕ → List (AvailBlock E)} {b : AvailBlock E}
    (h : FreeInv k free) (hb : Aligned k level b.index)
    (hbuddy : ∀ b' ∈ free level, b'.index ≠ getBuddyIndex b.index level) :
    FreeInv k (BuddyAllocatorMetadata.push level b free) := by
  have hmem : ∀ l c, c ∈ BuddyAllocatorMetadata.push level b free l →
      c ∈ free l ∨ (l = level ∧ c = b) := by
    intro l c hc
    rcases eq_or_ne l level with rfl | hl
    · rw [BuddyAllocatorMetadata.push, Function.update_self] at hc
      rcases List.mem_append.mp hc with hc | hc
      · exact Or.inl hc
      · exact Or.inr ⟨rfl, List.mem_singleton.mp hc⟩
    · rw [BuddyAllocatorMetadata.push, Function.update_of_ne hl] at hc
      exact Or.inl hc
  constructor
  · intro l c hc
    rcases hmem l c hc with hc | ⟨rfl, rfl⟩
    · exact h.aligned l c hc
    · exact hb
  · intro l c hc c' hc' heq
    rcases hmem l c hc with hold | ⟨rfl, rfl⟩
    · rcases hmem l c' hc' with hold' | ⟨rfl, rfl⟩
      · exact h.apart l c hold c' hold' heq
      · refine hbuddy c hold ?_
        rw [heq, getBuddyIndex_getBuddyIndex]
    · rcases hmem l c' hc' with hc' | ⟨-, rfl⟩
      · exact hbuddy c' hc' heq
      · exact getBuddyIndex_ne _ _ heq

theorem FreeInv.split {k level index : ℕ} {prereqs : List E} :
    ∀ (n : ℕ) {free : ℕ → List (AvailBlock E)}, FreeInv k free → Aligned k (level + n) index →
      (∀ l, level ≤ l → l < level + n → free l = []) →
      FreeInv k (BuddyAllocatorMetadata.split level index prereqs n free)
  | 0, _, h, _, _ => h
  | n + 1, free, h, hb, hempty => by
    rw [BuddyAllocatorMetadata.split]
    have hnil : free (level + n) = [] := hempty _ (by omega) (by omega)
    refine FreeInv.split n (h.push (hb.descend (by omega)).2 (by simp [hnil]))
      (hb.descend (by omega)).1 fun l h1 h2 => ?_
    rw [BuddyAllocatorMetadata.push, Function.update_of_ne (by omega)]
    exact hempty l h1 (by omega)

/-- **A request keeps the invariant.** -/
theorem LayoutInv.allocate {k size : ℕ} {s : BuddyState E} {prereqs : List E} {r : Allocation E}
    (h : LayoutInv k s) (hsize : size < 2 ^ 64) (hr : s.data.allocate size prereqs = some r) :
    LayoutInv k { s with data := r.data,
                         live := s.live ++ (r.index.map fun i => (i, size)).toList } := by
  rcases allocate_cases hsize hr with ⟨rfl, -⟩ | ⟨c, b, rest, hle, hc, hlist, hempty, rfl⟩
  · simpa using h
  have hlevels := h.levels
  have hb : Aligned k c b.index := h.free.aligned c b (by simp [hlist])
  obtain ⟨n, rfl⟩ : ∃ n, c = Nat.clog 2 size + n := ⟨c - Nat.clog 2 size, by omega⟩
  rw [Nat.add_sub_cancel_left]
  set level := Nat.clog 2 size with hlevel
  have hrest : FreeInv k (Function.update s.data.freeLists (level + n) rest) := by
    refine h.free.mono fun l => ?_
    rcases eq_or_ne l (level + n) with rfl | hl
    · rw [Function.update_self, hlist]
      exact List.subset_append_left _ _
    · rw [Function.update_of_ne hl]
      exact List.Subset.refl _
  have halign : Aligned k level b.index := by
    rcases Nat.eq_zero_or_pos n with rfl | hn
    · exact hb
    · exact (hb.descend (by omega)).1
  refine ⟨hlevels, hrest.split n hb fun l h1 h2 => ?_, fun p hp => ?_, fun x hx => ?_⟩
  · rw [Function.update_of_ne (by omega)]
    exact hempty l h1 h2
  · rcases List.mem_append.mp hp with hp | hp
    · exact h.live p hp
    · obtain rfl : p = (b.index, size) := by simpa using hp
      exact halign
  · have hcover := h.cover x hx
    have hsplit := freeCover_split b.index b.prereqs n
      (Function.update s.data.freeLists (level + n) rest) x (show level + n < k + 1 by omega)
    have htake := freeCover_update (show level + n < k + 1 by omega) s.data.freeLists rest x
    have hone : ([b].countP fun b => InBlock (level + n) b.index x) = hit (level + n) b.index x := by
      simp [hit, List.countP_singleton]
    have hlive : liveCover (s.live ++ [(b.index, size)]) x
        = liveCover s.live x + hit level b.index x := by
      simp [liveCover, hit, List.countP_append, List.countP_singleton, hlevel]
    rw [hlist, List.countP_append, hone] at htake
    simp only [Option.map_some, Option.toList_some, hlive]
    omega

/-- **Giving back a live block keeps the invariant.** -/
theorem LayoutInv.deallocate {k index size : ℕ} {s : BuddyState E} {prereqs : List E}
    {m : BuddyAllocatorMetadata E} {released : ℕ → List E} (h : LayoutInv k s)
    (hlive : (index, size) ∈ s.live) (hsize : size < 2 ^ 64)
    (hm : s.data.deallocate index size prereqs = some m) :
    LayoutInv k ⟨m, s.live.erase (index, size), released⟩ := by
  obtain ⟨s', hs', rfl⟩ := deallocate_some hsize hm
  have hblock : Aligned k (Nat.clog 2 size) index := h.live _ hlive
  have hle := hblock.level_le
  have hlevels := h.levels
  -- the block in hand and the free blocks cover what they covered at first
  have hrule := mergeBuddies_rule
    (P := fun t : Merge E => FreeInv k t.freeLists ∧ Aligned k t.level t.index ∧
      ∀ x, freeCover (k + 1) t.freeLists x + hit t.level t.index x
        = freeCover (k + 1) s.data.freeLists x + hit (Nat.clog 2 size) index x)
    k ?_ (s.data.levels - 1 - Nat.clog 2 size) ⟨Nat.clog 2 size, index, prereqs, s.data.freeLists⟩
    (by simp only; omega) ⟨h.free, hblock, fun _ => rfl⟩
  · rw [hs'] at hrule
    obtain ⟨⟨hfree, hal, hcov⟩, hstop⟩ := hrule
    refine ⟨hlevels, hfree.push hal ?_, fun p hp => h.live p (List.mem_of_mem_erase hp), ?_⟩
    · rcases hstop with htop | hnone
      · -- the whole memory has no buddy
        intro b' hb' heq
        have hzero : ∀ i, Aligned k k i → i = 0 := fun i hi => by have := hi.le; omega
        rw [htop] at hal hb' heq
        rw [hzero _ hal, hzero _ (hfree.aligned k b' hb')] at heq
        exact getBuddyIndex_ne _ _ heq
      · exact hnone
    · intro x hx
      have hcover := h.cover x hx
      have hc := hcov x
      have hperm := (List.perm_cons_erase hlive).countP_eq
        (fun p => decide (InBlock (Nat.clog 2 p.2) p.1 x))
      have hhit : (if decide (InBlock (Nat.clog 2 size) index x) = true then 1 else 0)
          = hit (Nat.clog 2 size) index x := by simp [hit]
      rw [List.countP_cons, hhit] at hperm
      have hpush : freeCover (k + 1) (push s'.level ⟨s'.index, prereqs⟩ s'.freeLists) x
          = freeCover (k + 1) s'.freeLists x + hit s'.level s'.index x :=
        freeCover_push (Nat.lt_succ_of_le hal.level_le) _ _ x
      simp only [liveCover] at hcover ⊢
      omega
  · rintro ⟨l, i, bp, free⟩ b ⟨hfree, hal, hcov⟩ hlt hb hbuddy
    simp only at hfree hal hcov hlt hb hbuddy ⊢
    obtain ⟨hparent, hhits⟩ := hal.parent hlt
    rw [← hbuddy] at hparent hhits
    refine ⟨hfree.mono fun l' => ?_, hparent, fun x => ?_⟩
    · rcases eq_or_ne l' l with rfl | hl
      · rw [Function.update_self]
        exact List.eraseP_subset
      · rw [Function.update_of_ne hl]
        exact List.Subset.refl _
    · have htake := freeCover_update (show l < k + 1 by omega) free
        ((free l).eraseP fun b' => b'.index = b.index) x
      have hgone := countP_eraseP (l := l) (x := x) hb rfl
      rw [hhits, ← hcov]
      omega

/-! ## 4. Every run -/

section Runs

variable {k : ℕ} {initPrereqs : List E} {use : BuddyState E → BuddyAction E → Prop}
  {s : BuddyState E}

theorem LayoutInv.init (h : (buddyRuns (2 ^ k) initPrereqs use).init s) : LayoutInv k s := by
  obtain ⟨hsize, m, hm, rfl⟩ := h
  unfold create at hm
  split at hm
  swap
  · exact absurd hm (by simp)
  obtain ⟨level, hlevel, rfl⟩ := Option.map_eq_some_iff.mp hm
  obtain rfl : level = k := by
    rw [levelOf_eq hsize, Nat.clog_pow 2 k (by omega)] at hlevel
    split at hlevel
    · exact (Option.some.inj hlevel).symm
    · exact absurd hlevel (by simp)
  refine ⟨rfl, ⟨fun l b hb => ?_, fun l b hb b' hb' => ?_⟩, by simp, fun x hx => ?_⟩
  · rcases eq_or_ne l level with rfl | hl
    · simp only [if_true, List.mem_singleton] at hb
      rw [hb]
      exact ⟨Nat.dvd_zero _, by simp⟩
    · simp [hl] at hb
  · rcases eq_or_ne l level with rfl | hl
    · simp only [if_true, List.mem_singleton] at hb hb'
      rw [hb, hb']
      exact getBuddyIndex_ne _ _
    · simp [hl] at hb
  · have hone : ∀ l ∈ Finset.range (level + 1),
        ((if l = level then [(⟨0, initPrereqs⟩ : AvailBlock E)] else []).countP
          fun b => InBlock l b.index x) = if l = level then 1 else 0 := by
      intro l _
      split
      · rename_i hl
        simp [hl, InBlock, hx]
      · simp
    simp only [freeCover, liveCover, List.countP_nil, Nat.add_zero]
    rw [Finset.sum_congr rfl hone, Finset.sum_ite_eq' (Finset.range (level + 1)) level]
    simp

theorem LayoutInv.of_reachable (h : (buddyRuns (2 ^ k) initPrereqs use).Reachable s) :
    LayoutInv k s := by
  refine h.invariant (P := LayoutInv k) (fun _ => LayoutInv.init) ?_
  rintro s a s' hs ⟨-, hstep⟩
  cases hstep with
  | allocate hsize hr => exact hs.allocate hsize hr
  | deallocate hlive hsize hm => exact hs.deallocate hlive hsize hm

theorem exists_of_freeCover {levels x : ℕ} {free : ℕ → List (AvailBlock E)}
    (h : freeCover levels free x ≠ 0) : ∃ l < levels, ∃ b ∈ free l, InBlock l b.index x := by
  obtain ⟨l, hl, hne⟩ := Finset.exists_ne_zero_of_sum_ne_zero h
  obtain ⟨b, hb, hin⟩ := List.countP_pos_iff.mp (Nat.pos_of_ne_zero hne)
  exact ⟨l, Finset.mem_range.mp hl, b, hb, by simpa using hin⟩

theorem two_le_freeCover {levels x l l' : ℕ} {free : ℕ → List (AvailBlock E)} {b b' : AvailBlock E}
    (hl : l < levels) (hl' : l' < levels) (hne : l ≠ l') (hb : b ∈ free l) (hb' : b' ∈ free l')
    (hin : InBlock l b.index x) (hin' : InBlock l' b'.index x) : 2 ≤ freeCover levels free x := by
  have hcount : ∀ {j : ℕ} {c : AvailBlock E}, c ∈ free j → InBlock j c.index x →
      1 ≤ (free j).countP fun b => InBlock j b.index x := fun hc hx =>
    List.countP_pos_iff.mpr ⟨_, hc, by simpa using hx⟩
  calc 2 ≤ ∑ j ∈ {l, l'}, (free j).countP fun b => InBlock j b.index x := by
        rw [Finset.sum_pair hne]
        exact Nat.add_le_add (hcount hb hin) (hcount hb' hin')
    _ ≤ freeCover levels free x := by
        refine Finset.sum_le_sum_of_subset fun j hj => ?_
        rcases Finset.mem_insert.mp hj with rfl | hj
        · exact Finset.mem_range.mpr hl
        · rw [Finset.mem_singleton.mp hj]
          exact Finset.mem_range.mpr hl'

/-- A block over the buddy of a smaller one is over that one as well. -/
theorem inBlock_of_buddy {k level index level' index' : ℕ} (h : Aligned k level index)
    (hlt : level < level') (hdvd : 2 ^ level' ∣ index')
    (hin : InBlock level' index' (getBuddyIndex index level)) : InBlock level' index' index := by
  have hdouble : 2 ^ (level + 1) = 2 ^ level + 2 ^ level := by rw [pow_succ]; omega
  have hpos := Nat.two_pow_pos level
  have hpow : 2 ^ (level + 1) ∣ 2 ^ level' := Nat.pow_dvd_pow 2 hlt
  obtain ⟨q, rfl⟩ := hpow.trans hdvd
  obtain ⟨r, hr⟩ := hpow
  obtain ⟨h1, h2⟩ := hin
  rw [hr, ← Nat.mul_add] at h2
  unfold InBlock
  rw [hr, ← Nat.mul_add]
  -- both halves start in the same block of the next level
  have hsame : ∀ {p : ℕ}, 2 ^ (level + 1) * q ≤ 2 ^ (level + 1) * p →
      2 ^ (level + 1) * p < 2 ^ (level + 1) * (q + r) →
      2 ^ (level + 1) * p + 2 ^ (level + 1) ≤ 2 ^ (level + 1) * (q + r) := by
    intro p _ hp
    have := Nat.lt_of_mul_lt_mul_left hp
    rw [← Nat.mul_succ]
    exact Nat.mul_le_mul_left _ this
  have hle : ∀ {p : ℕ}, 2 ^ (level + 1) * q ≤ 2 ^ (level + 1) * p + 2 ^ level →
      2 ^ (level + 1) * q ≤ 2 ^ (level + 1) * p := by
    intro p hp
    refine Nat.mul_le_mul_left _ (Nat.lt_succ_iff.mp ?_)
    refine Nat.lt_of_mul_lt_mul_left (a := 2 ^ (level + 1)) ?_
    rw [Nat.mul_succ]
    omega
  rcases getBuddyIndex_cases h.dvd with ⟨⟨p, rfl⟩, hbuddy⟩ | ⟨lower, ⟨p, rfl⟩, rfl, hbuddy⟩
  · rw [hbuddy] at h1 h2
    have := hle h1
    exact ⟨this, by omega⟩
  · rw [hbuddy] at h1 h2
    have := hsame h1 h2
    exact ⟨by omega, by omega⟩

/-- **With nothing live the memory is one free block.** -/
theorem LayoutInv.coalesced (h : LayoutInv k s) (hlive : s.live = []) :
    (∃ b, s.data.freeLists k = [b] ∧ b.index = 0) ∧ ∀ l ≠ k, s.data.freeLists l = [] := by
  have hcover : ∀ x < 2 ^ k, freeCover (k + 1) s.data.freeLists x = 1 := by
    intro x hx
    simpa [hlive, liveCover] using h.cover x hx
  -- a block of the lowest level that has any is the whole memory
  have hlow : ∀ l, ∀ b ∈ s.data.freeLists l, l = k := by
    intro l
    induction l using Nat.strong_induction_on with
    | _ l ih =>
      intro b hb
      by_contra hne
      have hal := h.free.aligned l b hb
      have hlt : l < k := lt_of_le_of_ne hal.level_le hne
      have hparent := (hal.parent hlt).1.le
      have hpos := Nat.two_pow_pos l
      have hbound : getBuddyIndex b.index l < 2 ^ k ∧ b.index < 2 ^ k := by
        have hle := hal.le
        have hdouble : 2 ^ (l + 1) = 2 ^ l + 2 ^ l := by rw [pow_succ]; omega
        rcases getBuddyIndex_cases hal.dvd with ⟨-, hbuddy⟩ | ⟨lower, -, hindex, hbuddy⟩
        · rw [hbuddy, min_eq_left (by omega)] at hparent
          omega
        · omega
      obtain ⟨l', hl', b', hb', hin⟩ := exists_of_freeCover (x := getBuddyIndex b.index l)
        (by rw [hcover _ hbound.1]; omega)
      have hal' := h.free.aligned l' b' hb'
      rcases lt_trichotomy l' l with hlt' | rfl | hgt
      · have := ih l' hlt' b' hb'
        omega
      · -- of the same level: it is the buddy
        refine h.free.apart l' b hb b' hb' ?_
        obtain ⟨q, hq⟩ := hal'.dvd
        have hdvd : 2 ^ l' ∣ getBuddyIndex b.index l' := by
          rcases getBuddyIndex_cases hal.dvd with ⟨-, hbuddy⟩ | ⟨lower, hlower, -, hbuddy⟩
          · rw [hbuddy]
            exact Nat.dvd_add hal.dvd (dvd_refl _)
          · rw [hbuddy]
            exact (Nat.pow_dvd_pow 2 (Nat.le_succ l')).trans hlower
        obtain ⟨p, hp⟩ := hdvd
        obtain ⟨h1, h2⟩ := hin
        rw [hq, hp] at h1
        rw [hq, hp, ← Nat.mul_succ] at h2
        have hle : q ≤ p := Nat.le_of_mul_le_mul_left h1 hpos
        have hlt'' : p < q + 1 := Nat.lt_of_mul_lt_mul_left h2
        rw [hq, hp, show q = p by omega]
      · have hself : InBlock l b.index b.index := ⟨le_refl _, by omega⟩
        have htwo := two_le_freeCover (by omega) hl' (by omega : l ≠ l') hb hb' hself
          (inBlock_of_buddy hal hgt hal'.dvd hin)
        rw [hcover _ hbound.2] at htwo
        omega
  have hempty : ∀ l ≠ k, s.data.freeLists l = [] := fun l hl =>
    List.eq_nil_iff_forall_not_mem.mpr fun b hb => hl (hlow l b hb)
  refine ⟨?_, hempty⟩
  have hzero : ∀ b ∈ s.data.freeLists k, b.index = 0 := fun b hb => by
    have := (h.free.aligned k b hb).le
    omega
  have hlen : (s.data.freeLists k).length = 1 := by
    have hone := hcover 0 (Nat.two_pow_pos k)
    rw [freeCover, Finset.sum_eq_single k (fun l _ hl => by rw [hempty l hl]; rfl) (by simp)] at hone
    rw [← hone, eq_comm, List.countP_eq_length]
    intro b hb
    simp [InBlock, hzero b hb, Nat.two_pow_pos]
  obtain ⟨b, hb⟩ := List.length_eq_one_iff.mp hlen
  exact ⟨b, hb, hzero b (by simp [hb])⟩

/-- The free blocks of all levels, each with its level and its offset. -/
def freeBlocks (m : BuddyAllocatorMetadata E) : List (ℕ × ℕ) :=
  (List.range m.levels).flatMap fun l => (m.freeLists l).map fun b => (l, b.index)

/-- The live blocks, rounded up to powers of two. -/
def liveBlocks (s : BuddyState E) : List (ℕ × ℕ) :=
  s.live.map fun p => (Nat.clog 2 p.2, p.1)

/-- **The layout of a memory of `2 ^ k` bytes.** -/
structure BuddyLayout (k : ℕ) (s : BuddyState E) : Prop where
  aligned : ∀ b ∈ freeBlocks s.data ++ liveBlocks s, 2 ^ b.1 ∣ b.2
  within : ∀ b ∈ freeBlocks s.data ++ liveBlocks s, b.2 + 2 ^ b.1 ≤ 2 ^ k
  /-- Every byte is in exactly one block. -/
  partition : ∀ x < 2 ^ k,
    (freeBlocks s.data ++ liveBlocks s).countP (fun b => InBlock b.1 b.2 x) = 1
  noBuddies : ∀ level i j, (level, i) ∈ freeBlocks s.data → (level, j) ∈ freeBlocks s.data →
    j ≠ getBuddyIndex i level
  /-- A request fails exactly when every free block is too small for it. -/
  answers : ∀ size ≤ 2 ^ 63, ∀ prereqs, ∃ r, s.data.allocate size prereqs = some r ∧
    (r.index = none ↔ ∀ b ∈ freeBlocks s.data, 2 ^ b.1 < size)
  coalesced : s.live = [] → freeBlocks s.data = [(k, 0)]

theorem mem_freeBlocks {m : BuddyAllocatorMetadata E} {l i : ℕ} :
    (l, i) ∈ freeBlocks m ↔ l < m.levels ∧ ∃ b ∈ m.freeLists l, b.index = i := by
  simp only [freeBlocks, List.mem_flatMap, List.mem_range, List.mem_map, Prod.mk.injEq]
  constructor
  · rintro ⟨l', hl', b, hb, rfl, rfl⟩
    exact ⟨hl', b, hb, rfl⟩
  · rintro ⟨hl, b, hb, rfl⟩
    exact ⟨l, hl, b, hb, rfl, rfl⟩

theorem countP_freeBlocks (m : BuddyAllocatorMetadata E) (x : ℕ) :
    (freeBlocks m).countP (fun b => InBlock b.1 b.2 x) = freeCover m.levels m.freeLists x := by
  rw [freeBlocks, List.countP_flatMap]
  simp only [freeCover, Finset.sum, Finset.range_val, Multiset.range, Multiset.map_coe,
    Multiset.sum_coe, List.countP_map, Function.comp_def]

/-- A request is refused where no list at its level or above has a block. -/
theorem allocate_answers {size : ℕ} (hsize : size ≤ 2 ^ 63) (prereqs : List E)
    (m : BuddyAllocatorMetadata E) : ∃ r, m.allocate size prereqs = some r ∧
      (r.index = none ↔ ∀ b ∈ freeBlocks m, 2 ^ b.1 < size) := by
  have hlt : size < 2 ^ 64 := by omega
  obtain ⟨r, hr⟩ : ∃ r, m.allocate size prereqs = some r := by
    rw [BuddyAllocatorMetadata.allocate, levelOf_eq hlt, if_pos hsize]
    exact ⟨_, rfl⟩
  refine ⟨r, hr, ?_⟩
  rcases allocate_cases hlt hr with ⟨rfl, hempty⟩ | ⟨c, b, rest, hle, hc, hlist, -, rfl⟩
  · refine iff_of_true rfl ?_
    rintro ⟨l, i⟩ hb
    obtain ⟨hl, b, hmem, -⟩ := mem_freeBlocks.mp hb
    by_contra hge
    have hclog : Nat.clog 2 size ≤ l := (Nat.clog_le_iff_le_pow (by omega)).mpr (not_lt.mp hge)
    rw [hempty l hclog hl] at hmem
    exact absurd hmem (by simp)
  · refine iff_of_false (by simp) fun hno => ?_
    have hsmall := hno (c, b.index) (mem_freeBlocks.mpr ⟨hc, b, by simp [hlist], rfl⟩)
    exact absurd ((Nat.clog_le_iff_le_pow (by omega)).mp hle) (not_le.mpr hsmall)

/-- **The layout holds in every run**: whatever is asked for and whatever live blocks are given back,
the free blocks and the live blocks partition the memory, free buddies have been merged, a request
fails only for want of a block, and the memory is whole again once nothing is live. -/
theorem buddy_layout (k : ℕ) (initPrereqs : List E) (s : BuddyState E)
    (h : (buddyRuns (2 ^ k) initPrereqs fun _ _ => True).Reachable s) : BuddyLayout k s := by
  have hinv := LayoutInv.of_reachable h
  have hal : ∀ b ∈ freeBlocks s.data ++ liveBlocks s, Aligned k b.1 b.2 := by
    rintro ⟨l, i⟩ hb
    rcases List.mem_append.mp hb with hb | hb
    · obtain ⟨-, b, hmem, rfl⟩ := mem_freeBlocks.mp hb
      exact hinv.free.aligned l b hmem
    · obtain ⟨p, hp, heq⟩ := List.mem_map.mp hb
      obtain ⟨rfl, rfl⟩ := Prod.mk.inj heq
      exact hinv.live p hp
  refine ⟨fun b hb => (hal b hb).dvd, fun b hb => (hal b hb).le, fun x hx => ?_, ?_,
    fun size hsize prereqs => allocate_answers hsize prereqs s.data, fun hlive => ?_⟩
  · have hlive : (liveBlocks s).countP (fun b => InBlock b.1 b.2 x) = liveCover s.live x := by
      simp [liveBlocks, liveCover, List.countP_map, Function.comp_def]
    rw [List.countP_append, countP_freeBlocks, hinv.levels, hlive]
    exact hinv.cover x hx
  · intro level i j hi hj
    obtain ⟨-, b, hb, rfl⟩ := mem_freeBlocks.mp hi
    obtain ⟨-, b', hb', rfl⟩ := mem_freeBlocks.mp hj
    exact hinv.free.apart level b hb b' hb'
  · obtain ⟨⟨b, hb, hzero⟩, hempty⟩ := hinv.coalesced hlive
    have hbelow : (List.range k).flatMap
        (fun l => (s.data.freeLists l).map fun b => (l, b.index)) = [] := by
      refine List.flatMap_eq_nil_iff.mpr fun l hl => ?_
      rw [hempty l (List.mem_range.mp hl).ne, List.map_nil]
    rw [freeBlocks, hinv.levels, List.range_succ, List.flatMap_append, hbelow]
    simp [hb, hzero]

/-- A byte of a memory of four bytes is handed out. -/
theorem buddy_layout_fourBytes :
    ∃ s, (buddyRuns (2 ^ 2) ([] : List ℕ) fun _ _ => True).Reachable s ∧ s.live = [(0, 1)] ∧
      BuddyLayout 2 s := by
  have hreach : ∃ s, (buddyRuns (2 ^ 2) ([] : List ℕ) fun _ _ => True).Reachable s ∧
      s.live = [(0, 1)] := by
    have hcreate : create (2 ^ 2) ([] : List ℕ)
        = some ⟨3, fun l => if l = 2 then [⟨0, []⟩] else []⟩ := by
      rw [create, levelOf_two_pow (by omega)]
      rfl
    have hlevel : levelOf 1 = some 0 := levelOf_two_pow (l := 0) (by omega)
    refine ⟨_, .step (a := .allocate 1 []) (.init ⟨by decide, _, hcreate, rfl⟩)
      ⟨trivial, .allocate (by decide) (by rw [BuddyAllocatorMetadata.allocate, hlevel]; rfl)⟩, rfl⟩
  obtain ⟨s, hs, hlive⟩ := hreach
  exact ⟨s, hs, hlive, buddy_layout 2 [] s hs⟩

end Runs

end Cccl.Stf
