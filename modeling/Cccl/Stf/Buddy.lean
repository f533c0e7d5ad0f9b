/-
# The buddy allocator

`buddy_allocator_metadata` (`buddy_allocator.cuh`): offsets in a memory of `2 ^ k` bytes are handed
out in blocks whose sizes are powers of two.  A free list for each level holds the free blocks of
`2 ^ level` bytes, each with the events that must have happened before the block is used again.

`allocate` takes the last block of the first list that is not empty, starting at the level of the
request, and halves it until it fits, leaving the upper half of each cut behind.  `deallocate`
looks for the buddy of the freed block (the other half of the block one level up) and, as long as
it is free as well, takes it out of its list and goes on with both halves as one block.
-/
import Mathlib.Data.Nat.Bitwise
import Mathlib.Data.Nat.Log
import Mathlib.Algebra.BigOperators.Group.Finset.Basic
import Cccl.Lib.Transition

namespace Cccl.Stf

variable {E : Type*}

/-! ## 1. Sizes and levels -/

/-- `next_power_of_two`, on 64 bits: all bits below the highest one of `size - 1` are set, and one
is added. -/
def nextPowerOfTwo (size : ℕ) : ℕ :=
  if size = 0 then 1
  else
    let size := size - 1
    let size := size ||| (size >>> 1)
    let size := size ||| (size >>> 2)
    let size := size ||| (size >>> 4)
    let size := size ||| (size >>> 8)
    let size := size ||| (size >>> 16)
    let size := size ||| (size >>> 32)
    (size + 1) % 2 ^ 64

/-- The loop of `int_log2`. -/
def intLog2Loop (n : ℕ) : ℕ :=
  if n >>> 1 = 0 then 0 else intLog2Loop (n >>> 1) + 1
termination_by n
decreasing_by simp only [Nat.shiftRight_one] at *; omega

/-- `int_log2`, with its assertion that `n` is not 0. -/
def intLog2 (n : ℕ) : Option ℕ :=
  if 0 < n then some (intLog2Loop n) else none

/-- The level of the blocks that serve a request. -/
def levelOf (size : ℕ) : Option ℕ :=
  intLog2 (nextPowerOfTwo size)

/-- Each round of `next_power_of_two` doubles how far down a set bit has spread. -/
theorem testBit_spread {s t m : ℕ} (h : ∀ i, t.testBit i ↔ ∃ j < m, s.testBit (i + j)) (i : ℕ) :
    (t ||| (t >>> m)).testBit i ↔ ∃ j < 2 * m, s.testBit (i + j) := by
  rw [Nat.testBit_or, Nat.testBit_shiftRight, Bool.or_eq_true, h, h]
  constructor
  · rintro (⟨j, hj, hb⟩ | ⟨j, hj, hb⟩)
    · exact ⟨j, by omega, hb⟩
    · exact ⟨m + j, by omega, by rwa [show i + (m + j) = m + i + j by omega]⟩
  · rintro ⟨j, hj, hb⟩
    rcases lt_or_ge j m with hlt | hge
    · exact Or.inl ⟨j, hlt, hb⟩
    · exact Or.inr ⟨j - m, by omega, by rwa [show m + i + (j - m) = i + j by omega]⟩

theorem eq_two_pow_sub_one_of_spread {s t : ℕ} (hs : s < 2 ^ 64)
    (h : ∀ i, t.testBit i ↔ ∃ j < 64, s.testBit (i + j)) : t = 2 ^ Nat.clog 2 (s + 1) - 1 := by
  refine Nat.eq_of_testBit_eq fun i => ?_
  rw [Bool.eq_iff_iff, h, Nat.testBit_two_pow_sub_one, decide_eq_true_iff,
    Nat.lt_clog_iff_pow_lt (by omega), Nat.lt_succ_iff]
  constructor
  · rintro ⟨j, -, hb⟩
    calc 2 ^ i ≤ 2 ^ (i + j) := Nat.pow_le_pow_right (by omega) (by omega)
      _ ≤ s := Nat.ge_two_pow_of_testBit hb
  · intro hle
    obtain ⟨j, hj, hb⟩ := Nat.exists_ge_and_testBit_of_ge_two_pow hle
    have hlt : j < 64 := by
      by_contra hno
      have hbit := Nat.testBit_lt_two_pow (lt_of_lt_of_le hs
        (Nat.pow_le_pow_right (by omega : 0 < 2) (not_lt.mp hno)))
      simp [hbit] at hb
    exact ⟨j - i, by omega, by rwa [show i + (j - i) = j by omega]⟩

/-- Up to the largest power of two of 64 bits a size is rounded up; beyond it the sum overflows. -/
theorem nextPowerOfTwo_eq {size : ℕ} (h : size < 2 ^ 64) :
    nextPowerOfTwo size = if size ≤ 2 ^ 63 then 2 ^ Nat.clog 2 size else 0 := by
  unfold nextPowerOfTwo
  rcases Nat.eq_zero_or_pos size with rfl | hpos
  · simp
  rw [if_neg (by omega)]
  obtain ⟨s, rfl⟩ : ∃ s, size = s + 1 := ⟨size - 1, by omega⟩
  rw [Nat.add_sub_cancel]
  have h0 : ∀ i, s.testBit i ↔ ∃ j < 1, s.testBit (i + j) := by simp
  have h6 := testBit_spread (testBit_spread (testBit_spread (testBit_spread (testBit_spread
    (testBit_spread h0)))))
  dsimp only
  rw [eq_two_pow_sub_one_of_spread (by omega) h6, Nat.sub_add_cancel Nat.one_le_two_pow]
  split
  · rename_i hle
    have hclog : Nat.clog 2 (s + 1) ≤ 63 := (Nat.clog_le_iff_le_pow (by omega)).mpr hle
    exact Nat.mod_eq_of_lt (Nat.pow_lt_pow_right (by omega) (by omega))
  · rename_i hgt
    have hclog : Nat.clog 2 (s + 1) = 64 := by
      refine le_antisymm ((Nat.clog_le_iff_le_pow (by omega)).mpr (by omega)) ?_
      exact (Nat.lt_clog_iff_pow_lt (by omega)).mpr (not_le.mp hgt)
    rw [hclog, Nat.mod_self]

theorem intLog2Loop_two_pow : ∀ l : ℕ, intLog2Loop (2 ^ l) = l
  | 0 => by rw [intLog2Loop, if_pos (by decide)]
  | l + 1 => by
    have hhalf : 2 ^ (l + 1) >>> 1 = 2 ^ l := by
      rw [Nat.shiftRight_one, pow_succ, Nat.mul_div_cancel _ (by omega)]
    rw [intLog2Loop, hhalf, if_neg (Nat.two_pow_pos l).ne', intLog2Loop_two_pow l]

/-- **The level of a request** is that of the smallest power of two that holds it.  The assertion of
`int_log2` stops requests beyond half of the address space. -/
theorem levelOf_eq {size : ℕ} (h : size < 2 ^ 64) :
    levelOf size = if size ≤ 2 ^ 63 then some (Nat.clog 2 size) else none := by
  rw [levelOf, nextPowerOfTwo_eq h]
  split
  · rw [intLog2, if_pos (Nat.two_pow_pos _), intLog2Loop_two_pow]
  · rfl

theorem levelOf_two_pow {l : ℕ} (h : l ≤ 63) : levelOf (2 ^ l) = some l := by
  have hpow : 2 ^ l ≤ 2 ^ 63 := Nat.pow_le_pow_right (by omega) h
  rw [levelOf_eq (by omega), if_pos hpow, Nat.clog_pow 2 l (by omega)]

/-! ## 2. Free lists -/

/-- `struct avail_block`: a free block, and the events to wait for before it is used. -/
structure AvailBlock (E : Type*) where
  index : ℕ
  prereqs : List E

/-- `class buddy_allocator_metadata`: the number of free lists, and the lists. -/
structure BuddyAllocatorMetadata (E : Type*) where
  levels : ℕ
  freeLists : ℕ → List (AvailBlock E)

namespace BuddyAllocatorMetadata

/-- The constructor, with its assertion that the size is a power of two: all of the memory is one
free block. -/
def create (size : ℕ) (initPrereqs : List E) : Option (BuddyAllocatorMetadata E) :=
  if size ≠ 0 ∧ size &&& (size - 1) = 0 then
    (levelOf size).map fun k =>
      { levels := k + 1
        freeLists := fun l => if l = k then [⟨0, initPrereqs⟩] else [] }
  else none

/-- `free_lists_[level].emplace_back(..)`. -/
def push (level : ℕ) (b : AvailBlock E) (free : ℕ → List (AvailBlock E)) :
    ℕ → List (AvailBlock E) :=
  Function.update free level (free level ++ [b])

/-- The loop that splits a block taken `n` levels above the requested one. -/
def split (level index : ℕ) (prereqs : List E) :
    ℕ → (ℕ → List (AvailBlock E)) → ℕ → List (AvailBlock E)
  | 0, free => free
  | n + 1, free =>
    split level index prereqs n (push (level + n) ⟨index + 2 ^ (level + n), prereqs⟩ free)

/-- What `allocate` and `find_free_block` give back: the offset, or nothing for `-1`; the
prerequisites, and the new lists. -/
structure Allocation (E : Type*) where
  index : Option ℕ
  prereqs : List E
  data : BuddyAllocatorMetadata E

def findFreeBlock (level : ℕ) (prereqs : List E) (m : BuddyAllocatorMetadata E) : Allocation E :=
  match (List.range' level (m.levels - level)).find? fun l => !(m.freeLists l).isEmpty with
  | none => ⟨none, prereqs, m⟩
  | some current =>
    match (m.freeLists current).getLast? with
    | none => ⟨none, prereqs, m⟩
    | some b =>
      let free := Function.update m.freeLists current (m.freeLists current).dropLast
      { index := some b.index
        prereqs := prereqs ++ b.prereqs
        data := { m with freeLists := split level b.index b.prereqs (current - level) free } }

/-- `allocate`, with no result where the assertion of `int_log2` fails. -/
def allocate (size : ℕ) (prereqs : List E) (m : BuddyAllocatorMetadata E) :
    Option (Allocation E) :=
  (levelOf size).map fun level =>
    if m.levels ≤ level then ⟨none, prereqs, m⟩ else m.findFreeBlock level prereqs

def getBuddyIndex (index level : ℕ) : ℕ :=
  index ^^^ (1 <<< level)

/-- Where the loop of `deallocate` has got to. -/
structure Merge (E : Type*) where
  level : ℕ
  index : ℕ
  blockPrereqs : List E
  freeLists : ℕ → List (AvailBlock E)

/-- The loop of `deallocate`, with at most `n` levels to go. -/
def mergeBuddies : ℕ → Merge E → Merge E
  | 0, s => s
  | n + 1, s =>
    let buddyIndex := getBuddyIndex s.index s.level
    match (s.freeLists s.level).find? fun b => b.index = buddyIndex with
    | none => s
    | some b =>
      mergeBuddies n
        { level := s.level + 1
          index := min s.index buddyIndex
          blockPrereqs := s.blockPrereqs ++ b.prereqs
          freeLists := Function.update s.freeLists s.level
            ((s.freeLists s.level).eraseP fun b => b.index = buddyIndex) }

/-- `deallocate`.  The merged prerequisites are not what the block is entered with. -/
def deallocate (index size : ℕ) (prereqs : List E) (m : BuddyAllocatorMetadata E) :
    Option (BuddyAllocatorMetadata E) :=
  (levelOf size).map fun level =>
    let s := mergeBuddies (m.levels - 1 - level) ⟨level, index, prereqs, m.freeLists⟩
    { m with freeLists := push s.level ⟨s.index, prereqs⟩ s.freeLists }

/-! ## 3. What the calls do -/

/-- The lists after a split: one block more at each level passed. -/
theorem split_apply (level index : ℕ) (prereqs : List E) :
    ∀ (n : ℕ) (free : ℕ → List (AvailBlock E)) (l : ℕ),
      split level index prereqs n free l
        = if level ≤ l ∧ l < level + n then free l ++ [⟨index + 2 ^ l, prereqs⟩] else free l
  | 0, free, l => by simp [split]
  | n + 1, free, l => by
    rw [split, split_apply level index prereqs n, push]
    rcases eq_or_ne l (level + n) with rfl | hl
    · simp
    · rw [Function.update_of_ne hl]
      have hiff : level ≤ l ∧ l < level + n ↔ level ≤ l ∧ l < level + (n + 1) := by omega
      simp only [hiff]

/-- **The two outcomes of a request**: there is no block for it, or the last block of the first list
that is not empty is split. -/
theorem allocate_cases {size : ℕ} {prereqs : List E} {m : BuddyAllocatorMetadata E}
    {r : Allocation E} (hsize : size < 2 ^ 64) (h : m.allocate size prereqs = some r) :
    (r = ⟨none, prereqs, m⟩ ∧
      ∀ l, Nat.clog 2 size ≤ l → l < m.levels → m.freeLists l = []) ∨
    ∃ c b rest, Nat.clog 2 size ≤ c ∧ c < m.levels ∧ m.freeLists c = rest ++ [b] ∧
      (∀ l, Nat.clog 2 size ≤ l → l < c → m.freeLists l = []) ∧
      r = ⟨some b.index, prereqs ++ b.prereqs, { m with
        freeLists := split (Nat.clog 2 size) b.index b.prereqs (c - Nat.clog 2 size)
          (Function.update m.freeLists c rest) }⟩ := by
  obtain ⟨level, hlevel, rfl⟩ := Option.map_eq_some_iff.mp h
  have heq : level = Nat.clog 2 size := by
    rw [levelOf_eq hsize] at hlevel
    split at hlevel
    · exact (Option.some.inj hlevel).symm
    · exact absurd hlevel (by simp)
  subst heq
  split
  · rename_i hle
    exact Or.inl ⟨rfl, fun l h1 h2 => by omega⟩
  unfold findFreeBlock
  cases hfind : (List.range' (Nat.clog 2 size) (m.levels - Nat.clog 2 size)).find?
      fun l => !(m.freeLists l).isEmpty with
  | none =>
    refine Or.inl ⟨rfl, fun l h1 h2 => ?_⟩
    have hno := List.find?_eq_none.mp hfind l (List.mem_range'_1.mpr (by omega))
    simpa using hno
  | some c =>
    obtain ⟨hc, as, bs, hsplit, has⟩ := List.find?_eq_some_iff_append.mp hfind
    have hmem := List.mem_range'_1.mp (List.mem_of_find?_eq_some hfind)
    obtain ⟨rest, b, hlast⟩ : ∃ rest b, m.freeLists c = rest ++ [b] := by
      rcases List.eq_nil_or_concat (m.freeLists c) with hnil | ⟨rest, b, hlast⟩
      · simp [hnil] at hc
      · exact ⟨rest, b, by rw [hlast, List.concat_eq_append]⟩
    refine Or.inr ⟨c, b, rest, hmem.1, by omega, hlast, fun l h1 h2 => ?_, ?_⟩
    · have hin : l ∈ as := by
        have hsorted : (as ++ c :: bs).Pairwise (· < ·) := by
          rw [← hsplit]
          exact List.pairwise_lt_range'
        have hl : l ∈ as ++ c :: bs := by
          rw [← hsplit]
          exact List.mem_range'_1.mpr (by omega)
        rcases List.mem_append.mp hl with hl | hl
        · exact hl
        · rcases List.mem_cons.mp hl with rfl | hl
          · omega
          · have := List.rel_of_pairwise_cons (List.pairwise_append.mp hsorted).2.1 hl
            omega
      simpa using has l hin
    · simp [hlast]

/-- A block given back is entered at the level where the loop stops. -/
theorem deallocate_some {index size : ℕ} {prereqs : List E} {m m' : BuddyAllocatorMetadata E}
    (hsize : size < 2 ^ 64) (h : m.deallocate index size prereqs = some m') :
    ∃ s, mergeBuddies (m.levels - 1 - Nat.clog 2 size)
        ⟨Nat.clog 2 size, index, prereqs, m.freeLists⟩ = s ∧
      m' = { m with freeLists := push s.level ⟨s.index, prereqs⟩ s.freeLists } := by
  obtain ⟨level, hlevel, rfl⟩ := Option.map_eq_some_iff.mp h
  rw [levelOf_eq hsize] at hlevel
  split at hlevel
  · obtain rfl := Option.some.inj hlevel
    exact ⟨_, rfl, rfl⟩
  · exact absurd hlevel (by simp)

/-- A block and its buddy are the halves of a block one level up. -/
theorem getBuddyIndex_cases {index level : ℕ} (h : 2 ^ level ∣ index) :
    (2 ^ (level + 1) ∣ index ∧ getBuddyIndex index level = index + 2 ^ level) ∨
      ∃ lower, 2 ^ (level + 1) ∣ lower ∧ index = lower + 2 ^ level ∧
        getBuddyIndex index level = lower := by
  obtain ⟨q, rfl⟩ := h
  have hxor : getBuddyIndex (2 ^ level * q) level = 2 ^ level * (q ^^^ 1) := by
    rw [getBuddyIndex, Nat.mul_comm, ← Nat.shiftLeft_eq, ← Nat.shiftLeft_xor_distrib,
      Nat.shiftLeft_eq, Nat.mul_comm]
  rw [hxor, pow_succ]
  rcases Nat.even_or_odd q with heven | hodd
  · obtain ⟨r, rfl⟩ := heven.two_dvd
    refine Or.inl ⟨Nat.mul_dvd_mul_left _ (Nat.dvd_mul_right 2 r), ?_⟩
    rw [Nat.xor_one_of_even heven, Nat.mul_succ]
  · obtain ⟨r, rfl⟩ := hodd
    refine Or.inr ⟨2 ^ level * (2 * r), Nat.mul_dvd_mul_left _ (Nat.dvd_mul_right 2 r),
      Nat.mul_succ _ _, ?_⟩
    rw [Nat.xor_one_of_odd ⟨r, rfl⟩, Nat.add_sub_cancel]

/-- **The rule for the loop of `deallocate`**: what holds at first and is kept by each merge holds at
the end, where there is no buddy to merge with or no level left. -/
theorem mergeBuddies_rule {P : Merge E → Prop} (maxLevel : ℕ)
    (hmerge : ∀ (s : Merge E) (b : AvailBlock E), P s → s.level < maxLevel →
      b ∈ s.freeLists s.level → b.index = getBuddyIndex s.index s.level →
      P ⟨s.level + 1, min s.index b.index, s.blockPrereqs ++ b.prereqs,
        Function.update s.freeLists s.level
          ((s.freeLists s.level).eraseP fun b' => b'.index = b.index)⟩) :
    ∀ (n : ℕ) (s : Merge E), s.level + n = maxLevel → P s →
      P (mergeBuddies n s) ∧ ((mergeBuddies n s).level = maxLevel ∨
        ∀ b ∈ (mergeBuddies n s).freeLists (mergeBuddies n s).level,
          b.index ≠ getBuddyIndex (mergeBuddies n s).index (mergeBuddies n s).level)
  | 0, s, hn, hs => ⟨hs, Or.inl (by simpa [mergeBuddies] using hn)⟩
  | n + 1, s, hn, hs => by
    rw [mergeBuddies]
    cases hfind : (s.freeLists s.level).find? fun b => b.index = getBuddyIndex s.index s.level with
    | none => exact ⟨hs, Or.inr fun b hb => by simpa using List.find?_eq_none.mp hfind b hb⟩
    | some b =>
      have hidx : b.index = getBuddyIndex s.index s.level := by
        simpa using List.find?_some hfind
      refine mergeBuddies_rule maxLevel hmerge n _ (by simp only; omega) ?_
      rw [← hidx]
      exact hmerge s b hs (by omega) (List.mem_of_find?_eq_some hfind) hidx

end BuddyAllocatorMetadata

/-! ## 4. Runs -/

/-- The allocator, the blocks handed out and not yet given back, each with the size asked for, and
for each byte the events of its last deallocation. -/
structure BuddyState (E : Type*) where
  data : BuddyAllocatorMetadata E
  live : List (ℕ × ℕ)
  released : ℕ → List E

/-- A request, or a block given back with the size it was asked for and the events of its users. -/
inductive BuddyAction (E : Type*) where
  | allocate (size : ℕ) (prereqs : List E)
  | deallocate (index size : ℕ) (prereqs : List E)

/-- The byte is in a block of `2 ^ level` bytes. -/
def InBlock (level index x : ℕ) : Prop :=
  index ≤ x ∧ x < index + 2 ^ level

instance (level index x : ℕ) : Decidable (InBlock level index x) :=
  inferInstanceAs (Decidable (_ ∧ _))

/-- One call.  Sizes are 64 bits wide. -/
inductive BuddyStep : BuddyState E → BuddyAction E → BuddyState E → Prop
  | allocate {s : BuddyState E} {size : ℕ} {prereqs : List E}
      {r : BuddyAllocatorMetadata.Allocation E} (hsize : size < 2 ^ 64)
      (hr : s.data.allocate size prereqs = some r) :
      BuddyStep s (.allocate size prereqs)
        { s with data := r.data, live := s.live ++ (r.index.map fun i => (i, size)).toList }
  | deallocate {s : BuddyState E} {index size : ℕ} {prereqs : List E}
      {m : BuddyAllocatorMetadata E} (hlive : (index, size) ∈ s.live) (hsize : size < 2 ^ 64)
      (hm : s.data.deallocate index size prereqs = some m) :
      BuddyStep s (.deallocate index size prereqs)
        { data := m
          live := s.live.erase (index, size)
          released := fun x =>
            if InBlock (Nat.clog 2 size) index x then prereqs else s.released x }

/-- The runs of an allocator for `size` bytes, restricted to some calls. -/
def buddyRuns (size : ℕ) (initPrereqs : List E) (use : BuddyState E → BuddyAction E → Prop) :
    Lts (BuddyState E) (BuddyAction E) where
  init s := size < 2 ^ 64 ∧ ∃ m, BuddyAllocatorMetadata.create size initPrereqs = some m ∧
    s = ⟨m, [], fun _ => initPrereqs⟩
  step s a s' := use s a ∧ BuddyStep s a s'

end Cccl.Stf
