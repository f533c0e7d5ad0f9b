/-
# The upstream resource of a pool

An upstream resource answers as it likes, if only what it returns is fresh.  What it has answered and not
got back is a list of allocations, which must be given back each with its own size and alignment.

The allocations are apart from each other and have some bytes (`Held`): an allocation keeps this
(`Held.doAllocate`), and what is in the list can be given back (`doDeallocate_of_mem`, `giveBack_of_perm`).
-/
import Cccl.Lib.Regions
import Mathlib.Algebra.Order.BigOperators.Group.List

namespace Cccl.Pool

open Regions

structure Allocation where
  pointer : ℕ
  size : ℕ
  alignment : ℕ
deriving DecidableEq

/-- What an upstream resource returns depends on how often it has been called and on what it has
allocated.  It may return nothing, which stands for `bad_alloc`. -/
structure Upstream where
  answer : ℕ → List Allocation → ℕ → ℕ → Option ℕ
  fresh : ∀ {calls outstanding size alignment p},
    answer calls outstanding size alignment = some p →
    p % alignment = 0 ∧ p + size ≤ 2 ^ 64 ∧ ∀ a ∈ outstanding, Apart p size a.pointer a.size

/-- What has been allocated from the upstream resource and not been given back. -/
structure World where
  calls : ℕ
  outstanding : List Allocation

def Upstream.doAllocate (u : Upstream) (size alignment : ℕ) (w : World) : Option ℕ × World :=
  match u.answer w.calls w.outstanding size alignment with
  | some p => (some p, ⟨w.calls + 1, ⟨p, size, alignment⟩ :: w.outstanding⟩)
  | none => (none, ⟨w.calls + 1, w.outstanding⟩)

/-- An allocation must be given back with its own size and alignment. -/
def World.doDeallocate (w : World) (pointer size alignment : ℕ) : Option World :=
  if ⟨pointer, size, alignment⟩ ∈ w.outstanding then
    some { w with outstanding := w.outstanding.erase ⟨pointer, size, alignment⟩ }
  else none

/-- Some allocations are given back one after the other. -/
def giveBack : List Allocation → World → Option World
  | [], w => some w
  | a :: rest, w => (w.doDeallocate a.pointer a.size a.alignment).bind (giveBack rest)

/-- The allocations have some bytes, are as aligned as they should be, and are apart from each other. -/
structure Held (l : List Allocation) : Prop where
  apart : l.Pairwise fun a b => Apart a.pointer a.size b.pointer b.size
  pos : ∀ a ∈ l, 0 < a.size
  aligned : ∀ a ∈ l, a.pointer % a.alignment = 0

theorem Held.nil : Held [] :=
  ⟨List.Pairwise.nil, fun _ h => absurd h List.not_mem_nil, fun _ h => absurd h List.not_mem_nil⟩

theorem Held.sublist {l l' : List Allocation} (h : Held l) (hsub : List.Sublist l' l) : Held l' :=
  ⟨h.apart.sublist hsub, fun a ha => h.pos a (hsub.mem ha), fun a ha => h.aligned a (hsub.mem ha)⟩

theorem Held.perm {l l' : List Allocation} (h : Held l) (hperm : List.Perm l l') : Held l' where
  apart := hperm.pairwise h.apart fun hab => hab.symm
  pos a ha := h.pos a (hperm.mem_iff.mpr ha)
  aligned a ha := h.aligned a (hperm.mem_iff.mpr ha)

theorem Held.pointers_nodup {l : List Allocation} (h : Held l) :
    (l.map Allocation.pointer).Nodup := by
  rw [List.Nodup, List.pairwise_map]
  refine h.apart.imp_of_mem fun ha hb hab => ?_
  exact hab.ne (h.pos _ ha) (h.pos _ hb)

/-- **What an upstream resource answers.**  Nothing, and nothing is allocated, or a new allocation. -/
theorem doAllocate_cases (u : Upstream) (size alignment : ℕ) (w : World) :
    (∃ w', u.doAllocate size alignment w = (none, w') ∧ w'.outstanding = w.outstanding) ∨
    ∃ p w', u.doAllocate size alignment w = (some p, w') ∧
      w'.outstanding = ⟨p, size, alignment⟩ :: w.outstanding ∧
      (0 < size → Held w.outstanding → Held w'.outstanding) := by
  rw [Upstream.doAllocate]
  cases hanswer : u.answer w.calls w.outstanding size alignment with
  | none => exact Or.inl ⟨_, rfl, rfl⟩
  | some p =>
    obtain ⟨haligned, -, hfresh⟩ := u.fresh hanswer
    refine Or.inr ⟨p, _, rfl, rfl, fun hpos hheld => ⟨?_, ?_, ?_⟩⟩
    · exact List.pairwise_cons.mpr ⟨hfresh, hheld.apart⟩
    · exact List.forall_mem_cons.mpr ⟨hpos, hheld.pos⟩
    · exact List.forall_mem_cons.mpr ⟨haligned, hheld.aligned⟩

theorem doDeallocate_of_mem {w : World} {a : Allocation} (h : a ∈ w.outstanding) :
    w.doDeallocate a.pointer a.size a.alignment =
      some { w with outstanding := w.outstanding.erase a } := if_pos h

theorem doDeallocate_of_perm {w : World} {a : Allocation} {l : List Allocation}
    (h : w.outstanding.Perm (a :: l)) :
    ∃ w', w.doDeallocate a.pointer a.size a.alignment = some w' ∧ w'.outstanding.Perm l ∧
      List.Sublist w'.outstanding w.outstanding := by
  refine ⟨_, doDeallocate_of_mem (h.mem_iff.mpr List.mem_cons_self), ?_, List.erase_sublist⟩
  simpa using h.erase a

theorem giveBack_of_perm (l rest : List Allocation) (w : World)
    (h : w.outstanding.Perm (l ++ rest)) :
    ∃ w', giveBack l w = some w' ∧ w'.outstanding.Perm rest := by
  induction l generalizing w with
  | nil => exact ⟨w, rfl, h⟩
  | cons a l ih =>
    obtain ⟨w', hback, hperm, -⟩ := doDeallocate_of_perm h
    obtain ⟨w'', hrest, hperm'⟩ := ih w' hperm
    refine ⟨w'', ?_, hperm'⟩
    rw [giveBack, hback]
    exact hrest

/-- An upstream resource that allocates above all that is outstanding, as long as there is room. -/
def Upstream.above : Upstream where
  answer _ outstanding size alignment :=
    let p := alignment * (1 + (outstanding.map fun a => a.pointer + a.size).sum)
    if 0 < alignment ∧ p + size ≤ 2 ^ 64 then some p else none
  fresh := by
    intro calls outstanding size alignment p h
    dsimp only at h
    split at h
    · rename_i hroom
      obtain rfl := Option.some_inj.mp h
      refine ⟨Nat.mul_mod_right _ _, hroom.2, fun a ha => Or.inr ?_⟩
      have hle := List.single_le_sum (fun x _ => Nat.zero_le x) _
        (List.mem_map_of_mem (f := fun a : Allocation => a.pointer + a.size) ha)
      exact (hle.trans (Nat.le_add_left _ 1)).trans (Nat.le_mul_of_pos_left _ hroom.1)
    · exact absurd h (by simp)

end Cccl.Pool
