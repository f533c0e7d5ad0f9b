/-
# Linked lists

A list of nodes is linked if each node has the address of the one after it, and the last one has some end.
The nodes, their addresses and their links are parameters, so that one node may be in several lists.

Appending lists is appending what is linked (`chain_append`).  A list that ends elsewhere is the same list with
the link of its last node changed (`Chain.setEnd`): with this, nodes are put between others, moved and taken
out.  A list that is linked both ways is linked by one link, and its reverse by the other one.
-/
import Mathlib.Data.List.Nodup

namespace Cccl.Chains

variable {α : Type*} {addr : α → ℕ}

/-- Where a list begins, which is where it ends if there is no node. -/
def first (addr : α → ℕ) (l : List α) (stop : ℕ) : ℕ :=
  match l with
  | [] => stop
  | x :: _ => addr x

/-- Each node is linked to the next one, and the last one to the end. -/
def Chain (addr next : α → ℕ) : List α → ℕ → Prop
  | [], _ => True
  | x :: l, stop => next x = first addr l stop ∧ Chain addr next l stop

@[simp] theorem first_cons (x : α) (l : List α) (stop : ℕ) : first addr (x :: l) stop = addr x := rfl

theorem first_append (l₁ l₂ : List α) (stop : ℕ) :
    first addr (l₁ ++ l₂) stop = first addr l₁ (first addr l₂ stop) := by
  cases l₁ <;> rfl

theorem chain_append {next : α → ℕ} {l₁ l₂ : List α} {stop : ℕ} :
    Chain addr next (l₁ ++ l₂) stop ↔
      Chain addr next l₁ (first addr l₂ stop) ∧ Chain addr next l₂ stop := by
  induction l₁ with
  | nil => exact (true_and _).symm.to_iff
  | cons x l₁ ih => rw [List.cons_append, Chain, Chain, ih, first_append, and_assoc]

theorem Chain.congr {next next' : α → ℕ} {l : List α} {stop : ℕ} (h : Chain addr next l stop)
    (hnext : ∀ x ∈ l, next' x = next x) : Chain addr next' l stop := by
  induction l with
  | nil => trivial
  | cons x l ih =>
    obtain ⟨hx, hl⟩ := List.forall_mem_cons.mp hnext
    exact ⟨hx.trans h.1, ih h.2 hl⟩

theorem Chain.setEnd [DecidableEq α] {next next' : α → ℕ} {l : List α} {stop stop' : ℕ}
    (h : Chain addr next l stop) (hnodup : l.Nodup)
    (hnext : ∀ x ∈ l, next' x = if l.getLast? = some x then stop' else next x) :
    Chain addr next' l stop' := by
  induction l with
  | nil => trivial
  | cons x l ih =>
    obtain ⟨hx, hl⟩ := List.forall_mem_cons.mp hnext
    obtain ⟨hnot, hnodup⟩ := List.nodup_cons.mp hnodup
    cases l with
    | nil => exact ⟨hx.trans (if_pos rfl), trivial⟩
    | cons y l =>
      have hne : (x :: y :: l).getLast? ≠ some x := by
        rw [List.getLast?_cons_cons]
        exact fun heq => hnot (List.mem_of_getLast? heq)
      refine ⟨by rw [hx, if_neg hne]; exact h.1, ih h.2 hnodup fun z hz => ?_⟩
      rw [hl z hz, List.getLast?_cons_cons]

/-- **A node is taken out.**  What is before it ends elsewhere, and what is after it is as it was. -/
theorem Chain.takeOut [DecidableEq α] {next : α → ℕ} {l₁ l₂ : List α} {x : α} {stop : ℕ}
    (h : Chain addr next (l₁ ++ x :: l₂) stop) (hnodup : (l₁ ++ x :: l₂).Nodup) (next' : α → ℕ)
    (stop' : ℕ) (hnext : ∀ y ∈ l₁ ++ l₂, next' y = if l₁.getLast? = some y then stop' else next y) :
    Chain addr next' l₁ stop' ∧ next x = first addr l₂ stop ∧ Chain addr next' l₂ stop := by
  obtain ⟨hbefore, hx, hafter⟩ := chain_append.mp h
  obtain ⟨hnodup₁, -, hdisjoint⟩ := List.nodup_append.mp hnodup
  refine ⟨hbefore.setEnd hnodup₁ fun y hy => hnext y (List.mem_append_left _ hy), hx,
    hafter.congr fun y hy => ?_⟩
  have hne : l₁.getLast? ≠ some y := fun heq =>
    hdisjoint y (List.mem_of_getLast? heq) y (List.mem_cons_of_mem _ hy) rfl
  rw [hnext y (List.mem_append_right _ hy), if_neg hne]

theorem Chain.next_of_getLast? {next : α → ℕ} {l₁ l₂ : List α} {x y : α} {stop : ℕ}
    (h : Chain addr next (l₁ ++ x :: l₂) stop) (hy : l₁.getLast? = some y) : next y = addr x := by
  obtain ⟨l, rfl⟩ := List.getLast?_eq_some_iff.mp hy
  rw [List.append_assoc] at h
  exact (chain_append.mp h).2.1

end Cccl.Chains
