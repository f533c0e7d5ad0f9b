/-
# Nonempty folds of an associative operation

A scan operator has no identity in general, so the folds of this development are folds of
at least one term.  `fold1 op f lo n` combines the `n + 1` terms `f lo, ..., f (lo + n)` from
left to right.  For an associative operator a fold can be cut anywhere
(`fold1_split`); commutativity is never used.

A fold can also go on from a value (`foldFrom`).  If the operator has an identity, then folds of equal pieces
can be folded again (`foldFrom_pieces`).
-/
import Mathlib.Data.Nat.Notation

namespace Cccl

variable {T : Type*}

/-- The in-order fold of `f lo, ..., f (lo + n)`. -/
def fold1 (op : T → T → T) (f : ℕ → T) (lo : ℕ) : ℕ → T
  | 0 => f lo
  | n + 1 => op (fold1 op f lo n) (f (lo + n + 1))

@[simp] theorem fold1_zero (op : T → T → T) (f : ℕ → T) (lo : ℕ) : fold1 op f lo 0 = f lo := rfl

theorem fold1_succ (op : T → T → T) (f : ℕ → T) (lo n : ℕ) :
    fold1 op f lo (n + 1) = op (fold1 op f lo n) (f (lo + n + 1)) := rfl

/-- **Cutting a fold.**  Folding `n + 1 + (m + 1)` terms is folding the first `n + 1`, then the
remaining `m + 1`, and combining the two in that order. -/
theorem fold1_split {op : T → T → T} (hop : ∀ a b c, op (op a b) c = op a (op b c))
    (f : ℕ → T) (lo n : ℕ) :
    ∀ m, fold1 op f lo (n + m + 1) = op (fold1 op f lo n) (fold1 op f (lo + n + 1) m)
  | 0 => rfl
  | m + 1 => by
    have ih := fold1_split hop f lo n m
    have hidx : lo + (n + m + 1) + 1 = lo + n + 1 + m + 1 := by omega
    calc fold1 op f lo (n + (m + 1) + 1)
        = op (fold1 op f lo (n + m + 1)) (f (lo + (n + m + 1) + 1)) := rfl
      _ = op (op (fold1 op f lo n) (fold1 op f (lo + n + 1) m)) (f (lo + n + 1 + m + 1)) := by
          rw [ih, hidx]
      _ = op (fold1 op f lo n) (fold1 op f (lo + n + 1) (m + 1)) := hop _ _ _

/-- **Reading a fold backwards.**  Folding with the operands exchanged, over terms listed in
descending order, is the in-order fold. -/
theorem fold1_swap {op : T → T → T} (hop : ∀ a b c, op (op a b) c = op a (op b c))
    {f v : ℕ → T} {lo : ℕ} :
    ∀ {base n : ℕ}, (∀ k, k ≤ n → v (lo + k) = f (base + (n - k))) →
      fold1 (fun a b => op b a) v lo n = fold1 op f base n
  | base, 0, h => by simpa using h 0 (Nat.le_refl 0)
  | base, n + 1, h => by
    have hlow : fold1 (fun a b => op b a) v lo n = fold1 op f (base + 1) n := by
      refine fold1_swap hop fun k hk => ?_
      rw [h k (by omega)]
      congr 1
      omega
    have hlast : v (lo + n + 1) = f base := by
      have := h (n + 1) (Nat.le_refl _)
      simpa [Nat.add_assoc] using this
    have hcut := fold1_split hop f base 0 n
    rw [Nat.zero_add] at hcut
    calc fold1 (fun a b => op b a) v lo (n + 1)
        = op (v (lo + n + 1)) (fold1 (fun a b => op b a) v lo n) := rfl
      _ = op (f base) (fold1 op f (base + 1) n) := by rw [hlow, hlast]
      _ = fold1 op f base (n + 1) := by rw [hcut]; rfl

/-- `f lo, ..., f (lo + n - 1)` are combined with a value, in order. -/
def foldFrom (op : T → T → T) (x : T) (f : ℕ → T) (lo : ℕ) : ℕ → T
  | 0 => x
  | n + 1 => op (foldFrom op x f lo n) (f (lo + n))

theorem foldFrom_succ (op : T → T → T) (x : T) (f : ℕ → T) (lo n : ℕ) :
    foldFrom op x f lo (n + 1) = op (foldFrom op x f lo n) (f (lo + n)) := rfl

theorem foldFrom_add (op : T → T → T) (x : T) (f : ℕ → T) (lo m : ℕ) :
    ∀ n, foldFrom op x f lo (m + n) = foldFrom op (foldFrom op x f lo m) f (lo + m) n
  | 0 => rfl
  | n + 1 => by rw [← Nat.add_assoc, foldFrom_succ, foldFrom_succ, foldFrom_add op x f lo m n, Nat.add_assoc]

theorem foldFrom_congr {op : T → T → T} {x : T} {f g : ℕ → T} {lo lo' : ℕ} :
    ∀ {n}, (∀ k < n, f (lo + k) = g (lo' + k)) → foldFrom op x f lo n = foldFrom op x g lo' n
  | 0, _ => rfl
  | n + 1, h => by
    rw [foldFrom_succ, foldFrom_succ, foldFrom_congr fun k hk => h k (Nat.lt_succ_of_lt hk),
      h n (Nat.lt_succ_self n)]

section Identity

variable {op : T → T → T} {e : T}

theorem op_foldFrom (hop : ∀ a b c, op (op a b) c = op a (op b c)) (hright : ∀ a, op a e = a) (x : T)
    (f : ℕ → T) (lo : ℕ) : ∀ n, op x (foldFrom op e f lo n) = foldFrom op x f lo n
  | 0 => hright x
  | n + 1 => by rw [foldFrom_succ, foldFrom_succ, ← hop, op_foldFrom hop hright x f lo n]

theorem fold1_eq_foldFrom (hleft : ∀ a, op e a = a) (f : ℕ → T) (lo : ℕ) :
    ∀ n, fold1 op f lo n = foldFrom op e f lo (n + 1)
  | 0 => (hleft (f lo)).symm
  | n + 1 => by rw [fold1_succ, foldFrom_succ, ← fold1_eq_foldFrom hleft f lo n, Nat.add_assoc]

/-- **Folding the folds of pieces** of `b` terms each. -/
theorem foldFrom_pieces (hop : ∀ a b c, op (op a b) c = op a (op b c)) (hright : ∀ a, op a e = a) (x : T)
    (f : ℕ → T) (b : ℕ) (lo : ℕ) : ∀ n,
    foldFrom op x (fun k => foldFrom op e f (k * b) b) lo n = foldFrom op x f (lo * b) (n * b)
  | 0 => by rw [Nat.zero_mul]; rfl
  | n + 1 => by
    rw [foldFrom_succ, foldFrom_pieces hop hright x f b lo n, op_foldFrom hop hright, Nat.succ_mul,
      foldFrom_add, Nat.add_mul]

end Identity

end Cccl
