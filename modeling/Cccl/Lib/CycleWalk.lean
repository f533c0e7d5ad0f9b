/-
# Cycle walking

A permutation of a large set is turned into one of a small set inside it: from an element of the small set,
the permutation is applied until the small set is met again (`walk`).

This is no partial function.  A permutation of a finite set comes back to where it started, which is in the
small set, so the walk ends at the latest there (`exists_walk`).  And it does not end in the same place from
two starts: of two walks with one end, the longer one would pass the start of the shorter one, and end there
(`walk_injective`).
-/
import Mathlib.Dynamics.PeriodicPts.Lemmas

namespace Cccl.CycleWalk

/-! ## 1. Bijections of initial segments -/

/-- The relation is a bijection of the numbers below a bound onto themselves. -/
structure Bijects (n : ℕ) (R : ℕ → ℕ → Prop) : Prop where
  maps : ∀ v < n, ∃ w < n, R v w
  onto : ∀ w < n, ∃ v < n, R v w
  injective : ∀ v < n, ∀ v' < n, ∀ w, R v w → R v' w → v = v'

/-- **On finitely many numbers, it is enough that the relation is an injective function.** -/
theorem bijects_of_injective {n : ℕ} {R : ℕ → ℕ → Prop} (hmaps : ∀ v < n, ∃ w < n, R v w)
    (hinj : ∀ v < n, ∀ v' < n, ∀ w, R v w → R v' w → v = v') : Bijects n R := by
  refine ⟨hmaps, fun w hw => ?_, hinj⟩
  choose f hf hR using hmaps
  have hinjective : Function.Injective fun v : Fin n => (⟨f v.1 v.2, hf v.1 v.2⟩ : Fin n) := by
    intro v v' h
    have hsame : f v.1 v.2 = f v'.1 v'.2 := congrArg Fin.val h
    exact Fin.ext (hinj v.1 v.2 v'.1 v'.2 _ (hR v.1 v.2) (hsame ▸ hR v'.1 v'.2))
  obtain ⟨v, hv⟩ := Finite.surjective_of_injective hinjective ⟨w, hw⟩
  have hvalue : f v.1 v.2 = w := congrArg Fin.val hv
  exact ⟨v.1, v.2, hvalue ▸ hR v.1 v.2⟩

/-! ## 2. The walk -/

variable {α : Type} (f : α → α) (p : α → Prop) [DecidablePred p]

/-- `do x = f(x); while (!p(x));`, for so many iterations. -/
def walk : ℕ → α → Option α
  | 0, _ => none
  | fuel + 1, x => if p (f x) then some (f x) else walk fuel (f x)

variable {f p}

/-- **The walk ends at the first place** that has the property. -/
theorem walk_eq_some_iff {y : α} : ∀ {fuel : ℕ} {x : α}, walk f p fuel x = some y ↔
    ∃ k < fuel, f^[k + 1] x = y ∧ p y ∧ ∀ j < k, ¬ p (f^[j + 1] x)
  | 0, x => by simp [walk]
  | fuel + 1, x => by
    rw [walk]
    constructor
    · intro h
      split at h
      · rename_i hstop
        obtain rfl := Option.some.inj h
        exact ⟨0, Nat.succ_pos _, rfl, hstop, fun j hj => absurd hj (Nat.not_lt_zero j)⟩
      · rename_i hmore
        obtain ⟨k, hk, hend, hy, hfirst⟩ := walk_eq_some_iff.mp h
        refine ⟨k + 1, Nat.succ_lt_succ hk, hend, hy, fun j hj => ?_⟩
        cases j with
        | zero => exact hmore
        | succ j => exact hfirst j (Nat.lt_of_succ_lt_succ hj)
    · rintro ⟨k, hk, hend, hy, hfirst⟩
      cases k with
      | zero =>
        have hstop : f x = y := hend
        rw [hstop, if_pos hy]
      | succ k =>
        have hmore : ¬ p (f x) := hfirst 0 (Nat.succ_pos k)
        rw [if_neg hmore]
        exact walk_eq_some_iff.mpr ⟨k, Nat.lt_of_succ_lt_succ hk, hend, hy, fun j hj =>
          hfirst (j + 1) (Nat.succ_lt_succ hj)⟩

theorem exists_walk_of_iterate {x : α} {k : ℕ} (hk : p (f^[k + 1] x)) :
    ∃ fuel y, walk f p fuel x = some y := by
  have hexists : ∃ k, p (f^[k + 1] x) := ⟨k, hk⟩
  exact ⟨Nat.find hexists + 1, f^[Nat.find hexists + 1] x, walk_eq_some_iff.mpr
    ⟨Nat.find hexists, Nat.lt_succ_self _, rfl, Nat.find_spec hexists, fun j hj => Nat.find_min hexists hj⟩⟩

/-- **The walk of a permutation ends**: it comes back to its start. -/
theorem exists_walk [Finite α] (hf : Function.Injective f) {x : α} (hx : p x) :
    ∃ fuel y, walk f p fuel x = some y := by
  obtain ⟨n, hn, hback⟩ := hf.mem_periodicPts x
  obtain ⟨k, rfl⟩ := Nat.exists_eq_succ_of_ne_zero hn.ne'
  refine exists_walk_of_iterate (k := k) ?_
  rwa [hback]

/-- **Walks from two starts do not end in the same place.** -/
theorem walk_injective (hf : Function.Injective f) {x x' y : α} {fuel fuel' : ℕ} (hx : p x) (hx' : p x')
    (h : walk f p fuel x = some y) (h' : walk f p fuel' x' = some y) : x = x' := by
  have hle : ∀ {x x' : α} {k k' : ℕ}, p x → f^[k + 1] x = f^[k' + 1] x' →
      (∀ j < k', ¬ p (f^[j + 1] x')) → k ≤ k' → x = x' := by
    intro x x' k k' hx hend hfirst hkk
    obtain ⟨d, rfl⟩ := Nat.exists_eq_add_of_le hkk
    have hpass : x = f^[d] x' := by
      have hcount : k + d + 1 = (k + 1) + d := by omega
      have hcommon : f^[k + 1] x = f^[k + 1] (f^[d] x') := by
        rw [hend, hcount, Function.iterate_add_apply]
      exact hf.iterate (k + 1) hcommon
    cases d with
    | zero => exact hpass
    | succ d => exact absurd (hpass ▸ hx) (hfirst d (by omega))
  obtain ⟨k, -, hend, -, hfirst⟩ := walk_eq_some_iff.mp h
  obtain ⟨k', -, hend', -, hfirst'⟩ := walk_eq_some_iff.mp h'
  rcases Nat.le_total k k' with hkk | hkk
  · exact hle hx (hend.trans hend'.symm) hfirst' hkk
  · exact (hle hx' (hend'.trans hend.symm) hfirst hkk).symm

end Cccl.CycleWalk
