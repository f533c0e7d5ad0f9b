/-
# Computations that make more checks

One computation makes all the checks of another and some more.  Where it succeeds, the other one does, with the same
result; where it fails, the other one fails, too, or its result is bad.
-/
import Mathlib.Init

namespace Cccl

universe u

variable {ε : Type u} {α β : Type u} {bad : α → Prop} {bad' : β → Prop} {v r : Except ε α}

/-! ## 1. Sequences -/

theorem bind_eq_ok {k : α → Except ε β} {b : β} : r >>= k = .ok b ↔ ∃ a, r = .ok a ∧ k a = .ok b := by
  cases r with
  | ok a => exact ⟨fun h => ⟨a, rfl, h⟩, fun ⟨_, ha, h⟩ => Except.ok.inj ha ▸ h⟩
  | error e => exact ⟨fun h => absurd h (by simp [Bind.bind, Except.bind]), fun ⟨_, ha, _⟩ => absurd ha (by simp)⟩

theorem bind_eq_error {k : α → Except ε β} {e : ε} :
    r >>= k = .error e ↔ r = .error e ∨ ∃ a, r = .ok a ∧ k a = .error e := by
  cases r with
  | ok a =>
    refine ⟨fun h => .inr ⟨a, rfl, h⟩, fun h => ?_⟩
    obtain h | ⟨_, ha, h⟩ := h
    · exact absurd h (by simp)
    · exact Except.ok.inj ha ▸ h
  | error f =>
    refine ⟨fun h => .inl (congrArg _ (Except.error.inj h)), fun h => ?_⟩
    obtain h | ⟨_, ha, -⟩ := h
    · exact congrArg _ (Except.error.inj h)
    · exact absurd ha (by simp)

theorem exists_bind_eq_ok {k : α → Except ε β} (h : ∃ a, r = .ok a) (hk : ∀ a, ∃ b, k a = .ok b) :
    ∃ b, r >>= k = .ok b := by
  obtain ⟨a, rfl⟩ := h
  exact hk a

/-! ## 2. More checks -/

/-- `v` makes the checks of `r` and some more, by which a bad result is found. -/
def Checks (bad : α → Prop) (v r : Except ε α) : Prop :=
  match v with
  | .ok a => r = .ok a
  | .error _ => ∀ a, r = .ok a → bad a

theorem Checks.refl (r : Except ε α) : Checks bad r r := by
  cases r with
  | ok a => exact rfl
  | error f => exact fun a h => absurd h (by simp)

theorem Checks.ok {a : α} (h : Checks bad (.ok a) r) : r = .ok a := h

theorem checks_error {f : ε} (h : ∀ a, r = .ok a → bad a) : Checks bad (.error f) r := h

theorem checks_of_iff (h : ∀ a, v = .ok a ↔ r = .ok a) : Checks bad v r := by
  cases v with
  | ok a => exact (h a).mp rfl
  | error f => exact checks_error fun a ha => absurd ((h a).mpr ha) (by simp)

/-- **Checks in sequence.** -/
theorem Checks.bind {kv kr : α → Except ε β} (h : Checks bad v r) (hk : ∀ a, r = .ok a → Checks bad' (kv a) (kr a))
    (hbad : ∀ a b, bad a → kr a = .ok b → bad' b) : Checks bad' (v >>= kv) (r >>= kr) := by
  cases v with
  | ok a =>
    obtain rfl := h.ok
    exact hk a rfl
  | error f =>
    refine checks_error fun b hb => ?_
    cases r with
    | error f => exact absurd hb (by simp [Bind.bind, Except.bind])
    | ok a => exact hbad a b (h a rfl) hb

theorem Checks.bind_refl {kv kr : α → Except ε β} (hk : ∀ a, r = .ok a → Checks bad' (kv a) (kr a)) :
    Checks bad' (r >>= kv) (r >>= kr) := by
  have hrefl : Checks (fun _ => False) r r := .refl r
  exact hrefl.bind hk fun _ _ h => h.elim

theorem Checks.mono {bad₂ : α → Prop} (h : Checks bad v r) (hbad : ∀ a, r = .ok a → bad a → bad₂ a) :
    Checks bad₂ v r := by
  cases v with
  | ok a => exact h
  | error f => exact fun a ha => hbad a ha (h a ha)

theorem Checks.trans {r' : Except ε α} (h : Checks bad v r) (h' : Checks bad r r') : Checks bad v r' := by
  cases v with
  | ok a =>
    obtain rfl := h.ok
    exact h'
  | error f =>
    cases r with
    | error f => exact h'
    | ok a =>
      intro b hb
      obtain rfl : a = b := Except.ok.inj (h'.ok.symm.trans hb)
      exact h a rfl

end Cccl
