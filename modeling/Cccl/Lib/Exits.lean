/-
# Programs with early returns

A program changes a state and returns a value, or it leaves early with another value.  What was changed before an
early return stays changed: this is not a transaction.

A specification (`Spec`) has a precondition and two postconditions, for the value and for the early return.  The rules
say how the specifications of the parts of a program make that of the whole.
-/
import Mathlib.Init

namespace Cccl

/-- A program on states `σ` that returns an `α`, or leaves early with an `ε`. -/
def Program (ε σ α : Type) : Type := σ → Except ε α × σ

namespace Program

variable {ε σ α β : Type}

instance : Monad (Program ε σ) where
  pure a s := (.ok a, s)
  bind m f s :=
    match m s with
    | (.ok a, s') => f a s'
    | (.error e, s') => (.error e, s')

/-- An early return. -/
def exit (e : ε) : Program ε σ α := fun s => (.error e, s)

/-- The state. -/
def state : Program ε σ σ := fun s => (.ok s, s)

/-- A change of the state. -/
def change (f : σ → σ) : Program ε σ Unit := fun s => (.ok (), f s)

/-- From a state with `p`, the program ends with `q`, or early with `r`. -/
def Spec (p : σ → Prop) (m : Program ε σ α) (q : α → σ → Prop) (r : ε → σ → Prop) : Prop :=
  ∀ s, p s → match m s with
    | (.ok a, s') => q a s'
    | (.error e, s') => r e s'

variable {p p' : σ → Prop} {q q' : α → σ → Prop} {r r' : ε → σ → Prop} {m : Program ε σ α}

theorem Spec.pure {a : α} (h : ∀ s, p s → q a s) : Spec p (Pure.pure a) q r := fun s hs => h s hs

theorem Spec.exit {e : ε} (h : ∀ s, p s → r e s) : Spec p (Program.exit e) q r := fun s hs => h s hs

theorem Spec.state {q : σ → σ → Prop} (h : ∀ s, p s → q s s) : Spec p Program.state q r := fun s hs => h s hs

theorem Spec.change {f : σ → σ} {q : Unit → σ → Prop} (h : ∀ s, p s → q () (f s)) :
    Spec p (Program.change f) q r := fun s hs => h s hs

/-- **Parts in a row**: the second one starts as the first one ends. -/
theorem Spec.bind {f : α → Program ε σ β} {q' : β → σ → Prop} (hm : Spec p m q r)
    (hf : ∀ a, Spec (q a) (f a) q' r) : Spec p (m >>= f) q' r := by
  intro s hs
  have hms := hm s hs
  change match (match m s with
    | (.ok a, s') => f a s'
    | (.error e, s') => (.error e, s')) with
    | (.ok b, s') => q' b s'
    | (.error e, s') => r e s'
  cases hres : m s with
  | mk res s' =>
    rw [hres] at hms
    cases res with
    | ok a => exact hf a s' hms
    | error e => exact hms

theorem Spec.weaken (h : Spec p m q r) (hp : ∀ s, p' s → p s) (hq : ∀ a s, q a s → q' a s)
    (hr : ∀ e s, r e s → r' e s) : Spec p' m q' r' := by
  intro s hs
  have hms := h s (hp s hs)
  cases hres : m s with
  | mk res s' =>
    rw [hres] at hms
    cases res with
    | ok a => exact hq a s' hms
    | error e => exact hr e s' hms

theorem Spec.returning {f : α → β} {q : σ → Prop} (h : Spec p m (fun _ => q) r) :
    Spec p (m >>= fun a => Pure.pure (f a)) (fun _ => q) r :=
  h.bind fun _ => Spec.pure fun _ hs => hs

theorem Spec.pre (h : Spec p m q r) (hp : ∀ s, p' s → p s) : Spec p' m q r := fun s hs => h s (hp s hs)

end Program

end Cccl
