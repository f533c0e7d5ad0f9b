/-
# Asynchronous operations and the order their events impose

An asynchronous operation is submitted with a list of events it waits for, and marks its own
completion with events of its own.  The events of a log of submissions are then ordered by
happens-before: the reflexive and transitive closure of "this operation waits for that event",
together with whatever order the device underneath gives for free (two events of one stream,
say).

A list of events stands for the moment all of them have happened.  So one list is before
another, `Covered`, when each event of the first is before some event of the second.  That
relation is a preorder, it grows with the log, and it is what every lemma about dependency lists
speaks of: lists are merged, shortened and replaced all the time, and all that matters is what
they cover.
-/
import Mathlib.Logic.Relation

namespace Cccl

variable {E : Type*}

/-! ## 1. Lists of events and what they cover -/

/-- The event is at or before some event of `l`: whoever waits for `l` waits for it. -/
def Reaches (R : E → E → Prop) (e : E) (l : List E) : Prop :=
  ∃ e' ∈ l, R e e'

/-- Every event of `l` is at or before some event of `m`: whoever waits for `m` waits for `l`. -/
def Covered (R : E → E → Prop) (l m : List E) : Prop :=
  ∀ e ∈ l, ∃ e' ∈ m, R e e'

namespace Covered

variable {R S : E → E → Prop} {l m n : List E}

@[simp] theorem nil_left : Covered R [] m := by
  intro e he
  cases he

theorem of_subset [Std.Refl R] (h : l ⊆ m) : Covered R l m :=
  fun e he => ⟨e, h he, Std.Refl.refl e⟩

protected theorem refl [Std.Refl R] (l : List E) : Covered R l l :=
  of_subset (List.Subset.refl l)

protected theorem trans [IsTrans E R] (h : Covered R l m) (h' : Covered R m n) :
    Covered R l n := by
  intro e he
  obtain ⟨e', he', hr⟩ := h e he
  obtain ⟨e'', he'', hr'⟩ := h' e' he'
  exact ⟨e'', he'', IsTrans.trans _ _ _ hr hr'⟩

theorem mono (hRS : ∀ e e', R e e' → S e e') (h : Covered R l m) : Covered S l m := by
  intro e he
  obtain ⟨e', he', hr⟩ := h e he
  exact ⟨e', he', hRS e e' hr⟩

theorem mono_right (h : Covered R l m) (hmn : m ⊆ n) : Covered R l n := by
  intro e he
  obtain ⟨e', he', hr⟩ := h e he
  exact ⟨e', hmn he', hr⟩

theorem append_left (h : Covered R l n) (h' : Covered R m n) : Covered R (l ++ m) n := by
  intro e he
  rcases List.mem_append.mp he with he | he
  · exact h e he
  · exact h' e he

end Covered

namespace Reaches

variable {R S : E → E → Prop} {e : E} {l m : List E}

protected theorem append : Reaches R e (l ++ m) ↔ Reaches R e l ∨ Reaches R e m := by
  constructor
  · rintro ⟨e', he', hr⟩
    rcases List.mem_append.mp he' with he' | he'
    · exact Or.inl ⟨e', he', hr⟩
    · exact Or.inr ⟨e', he', hr⟩
  · rintro (⟨e', he', hr⟩ | ⟨e', he', hr⟩)
    · exact ⟨e', List.mem_append_left _ he', hr⟩
    · exact ⟨e', List.mem_append_right _ he', hr⟩

theorem of_covered [IsTrans E R] (h : Reaches R e l) (hlm : Covered R l m) : Reaches R e m := by
  obtain ⟨e', he', hr⟩ := h
  obtain ⟨e'', he'', hr'⟩ := hlm e' he'
  exact ⟨e'', he'', IsTrans.trans _ _ _ hr hr'⟩

theorem mono_right (h : Reaches R e l) (hlm : l ⊆ m) : Reaches R e m := by
  obtain ⟨e', he', hr⟩ := h
  exact ⟨e', hlm he', hr⟩

theorem mono (hRS : ∀ e e', R e e' → S e e') (h : Reaches R e l) : Reaches S e l := by
  obtain ⟨e', he', hr⟩ := h
  exact ⟨e', he', hRS e e' hr⟩

end Reaches

/-! ## 2. Happens-before over a log of submissions -/

/-- An operation as it was submitted: the events it waits for and the events that mark its
completion. -/
structure Submission (E : Type*) where
  waits : List E
  done : List E

/-- One edge of happens-before: an order the device gives, or an operation of the log that waits
for `e` and is marked complete by `e'`. -/
def Edge (implied : E → E → Prop) (log : List (Submission E)) (e e' : E) : Prop :=
  implied e e' ∨ ∃ o ∈ log, e ∈ o.waits ∧ e' ∈ o.done

/-- **Happens-before**: the transitive closure of the edges of a log. -/
def Hb (implied : E → E → Prop) (log : List (Submission E)) : E → E → Prop :=
  Relation.ReflTransGen (Edge implied log)

variable {implied : E → E → Prop} {log log' : List (Submission E)}

instance : Std.Refl (Hb implied log) := ⟨fun _ => .refl⟩

instance : IsTrans E (Hb implied log) := ⟨fun _ _ _ => Relation.ReflTransGen.trans⟩

theorem Hb.of_implied {e e' : E} (h : implied e e') : Hb implied log e e' :=
  .single (Or.inl h)

theorem Hb.of_waits {o : Submission E} (ho : o ∈ log) {e e' : E} (he : e ∈ o.waits)
    (he' : e' ∈ o.done) : Hb implied log e e' :=
  .single (Or.inr ⟨o, ho, he, he'⟩)

theorem Hb.mono (hsub : log ⊆ log') {e e' : E} (h : Hb implied log e e') :
    Hb implied log' e e' := by
  refine Relation.ReflTransGen.mono ?_ _ _ h
  rintro a b (hab | ⟨o, ho, hw, hd⟩)
  · exact Or.inl hab
  · exact Or.inr ⟨o, hsub ho, hw, hd⟩

/-- A relation that holds along every submission: waiting for `e` puts `e` before each event of
one's own.  Proofs about a growing log are run against such a relation, fixed in advance. -/
def Respects (R : E → E → Prop) (o : Submission E) : Prop :=
  ∀ e ∈ o.waits, ∀ e' ∈ o.done, R e e'

theorem Hb.respects {o : Submission E} (ho : o ∈ log) : Respects (Hb implied log) o :=
  fun _ he _ he' => Hb.of_waits ho he he'

/-- What an operation waits for is covered by its completion, as soon as it has one. -/
theorem Respects.covered {R : E → E → Prop} {o : Submission E} (h : Respects R o)
    (hne : o.done ≠ []) : Covered R o.waits o.done := by
  intro e he
  obtain ⟨d, ds, hd⟩ := List.exists_cons_of_ne_nil hne
  exact ⟨d, by simp [hd], h e he d (by simp [hd])⟩

end Cccl
