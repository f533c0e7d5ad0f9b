/-
# Events, event lists, access modes and tasks of the task-flow runtime

`async_prereq.cuh`, `constants.cuh` and the part of `task.cuh` that the dependency record keeps.

An `event_list` is a vector of events; `merge` appends, `clear` empties, and `optimize` drops the
entries that are redundant: identical ones, and ones implicit from other entries.  What is
implicit depends on the backend, through the virtual `factorize`: the stream backend keeps the
last event of each stream, the graph backend replaces a long list by one empty node depending on
all of it.  Here a backend is its `factorize` together with the order it relies on, and
`optimize_covers` is all the rest of the development needs: what comes out of `optimize` still
waits for everything that went in.
-/
import Mathlib.Data.List.Dedup
import Mathlib.Data.List.Sort
import Cccl.Lib.Causal

namespace Cccl.Stf

variable {E : Type*}

/-! ## 1. Access modes -/

/-- `enum class access_mode`. -/
inductive AccessMode where
  | none
  | read
  | write
  | rw
  /-- A contribution to a reduction, on an instance of its own. -/
  | relaxed
  /-- Overwrite the content of the logical data with the reduction result. -/
  | reduce
  /-- Accumulate into the existing content ("equivalent to rw"). -/
  | reduceNoInit
  deriving DecidableEq, Repr

/-! ## 2. Event lists -/

/-- What a backend knows about its events. -/
structure EventBackend (E : Type*) where
  /-- `implied e e'`: `e'` cannot have happened unless `e` has. -/
  implied : E → E → Prop
  /-- `event_impl::factorize`, on a list sorted by event id: the shortened list, or nothing where
  the backend has no such strategy and the caller removes duplicates itself. -/
  factorize : List E → Option (List E)
  /-- Only redundant entries are removed. -/
  factorize_covers : ∀ l l', factorize l = some l' →
    ∀ e ∈ l, ∃ e' ∈ l', e = e' ∨ implied e e'

/-- Events with no order of their own and no strategy to shorten lists. -/
def EventBackend.plain : EventBackend E :=
  ⟨fun _ _ => False, fun _ => none, by simp⟩

/-- `event_list::optimize`.  Lists of at most one event are marked as optimized from the start;
the marker on longer lists only avoids doing the work twice. -/
def EventBackend.optimize [LinearOrder E] (B : EventBackend E) (payload : List E) : List E :=
  if payload.length ≤ 1 then payload
  else
    let sorted := payload.mergeSort (fun a b => decide (a ≤ b))
    match B.factorize sorted with
    | some events => events
    | none => sorted.dedup

/-- **An optimized list waits for all that the list did.** -/
theorem EventBackend.optimize_covers [LinearOrder E] (B : EventBackend E) {R : E → E → Prop}
    [Std.Refl R] (hR : ∀ e e', B.implied e e' → R e e') (payload : List E) :
    Covered R payload (B.optimize payload) := by
  intro e he
  unfold EventBackend.optimize
  split
  · exact ⟨e, he, Std.Refl.refl e⟩
  · have hsorted : e ∈ payload.mergeSort (fun a b => decide (a ≤ b)) := by simpa using he
    dsimp only
    split
    · rename_i events hfac
      obtain ⟨e', he', rfl | himp⟩ := B.factorize_covers _ _ hfac e hsorted
      · exact ⟨e, he', Std.Refl.refl e⟩
      · exact ⟨e', he', hR e e' himp⟩
    · exact ⟨e, List.mem_dedup.mpr hsorted, Std.Refl.refl e⟩

/-! ## 3. Tasks -/

/-- A task, as the dependency record remembers it: the events that mark its completion.  Every
backend ends a task with at least one. -/
structure Task (E : Type*) where
  donePrereqs : List E
  done_ne_nil : donePrereqs ≠ []

/-- `class task_set`: the events marking the completion of the tasks in the set. -/
structure TaskSet (E : Type*) where
  donePrereqs : List E := []

def TaskSet.add [LinearOrder E] (B : EventBackend E) (s : TaskSet E) (t : Task E) : TaskSet E :=
  ⟨B.optimize (s.donePrereqs ++ t.donePrereqs)⟩

end Cccl.Stf
