/-
# Modes of a strided layout

A mode is an extent with a stride, and a list of modes has one place for each list of coordinates
(`places`): the sum of the coordinates times the strides.  Places are counted as often as coordinates
lead to them, so a multiset, and strides may be zero or negative.

The same places have many lists of modes: two modes are one if the second goes on where the first ends
(`places_merge`).
-/
import Cccl.Lib.Strided
import Mathlib.Data.Multiset.Bind

namespace Cccl.Modes

open MixedRadix Strided

/-! ## 1. Coordinates -/

/-- All lists of coordinates for some extents. -/
def coords : List ℕ → Multiset (List ℕ)
  | [] => {[]}
  | e :: es => (Multiset.range e).bind fun i => (coords es).map (List.cons i)

theorem mem_coords : ∀ {es c : List ℕ}, c ∈ coords es ↔ Fits c es
  | [], c => by
    rw [coords, Multiset.mem_singleton]
    exact List.forall₂_nil_right_iff.symm
  | e :: es, c => by
    rw [coords, Multiset.mem_bind]
    constructor
    · rintro ⟨i, hi, hc⟩
      obtain ⟨is, his, rfl⟩ := Multiset.mem_map.mp hc
      exact .cons (Multiset.mem_range.mp hi) (mem_coords.mp his)
    · intro h
      cases h with
      | cons hi his =>
        exact ⟨_, Multiset.mem_range.mpr hi, Multiset.mem_map_of_mem _ (mem_coords.mpr his)⟩

/-! ## 2. Places -/

section Places

variable {M : Type} [AddCommMonoid M]

/-- The places of a list of modes. -/
def places : List (ℕ × M) → Multiset M
  | [] => {0}
  | mode :: ms => (Multiset.range mode.1).bind fun i => (places ms).map (i • mode.2 + ·)

/-- **The places are the sums of coordinates times strides.** -/
theorem places_eq : ∀ ms : List (ℕ × M),
    places ms = (coords (ms.map Prod.fst)).map fun c => dot c (ms.map Prod.snd)
  | [] => rfl
  | mode :: ms => by
    rw [places, places_eq ms]
    simp only [List.map_cons, coords, Multiset.map_bind, Multiset.map_map, Function.comp_def,
      dot_cons]

theorem map_dot_coords {es : List ℕ} {ss : List M} (h : es.length = ss.length) :
    (coords es).map (fun c => dot c ss) = places (es.zip ss) := by
  rw [places_eq, List.map_fst_zip h.le, List.map_snd_zip h.ge]

theorem range_mul (e f : ℕ) : (Multiset.range (e * f)) =
    (Multiset.range e).bind fun i => (Multiset.range f).map fun j => i + j * e := by
  rw [Multiset.bind_map_comm]
  induction f with
  | zero => rfl
  | succ f ih =>
    rw [Nat.mul_succ, Multiset.range_add, ih, Multiset.range_succ, Multiset.cons_bind, add_comm]
    congr 1
    exact Multiset.map_congr rfl fun i _ => by rw [Nat.mul_comm, Nat.add_comm]

/-- Two modes are one where the second goes on at the end of the first. -/
theorem places_merge (e f : ℕ) (s : M) (ms : List (ℕ × M)) :
    places ((e, s) :: (f, e • s) :: ms) = places ((e * f, s) :: ms) := by
  simp only [places, Multiset.map_bind, Multiset.map_map, Function.comp_def]
  rw [range_mul, Multiset.bind_assoc]
  simp only [Multiset.bind_map, add_nsmul, mul_nsmul', add_assoc]

end Places

end Cccl.Modes
