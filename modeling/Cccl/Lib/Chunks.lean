/-
# Lists in pieces of one length

A list of pieces of `n` items each is read at a position by the number of the piece and the place in it
(`getElem?_flatten`).  The other way round a list is cut into pieces, of which the last one can be shorter
(`chunk`).
-/
import Mathlib.Data.List.Basic

namespace Cccl.Chunks

variable {α : Type*}

theorem length_flatten_eq {n : ℕ} : ∀ {pieces : List (List α)}, (∀ piece ∈ pieces, piece.length = n) →
    pieces.flatten.length = n * pieces.length
  | [], _ => rfl
  | piece :: pieces, h => by
    rw [List.flatten_cons, List.length_append, h piece List.mem_cons_self,
      length_flatten_eq fun l hl => h l (List.mem_cons_of_mem _ hl), List.length_cons,
      Nat.mul_add_one, Nat.add_comm]

theorem getElem?_flatten {n : ℕ} (hn : 0 < n) : ∀ {pieces : List (List α)} (q : ℕ),
    (∀ piece ∈ pieces, piece.length = n) →
    pieces.flatten[q]? = pieces[q / n]?.bind fun piece => piece[q % n]?
  | [], q, _ => by simp
  | piece :: pieces, q, h => by
    have hlen := h piece List.mem_cons_self
    rw [List.flatten_cons]
    rcases Nat.lt_or_ge q n with hlt | hge
    · rw [List.getElem?_append_left (by omega), Nat.div_eq_of_lt hlt, Nat.mod_eq_of_lt hlt,
        List.getElem?_cons_zero, Option.bind_some]
    · obtain ⟨k, rfl⟩ := Nat.exists_eq_add_of_le hge
      rw [List.getElem?_append_right (by omega), hlen, Nat.add_sub_cancel_left,
        getElem?_flatten hn k fun l hl => h l (List.mem_cons_of_mem _ hl), Nat.add_div_left k hn,
        List.getElem?_cons_succ, Nat.add_mod_left]

/-- The items from `z * g` on, at most `z` of them. -/
def chunk (z g : ℕ) (l : List α) : List α := (l.drop (z * g)).take z

theorem getElem?_chunk (z g i : ℕ) (l : List α) :
    (chunk z g l)[i]? = if i < z then l[z * g + i]? else none := by
  rw [chunk, List.getElem?_take, List.getElem?_drop]

theorem length_chunk (z g : ℕ) (l : List α) : (chunk z g l).length = min z (l.length - z * g) := by
  rw [chunk, List.length_take, List.length_drop]

theorem chunk_append (z g : ℕ) (l : List α) :
    chunk z (2 * g) l ++ chunk z (2 * g + 1) l = chunk (2 * z) g l := by
  have hstart : z * (2 * g) = 2 * z * g := by rw [← Nat.mul_assoc, Nat.mul_comm z]
  rw [chunk, chunk, chunk, Nat.mul_add_one, hstart, Nat.two_mul, List.take_add, List.drop_drop]

theorem chunk_chunk {z k i : ℕ} (g : ℕ) (l : List α) (hi : i < k) :
    chunk z i (chunk (z * k) g l) = chunk z (k * g + i) l := by
  have hfit : z * i + z ≤ z * k := by
    rw [← Nat.mul_add_one]
    exact Nat.mul_le_mul_left _ hi
  have hstart : z * k * g + z * i = z * (k * g + i) := by rw [Nat.mul_add, Nat.mul_assoc]
  refine List.ext_getElem? fun j => ?_
  rw [getElem?_chunk, getElem?_chunk, getElem?_chunk, ← hstart, Nat.add_assoc]
  split
  · rw [if_pos (by omega)]
  · rfl

theorem flatMap_chunk (z : ℕ) (l : List α) : ∀ n, (List.range n).flatMap (fun g => chunk z g l) = l.take (z * n)
  | 0 => by simp
  | n + 1 => by
    rw [List.range_succ, List.flatMap_append, flatMap_chunk z l n, List.flatMap_singleton, chunk, Nat.mul_add_one,
      List.take_add]

/-- Lists with the lengths of chunks are the chunks of the list that is put together from them. -/
theorem chunk_flatMap {z total : ℕ} {pieces : ℕ → List α}
    (hlen : ∀ g, (pieces g).length = min z (total - z * g)) : ∀ n,
      ((List.range n).flatMap pieces).length = min (z * n) total ∧
        ∀ g < n, chunk z g ((List.range n).flatMap pieces) = pieces g
  | 0 => ⟨by simp, fun g hg => absurd hg (Nat.not_lt_zero g)⟩
  | n + 1 => by
    obtain ⟨hlength, hchunks⟩ := chunk_flatMap hlen n
    have hpieces := hlen n
    rw [List.range_succ, List.flatMap_append, List.flatMap_singleton]
    refine ⟨by rw [List.length_append, hlength, hpieces, Nat.mul_add_one]; omega, fun g hg => ?_⟩
    rcases Nat.lt_or_eq_of_le (Nat.le_of_lt_succ hg) with hlt | rfl
    · have hfit : z * g + z ≤ z * n := by
        rw [← Nat.mul_add_one]
        exact Nat.mul_le_mul_left _ hlt
      rcases Nat.lt_or_ge total (z * n) with hshort | hlong
      · -- nothing is left for the last piece
        have hnil : pieces n = [] := List.eq_nil_of_length_eq_zero (by omega)
        rw [hnil, List.append_nil, hchunks g hlt]
      · rw [← hchunks g hlt, chunk, chunk, List.drop_append_of_le_length (by omega),
          List.take_append_of_le_length (by rw [List.length_drop]; omega)]
    · rcases Nat.lt_or_ge total (z * g) with hshort | hlong
      · have hnil : pieces g = [] := List.eq_nil_of_length_eq_zero (by omega)
        rw [hnil, List.append_nil, chunk, List.drop_eq_nil_of_le (by omega), List.take_nil]
      · rw [chunk, List.drop_left' (by omega), List.take_of_length_le (by omega)]

end Cccl.Chunks
