/-
# Regions of memory

A region is given by where it begins and how many bytes it has.  Two regions are apart if one ends before
the other one begins.  A region that is cut into pieces of one width has them apart from each other and
within it.
-/
import Mathlib.Algebra.Order.Ring.Nat
import Mathlib.Data.List.Nodup
import Mathlib.Data.List.Pairwise

namespace Cccl.Regions

/-- The `n` bytes from `p` on and the `m` bytes from `q` on have none in common. -/
def Apart (p n q m : ℕ) : Prop := p + n ≤ q ∨ q + m ≤ p

instance (p n q m : ℕ) : Decidable (Apart p n q m) := inferInstanceAs (Decidable (_ ∨ _))

theorem Apart.symm {p n q m : ℕ} (h : Apart p n q m) : Apart q m p n := Or.symm h

theorem Apart.within {p n q m p' n' q' m' : ℕ} (h : Apart p n q m) (hp : p ≤ p')
    (hn : p' + n' ≤ p + n) (hq : q ≤ q') (hm : q' + m' ≤ q + m) : Apart p' n' q' m' := by
  unfold Apart at h ⊢
  omega

/-- Regions that are apart begin at different places, if one of them has some byte. -/
theorem Apart.ne {p n q m : ℕ} (h : Apart p n q m) (hn : 0 < n) (hm : 0 < m) : p ≠ q := by
  unfold Apart at h
  omega

/-- Among regions that are apart from each other, any two different ones are. -/
theorem apart_of_pairwise {α : Type*} {p n : α → ℕ} {l : List α}
    (h : l.Pairwise fun a b => Apart (p a) (n a) (p b) (n b)) {a b : α} (ha : a ∈ l) (hb : b ∈ l)
    (hne : a ≠ b) : Apart (p a) (n a) (p b) (n b) := by
  have : Std.Symm fun a b => Apart (p a) (n a) (p b) (n b) := ⟨fun _ _ => Apart.symm⟩
  exact h.forall ha hb hne

theorem pairwise_of_classes {α κ : Type*} [DecidableEq κ] (f : α → κ) {R : α → α → Prop} {l : List α}
    (hsame : ∀ k, (l.filter fun x => decide (f x = k)).Pairwise R)
    (hother : ∀ x ∈ l, ∀ y ∈ l, f x ≠ f y → R x y) : l.Pairwise R := by
  induction l with
  | nil => exact List.Pairwise.nil
  | cons x l ih =>
    refine List.pairwise_cons.mpr ⟨fun y hy => ?_, ih (fun k => ?_) fun y hy z hz => ?_⟩
    · by_cases hxy : f x = f y
      · have h := hsame (f x)
        rw [List.filter_cons_of_pos (by simp)] at h
        exact (List.pairwise_cons.mp h).1 y (List.mem_filter.mpr ⟨hy, by simp [hxy]⟩)
      · exact hother x List.mem_cons_self y (List.mem_cons_of_mem _ hy) hxy
    · exact (hsame k).sublist ((List.sublist_cons_self x l).filter _)
    · exact hother y (List.mem_cons_of_mem _ hy) z (List.mem_cons_of_mem _ hz)

/-- Where the pieces begin. -/
def cut (p width n : ℕ) : List ℕ := (List.range n).map fun i => p + i * width

theorem mem_cut {p width n x : ℕ} : x ∈ cut p width n ↔ ∃ i < n, x = p + i * width := by
  simp only [cut, List.mem_map, List.mem_range, eq_comm (a := x)]

@[simp] theorem length_cut (p width n : ℕ) : (cut p width n).length = n := by
  rw [cut, List.length_map, List.length_range]

theorem cut_add (p d width n : ℕ) : cut (p + d) width n = (cut p width n).map (· + d) := by
  rw [cut, cut, List.map_map]
  refine List.map_congr_left fun i _ => ?_
  exact Nat.add_right_comm p d (i * width)

theorem cut_within {p width n x : ℕ} (h : x ∈ cut p width n) : p ≤ x ∧ x + width ≤ p + n * width := by
  obtain ⟨i, hi, rfl⟩ := mem_cut.mp h
  have hmul := Nat.mul_le_mul_right width (Nat.succ_le_of_lt hi)
  rw [Nat.succ_mul] at hmul
  omega

theorem cut_apart {p width n x y : ℕ} (hx : x ∈ cut p width n) (hy : y ∈ cut p width n) (hne : x ≠ y) :
    Apart x width y width := by
  obtain ⟨i, -, rfl⟩ := mem_cut.mp hx
  obtain ⟨j, -, rfl⟩ := mem_cut.mp hy
  rcases Nat.lt_trichotomy i j with hlt | rfl | hgt
  · have hmul := Nat.mul_le_mul_right width (Nat.succ_le_of_lt hlt)
    rw [Nat.succ_mul] at hmul
    exact Or.inl (by omega)
  · exact absurd rfl hne
  · have hmul := Nat.mul_le_mul_right width (Nat.succ_le_of_lt hgt)
    rw [Nat.succ_mul] at hmul
    exact Or.inr (by omega)

theorem cut_nodup (p n : ℕ) {width : ℕ} (h : 0 < width) : (cut p width n).Nodup := by
  refine List.nodup_range.map fun i j hij => ?_
  exact Nat.eq_of_mul_eq_mul_right h (Nat.add_left_cancel hij)

theorem cut_pairwise (p n : ℕ) {width : ℕ} (h : 0 < width) :
    (cut p width n).Pairwise fun x y => Apart x width y width :=
  (cut_nodup p n h).pairwise_of_forall_ne fun _ hx _ hy hne => cut_apart hx hy hne

/-- The pieces of one width into which those regions are cut that have some index. -/
def pieces {α : Type*} (idx base count : α → ℕ) (width i : ℕ) (l : List α) : List ℕ :=
  l.flatMap fun c => if idx c = i then cut (base c) width (count c) else []

section Pieces

variable {α : Type*} {idx base count : α → ℕ} {width i : ℕ}

theorem pieces_append (l₁ l₂ : List α) : pieces idx base count width i (l₁ ++ l₂) =
    pieces idx base count width i l₁ ++ pieces idx base count width i l₂ := List.flatMap_append

theorem pieces_cons_self {c : α} (h : idx c = i) (l : List α) :
    pieces idx base count width i (c :: l) =
      cut (base c) width (count c) ++ pieces idx base count width i l := by
  rw [pieces, List.flatMap_cons, if_pos h]
  rfl

theorem pieces_cons_of_ne {c : α} (h : idx c ≠ i) (l : List α) :
    pieces idx base count width i (c :: l) = pieces idx base count width i l := by
  rw [pieces, List.flatMap_cons, if_neg h]
  rfl

theorem mem_pieces {x : ℕ} {l : List α} : x ∈ pieces idx base count width i l ↔
    ∃ c ∈ l, idx c = i ∧ x ∈ cut (base c) width (count c) := by
  rw [pieces, List.mem_flatMap]
  refine exists_congr fun c => and_congr_right fun _ => ?_
  split
  · rename_i h
    exact (and_iff_right h).symm
  · rename_i h
    exact ⟨fun hx => absurd hx List.not_mem_nil, fun hx => absurd hx.1 h⟩

/-- Pieces of regions that are apart from each other are apart from each other. -/
theorem pieces_pairwise {size : α → ℕ} {l : List α} (hwidth : 0 < width)
    (hcount : ∀ c ∈ l, idx c = i → count c * width ≤ size c)
    (h : l.Pairwise fun a b => Apart (base a) (size a) (base b) (size b)) :
    (pieces idx base count width i l).Pairwise fun x y => Apart x width y width := by
  refine List.pairwise_flatMap.mpr ⟨fun c _ => ?_, h.imp_of_mem ?_⟩
  · split
    · exact cut_pairwise _ _ hwidth
    · exact List.Pairwise.nil
  · intro c e hc he hapart x hx y hy
    split at hx
    · split at hy
      · rename_i hci hei
        have hxin := cut_within hx
        have hyin := cut_within hy
        have hcsize := hcount c hc hci
        have hesize := hcount e he hei
        exact hapart.within hxin.1 (by omega) hyin.1 (by omega)
      · exact absurd hy List.not_mem_nil
    · exact absurd hx List.not_mem_nil

end Pieces

end Cccl.Regions
