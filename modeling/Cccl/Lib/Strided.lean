/-
# Strided layouts

A strided layout puts the element with the digits `i₁, i₂, …` at the sum of the digits times the strides
(`dot`).  The strides are elements of any commutative monoid: natural numbers for a layout that grows,
integers for one that may also go back, pairs of integers for two layouts with the same digits.

In a layout without gaps the stride of a place is the product of the extents before it (`leftStrides`)
or behind it (`rightStrides`).  Both are mixed radix (`ofDigits_eq_dot`, `ofDigits_reverse_eq_dot`), and
the product of all extents is one more than the place of the last element (`prod_eq_dot_left`,
`prod_eq_dot_right`).
-/
import Cccl.Lib.MixedRadix
import Mathlib.Algebra.BigOperators.Ring.List
import Mathlib.Algebra.Group.Action.Defs
import Mathlib.Data.Fintype.Card

namespace Cccl.Strided

open MixedRadix

/-! ## 1. Digits times strides -/

section Dot

variable {M N : Type} [AddCommMonoid M] [AddCommMonoid N]

/-- The sum of the digits times the strides. -/
def dot : List ℕ → List M → M
  | i :: is, s :: ss => i • s + dot is ss
  | _, _ => 0

@[simp] theorem dot_nil_left (ss : List M) : dot [] ss = 0 := rfl

@[simp] theorem dot_nil_right (is : List ℕ) : dot is ([] : List M) = 0 := by cases is <;> rfl

@[simp] theorem dot_cons (i : ℕ) (is : List ℕ) (s : M) (ss : List M) :
    dot (i :: is) (s :: ss) = i • s + dot is ss := rfl

theorem dot_append : ∀ {is : List ℕ} {ss : List M} (js : List ℕ) (rs : List M),
    is.length = ss.length → dot (is ++ js) (ss ++ rs) = dot is ss + dot js rs
  | [], [], js, rs, _ => (zero_add _).symm
  | i :: is, s :: ss, js, rs, h => by
    rw [List.cons_append, List.cons_append, dot_cons, dot_cons,
      dot_append js rs (Nat.succ.inj h), add_assoc]

theorem dot_reverse : ∀ {is : List ℕ} {ss : List M}, is.length = ss.length →
    dot is.reverse ss.reverse = dot is ss
  | [], [], _ => rfl
  | i :: is, s :: ss, h => by
    have hlength : is.length = ss.length := Nat.succ.inj h
    rw [List.reverse_cons, List.reverse_cons, dot_append _ _ (by simpa using hlength),
      dot_reverse hlength, dot_cons, dot_cons, dot_nil_left, add_zero, add_comm]

theorem map_dot (f : M →+ N) : ∀ (is : List ℕ) (ss : List M), f (dot is ss) = dot is (ss.map f)
  | [], ss => map_zero f
  | i :: is, [] => map_zero f
  | i :: is, s :: ss => by
    rw [dot_cons, map_add, map_nsmul, map_dot f is ss]
    rfl

end Dot

theorem dot_map_mul (r : ℕ) : ∀ (is ss : List ℕ), dot is (ss.map (r * ·)) = r * dot is ss
  | [], _ => rfl
  | _ :: _, [] => rfl
  | i :: is, s :: ss => by
    rw [List.map_cons, dot_cons, dot_cons, dot_map_mul r is ss, smul_eq_mul, smul_eq_mul,
      Nat.mul_add, Nat.mul_left_comm]

theorem dot_mono {is js : List ℕ} (h : List.Forall₂ (· ≤ ·) is js) (ss : List ℕ) :
    dot is ss ≤ dot js ss := by
  induction h generalizing ss with
  | nil => exact le_rfl
  | cons hi _ ih =>
    cases ss with
    | nil => exact le_rfl
    | cons s ss => exact Nat.add_le_add (Nat.mul_le_mul_right s hi) (ih ss)

/-- The largest digits for some extents. -/
abbrev lasts (rs : List ℕ) : List ℕ := rs.map (· - 1)

@[simp] theorem lasts_cons (r : ℕ) (rs : List ℕ) : lasts (r :: rs) = (r - 1) :: lasts rs := rfl

theorem fits_le_lasts {is rs : List ℕ} (h : Fits is rs) : List.Forall₂ (· ≤ ·) is (lasts rs) := by
  induction h with
  | nil => exact .nil
  | cons hi _ ih => exact .cons (Nat.le_sub_one_of_lt hi) ih

theorem lasts_fits : ∀ {rs : List ℕ}, (∀ r ∈ rs, 0 < r) → Fits (lasts rs) rs
  | [], _ => .nil
  | r :: rs, h => by
    have hpos : 0 < r := h r List.mem_cons_self
    exact .cons (Nat.sub_one_lt_of_lt hpos) (lasts_fits fun r' hr' => h r' (List.mem_cons_of_mem _ hr'))

theorem Fits.pos {is rs : List ℕ} (h : Fits is rs) : ∀ r ∈ rs, 0 < r := by
  induction h with
  | nil => exact fun r hr => absurd hr List.not_mem_nil
  | cons hi _ ih => exact List.forall_mem_cons.mpr ⟨by omega, ih⟩

/-! ## 2. Layouts without gaps -/

/-- The first place varies fastest. -/
def leftStrides : List ℕ → List ℕ
  | [] => []
  | r :: rs => 1 :: (leftStrides rs).map (r * ·)

/-- The last place varies fastest. -/
def rightStrides : List ℕ → List ℕ
  | [] => []
  | _ :: rs => rs.prod :: rightStrides rs

@[simp] theorem length_leftStrides : ∀ rs : List ℕ, (leftStrides rs).length = rs.length
  | [] => rfl
  | _ :: rs => by rw [leftStrides, List.length_cons, List.length_map, length_leftStrides rs,
      List.length_cons]

@[simp] theorem length_rightStrides : ∀ rs : List ℕ, (rightStrides rs).length = rs.length
  | [] => rfl
  | _ :: rs => by rw [rightStrides, List.length_cons, length_rightStrides rs, List.length_cons]

theorem leftStrides_eq_range : ∀ rs : List ℕ,
    leftStrides rs = (List.range rs.length).map fun k => (rs.take k).prod
  | [] => rfl
  | r :: rs => by
    rw [leftStrides, leftStrides_eq_range rs, List.length_cons, List.range_succ_eq_map,
      List.map_cons, List.map_map, List.map_map]
    rfl

theorem rightStrides_eq_range : ∀ rs : List ℕ,
    rightStrides rs = (List.range rs.length).map fun k => (rs.drop (k + 1)).prod
  | [] => rfl
  | r :: rs => by
    rw [rightStrides, rightStrides_eq_range rs, List.length_cons, List.range_succ_eq_map,
      List.map_cons, List.map_map]
    rfl

theorem leftStrides_append_singleton (r : ℕ) : ∀ rs : List ℕ,
    leftStrides (rs ++ [r]) = leftStrides rs ++ [rs.prod]
  | [] => rfl
  | q :: rs => by
    rw [List.cons_append, leftStrides, leftStrides_append_singleton r rs, List.map_append,
      List.map_singleton, leftStrides, List.prod_cons, List.cons_append]

theorem rightStrides_eq_reverse : ∀ rs : List ℕ,
    rightStrides rs = (leftStrides rs.reverse).reverse
  | [] => rfl
  | r :: rs => by
    rw [rightStrides, rightStrides_eq_reverse rs, List.reverse_cons,
      leftStrides_append_singleton, List.reverse_append, List.prod_reverse]
    rfl

theorem ofDigits_eq_dot : ∀ {rs is : List ℕ}, is.length = rs.length →
    ofDigits rs is = dot is (leftStrides rs)
  | [], [], _ => rfl
  | r :: rs, i :: is, h => by
    rw [ofDigits, ofDigits_eq_dot (Nat.succ.inj h), leftStrides, dot_cons, dot_map_mul,
      smul_eq_mul, Nat.mul_one]

theorem ofDigits_reverse_eq_dot {rs is : List ℕ} (h : is.length = rs.length) :
    ofDigits rs.reverse is.reverse = dot is (rightStrides rs) := by
  rw [ofDigits_eq_dot (by simpa using h), rightStrides_eq_reverse, ← dot_reverse (by simpa using h),
    List.reverse_reverse]

/-- The product of the extents is one more than the place of the last element. -/
theorem prod_eq_dot_left : ∀ {rs : List ℕ}, (∀ r ∈ rs, 0 < r) →
    rs.prod = 1 + dot (lasts rs) (leftStrides rs)
  | [], _ => rfl
  | r :: rs, h => by
    have hpos : 0 < r := h r List.mem_cons_self
    have ih := prod_eq_dot_left fun r' hr' => h r' (List.mem_cons_of_mem _ hr')
    rw [List.prod_cons, lasts_cons, leftStrides, dot_cons, dot_map_mul, smul_eq_mul, Nat.mul_one,
      ih, Nat.mul_add, Nat.mul_one]
    omega

theorem prod_eq_dot_right {rs : List ℕ} (h : ∀ r ∈ rs, 0 < r) :
    rs.prod = 1 + dot (lasts rs) (rightStrides rs) := by
  have hleft := @prod_eq_dot_left rs.reverse fun r hr => h r (List.mem_reverse.mp hr)
  rw [List.prod_reverse, lasts, List.map_reverse, ← List.reverse_reverse (leftStrides _),
    ← rightStrides_eq_reverse, dot_reverse (by simp)] at hleft
  exact hleft

/-! ## 3. Counting -/

/-- There are as many lists of digits as the product of the extents, so they need as much room. -/
theorem prod_le_of_injective {rs : List ℕ} {n : ℕ} (f : List ℕ → ℕ)
    (hlt : ∀ is, Fits is rs → f is < n)
    (hinj : ∀ is js, Fits is rs → Fits js rs → f is = f js → is = js) : rs.prod ≤ n := by
  by_cases hpos : ∀ r ∈ rs, 0 < r
  · have hfits : ∀ k, Fits (digits rs k) rs := fun k => digits_fits k hpos
    have hcard := Fintype.card_le_of_injective
      (fun k : Fin rs.prod => (⟨f (digits rs k), hlt _ (hfits k)⟩ : Fin n)) fun a b hab => by
        have hdigits := hinj _ _ (hfits a) (hfits b) (Fin.mk.inj hab)
        exact Fin.ext (digits_injective a.isLt b.isLt hdigits)
    simpa using hcard
  · push Not at hpos
    obtain ⟨r, hr, hzero⟩ := hpos
    rw [List.prod_eq_zero (Nat.le_zero.mp hzero ▸ hr)]
    exact Nat.zero_le n

end Cccl.Strided
