/-
# Mixed radix, and strides

A number below a product of radices has one digit for each of them, and the digits determine the number
(`digits_ofDigits`, `ofDigits_digits`).  This is how a linear index is taken apart into coordinates,
and put together again.

A strided layout is more general: a list of leaves, each with an extent and a stride, in any order.  The
number that belongs to some digits is the sum of the digits times the strides.  If the strides, in
increasing order, are the products of the extents before them (`Chain`), then this is mixed radix after
all, with the digits in another order: every number below the product has one digit for each leaf
(`Tiles.sum_digit`), and the digits are found again by division and remainder, each by itself
(`Tiles.digit_value`).  Leaves of extent one have no say, and any stride.
-/
import Mathlib.Algebra.Order.BigOperators.Group.List
import Mathlib.Algebra.Ring.Nat

namespace Cccl.MixedRadix

/-! ## 1. Digits -/

/-- The digits of a number, the first one varying fastest. -/
def digits : List ℕ → ℕ → List ℕ
  | [], _ => []
  | r :: rs, n => n % r :: digits rs (n / r)

/-- The number with these digits. -/
def ofDigits : List ℕ → List ℕ → ℕ
  | r :: rs, d :: ds => d + r * ofDigits rs ds
  | _, _ => 0

/-- Each digit is below its radix. -/
abbrev Fits (ds rs : List ℕ) : Prop := List.Forall₂ (· < ·) ds rs

theorem digits_fits : ∀ {rs : List ℕ} (n : ℕ), (∀ r ∈ rs, 0 < r) → Fits (digits rs n) rs
  | [], _, _ => .nil
  | r :: _, n, h =>
    .cons (Nat.mod_lt n (h r List.mem_cons_self))
      (digits_fits (n / r) fun r' hr' => h r' (List.mem_cons_of_mem _ hr'))

theorem ofDigits_lt : ∀ {rs ds : List ℕ}, Fits ds rs → ofDigits rs ds < rs.prod
  | [], [], _ => Nat.one_pos
  | r :: rs, d :: ds, .cons hd h => by
    have hlt := ofDigits_lt h
    rw [List.prod_cons, ofDigits]
    calc d + r * ofDigits rs ds
        < r * (ofDigits rs ds + 1) := by rw [Nat.mul_add_one]; omega
      _ ≤ r * rs.prod := Nat.mul_le_mul_left r hlt

theorem digits_ofDigits : ∀ {rs ds : List ℕ}, Fits ds rs → digits rs (ofDigits rs ds) = ds
  | [], [], _ => rfl
  | r :: rs, d :: ds, .cons hd h => by
    have hpos : 0 < r := by omega
    rw [ofDigits, digits, Nat.add_mul_mod_self_left, Nat.mod_eq_of_lt hd,
      Nat.add_mul_div_left _ _ hpos, Nat.div_eq_of_lt hd, Nat.zero_add, digits_ofDigits h]

theorem ofDigits_digits : ∀ {rs : List ℕ} {n : ℕ}, n < rs.prod → ofDigits rs (digits rs n) = n
  | [], n, h => by
    rw [List.prod_nil] at h
    simp only [ofDigits]
    omega
  | r :: rs, n, h => by
    rw [List.prod_cons] at h
    rw [digits, ofDigits, ofDigits_digits (Nat.div_lt_of_lt_mul h), Nat.mod_add_div]

/-- **The digits determine the number.** -/
theorem digits_injective {rs : List ℕ} {n m : ℕ} (hn : n < rs.prod) (hm : m < rs.prod)
    (h : digits rs n = digits rs m) : n = m := by
  rw [← ofDigits_digits hn, h, ofDigits_digits hm]

/-! ## 2. Leaves -/

/-- An extent and a stride. -/
structure Leaf where
  extent : ℕ
  stride : ℕ
  deriving DecidableEq

/-- The digit of a number for a leaf. -/
def Leaf.digit (l : Leaf) (n : ℕ) : ℕ := if l.extent ≤ 1 then 0 else n / l.stride % l.extent

/-- The number with a digit for each leaf. -/
def value (ps : List (Leaf × ℕ)) : ℕ := (ps.map fun p => p.2 * p.1.stride).sum

/-- Each stride is the product of the extents before it, times `c`; `n` is that of all extents. -/
def Chain : ℕ → List Leaf → ℕ → Prop
  | c, [], n => c = n
  | c, l :: ls, n => l.stride = c ∧ Chain (c * l.extent) ls n

/-- The leaves, in any order, enumerate the numbers below `n`. -/
structure Tiles (ls : List Leaf) (n : ℕ) : Prop where
  pos : ∀ l ∈ ls, 0 < l.extent
  chain : ∃ sorted, sorted.Perm (ls.filter fun l => 1 < l.extent) ∧ Chain 1 sorted n

theorem value_cons (p : Leaf × ℕ) (ps : List (Leaf × ℕ)) :
    value (p :: ps) = p.2 * p.1.stride + value ps := by
  rw [value, List.map_cons, List.sum_cons, value]

theorem value_perm {ps qs : List (Leaf × ℕ)} (h : ps.Perm qs) : value ps = value qs :=
  (h.map _).sum_eq

theorem value_append (ps qs : List (Leaf × ℕ)) : value (ps ++ qs) = value ps + value qs := by
  rw [value, List.map_append, List.sum_append, value, value]

/-! ## 3. Chains -/

theorem Chain.dvd : ∀ {ls : List Leaf} {c n : ℕ}, Chain c ls n → c ∣ n ∧ ∀ l ∈ ls, c ∣ l.stride
  | [], c, n, h => by
    rw [Chain] at h
    exact ⟨h ▸ Nat.dvd_refl c, by simp⟩
  | l :: ls, c, n, ⟨hc, h⟩ => by
    obtain ⟨hn, hls⟩ := h.dvd
    refine ⟨(Nat.dvd_mul_right c l.extent).trans hn, fun l' hl' => ?_⟩
    rcases List.mem_cons.mp hl' with rfl | hl'
    · exact hc ▸ Nat.dvd_refl c
    · exact (Nat.dvd_mul_right c l.extent).trans (hls l' hl')

theorem Chain.le_stride : ∀ {ls : List Leaf} {c n : ℕ}, Chain c ls n → (∀ l ∈ ls, 0 < l.extent) →
    ∀ l ∈ ls, c ≤ l.stride
  | l :: ls, c, n, ⟨hc, h⟩, hext, l', hl' => by
    rcases List.mem_cons.mp hl' with rfl | hl'
    · exact hc.ge
    · refine le_trans ?_ (h.le_stride (fun l hl => hext l (List.mem_cons_of_mem _ hl)) l' hl')
      exact Nat.le_mul_of_pos_right c (hext l List.mem_cons_self)

theorem Chain.stride_dvd : ∀ {ls : List Leaf} {c n : ℕ}, Chain c ls n → 0 < c →
    (∀ l ∈ ls, 1 < l.extent) → ∀ a ∈ ls, ∀ b ∈ ls, a.stride ≤ b.stride → a.stride ∣ b.stride
  | l :: ls, c, n, ⟨hc, h⟩, hpos, hext, a, ha, b, hb, hle => by
    have hext' : ∀ l' ∈ ls, 1 < l'.extent := fun l' hl' => hext l' (List.mem_cons_of_mem _ hl')
    have hl := hext l List.mem_cons_self
    have hpos' : 0 < c * l.extent := Nat.mul_pos hpos (by omega)
    rcases List.mem_cons.mp ha with rfl | ha'
    · rcases List.mem_cons.mp hb with rfl | hb'
      · exact Nat.dvd_refl _
      · exact hc ▸ (Nat.dvd_mul_right c a.extent).trans (h.dvd.2 b hb')
    · rcases List.mem_cons.mp hb with rfl | hb'
      · -- the later strides are larger than the first one
        have hlater := h.le_stride (fun l hl => (hext' l hl).le) a ha'
        have htwice : c * 2 ≤ c * b.extent := Nat.mul_le_mul_left c hl
        omega
      · exact h.stride_dvd hpos' hext' a ha' b hb' hle

theorem Chain.sum_digit (n : ℕ) : ∀ {ls : List Leaf} {c N : ℕ}, Chain c ls N →
    n % c + (ls.map fun l => n / l.stride % l.extent * l.stride).sum = n % N
  | [], c, N, h => by
    rw [Chain] at h
    rw [List.map_nil, List.sum_nil, Nat.add_zero, h]
  | l :: ls, c, N, ⟨hc, h⟩ => by
    rw [List.map_cons, List.sum_cons, ← h.sum_digit n, ← Nat.add_assoc, Nat.mod_mul, hc,
      Nat.mul_comm c]

/-- **The digits are found again.**  Below the first stride anything may be added. -/
theorem Chain.digit_value : ∀ {ps : List (Leaf × ℕ)} {c N : ℕ}, Chain c (ps.map Prod.fst) N →
    0 < c → (∀ p ∈ ps, p.2 < p.1.extent) →
    c ∣ value ps ∧ value ps + c ≤ N ∧
      ∀ r < c, ∀ p ∈ ps, (r + value ps) / p.1.stride % p.1.extent = p.2
  | [], c, N, h, _, _ => by
    rw [List.map_nil, Chain] at h
    refine ⟨Nat.dvd_zero c, ?_, by simp⟩
    rw [value, List.map_nil, List.sum_nil, h, Nat.zero_add]
  | (l, d) :: ps, c, N, ⟨hc, h⟩, hpos, hlt => by
    have hd : d < l.extent := hlt (l, d) List.mem_cons_self
    have hpos' : 0 < c * l.extent := Nat.mul_pos hpos (by omega)
    have hrest : Chain (c * l.extent) (ps.map Prod.fst) N := h
    obtain ⟨hdvd, hle, hdigits⟩ :=
      hrest.digit_value hpos' fun p hp => hlt p (List.mem_cons_of_mem _ hp)
    have hvalue : value ((l, d) :: ps) = d * c + value ps := by
      rw [value_cons, hc]
    have hfirst : d * c + c ≤ c * l.extent := by
      calc d * c + c = c * (d + 1) := by rw [Nat.mul_add_one, Nat.mul_comm]
        _ ≤ c * l.extent := Nat.mul_le_mul_left c hd
    refine ⟨?_, by omega, fun r hr p hp => ?_⟩
    · rw [hvalue]
      exact Nat.dvd_add (Nat.dvd_mul_left c d) ((Nat.dvd_mul_right c l.extent).trans hdvd)
    · rw [hvalue]
      rcases List.mem_cons.mp hp with rfl | hp'
      · obtain ⟨q, hq⟩ := hdvd
        have hsplit : r + (d * c + value ps) = r + c * (d + l.extent * q) := by
          rw [hq, Nat.mul_add, Nat.mul_comm d c, Nat.mul_assoc]
        rw [hc, hsplit, Nat.add_mul_div_left _ _ hpos, Nat.div_eq_of_lt hr, Nat.zero_add,
          Nat.add_mul_mod_self_left, Nat.mod_eq_of_lt hd]
      · have := hdigits (r + d * c) (by omega) p hp'
        rwa [Nat.add_assoc] at this

/-! ## 4. Leaves in any order -/

/-- A list of images can be rearranged along with what it is the image of. -/
theorem exists_perm_map {α β : Type*} (f : α → β) {l l' : List β} (h : l.Perm l') :
    ∀ ps : List α, ps.map f = l → ∃ qs : List α, qs.Perm ps ∧ qs.map f = l' := by
  induction h with
  | nil =>
    intro ps hps
    exact ⟨ps, .refl _, hps⟩
  | cons x _ ih =>
    intro ps hps
    obtain ⟨p, ps', rfl, rfl, hps'⟩ := List.map_eq_cons_iff.mp hps
    obtain ⟨qs, hperm, rfl⟩ := ih ps' hps'
    exact ⟨p :: qs, hperm.cons p, rfl⟩
  | swap x y l =>
    intro ps hps
    obtain ⟨p, ps', rfl, rfl, hps'⟩ := List.map_eq_cons_iff.mp hps
    obtain ⟨q, ps'', rfl, rfl, rfl⟩ := List.map_eq_cons_iff.mp hps'
    exact ⟨q :: p :: ps'', .swap p q ps'', rfl⟩
  | trans _ _ ih ih' =>
    intro ps hps
    obtain ⟨qs, hperm, hqs⟩ := ih ps hps
    obtain ⟨qs', hperm', hqs'⟩ := ih' qs hqs
    exact ⟨qs', hperm'.trans hperm, hqs'⟩

/-- The digits for leaves of extent one are zero, and do not count. -/
theorem value_filter : ∀ {ps : List (Leaf × ℕ)}, (∀ p ∈ ps, p.2 < p.1.extent) →
    value (ps.filter fun p => 1 < p.1.extent) = value ps
  | [], _ => rfl
  | p :: ps, h => by
    have ih := value_filter fun q hq => h q (List.mem_cons_of_mem _ hq)
    have hp := h p List.mem_cons_self
    rw [List.filter_cons]
    split
    · rw [value_cons, value_cons, ih]
    · rename_i hext
      have hzero : p.2 = 0 := by
        rw [decide_eq_true_eq] at hext
        omega
      rw [value_cons, ih, hzero, Nat.zero_mul, Nat.zero_add]

variable {ls : List Leaf} {N : ℕ}

theorem Tiles.exists_chain (h : Tiles ls N) {ps : List (Leaf × ℕ)} (hps : ps.map Prod.fst = ls) :
    ∃ qs : List (Leaf × ℕ), qs.Perm (ps.filter fun p => 1 < p.1.extent) ∧ Chain 1 (qs.map Prod.fst) N := by
  obtain ⟨sorted, hperm, hchain⟩ := h.chain
  have hfilter : (ps.filter fun p => 1 < p.1.extent).map Prod.fst =
      ls.filter fun l => 1 < l.extent := by
    rw [← hps, List.filter_map]
    rfl
  obtain ⟨qs, hqs, rfl⟩ := exists_perm_map Prod.fst hperm.symm _ hfilter
  exact ⟨qs, hqs, hchain⟩

/-- **A number has the digits it was made of.** -/
theorem Tiles.digit_value (h : Tiles ls N) {ps : List (Leaf × ℕ)} (hps : ps.map Prod.fst = ls)
    (hlt : ∀ p ∈ ps, p.2 < p.1.extent) :
    value ps < N ∧ ∀ p ∈ ps, p.1.digit (value ps) = p.2 := by
  obtain ⟨qs, hperm, hchain⟩ := h.exists_chain hps
  have hmem : ∀ {p}, p ∈ qs ↔ p ∈ ps ∧ 1 < p.1.extent := by
    intro p
    rw [hperm.mem_iff, List.mem_filter, decide_eq_true_eq]
  have hvalue : value qs = value ps := by rw [value_perm hperm, value_filter hlt]
  obtain ⟨-, hle, hdigits⟩ := hchain.digit_value Nat.one_pos fun p hp => hlt p (hmem.mp hp).1
  rw [hvalue] at hle hdigits
  refine ⟨by omega, fun p hp => ?_⟩
  have hbound := hlt p hp
  unfold Leaf.digit
  split
  · omega
  · have := hdigits 0 Nat.one_pos p (hmem.mpr ⟨hp, by omega⟩)
    rwa [Nat.zero_add] at this

theorem sum_map_filter {α : Type*} (f : α → ℕ) (X : α → Prop) [DecidablePred X] :
    ∀ {l : List α}, (∀ a ∈ l, ¬ X a → f a = 0) → ((l.filter X).map f).sum = (l.map f).sum
  | [], _ => rfl
  | a :: l, h => by
    have ih := sum_map_filter f X fun b hb => h b (List.mem_cons_of_mem _ hb)
    rw [List.filter_cons]
    split
    · rw [List.map_cons, List.sum_cons, List.map_cons, List.sum_cons, ih]
    · rename_i ha
      rw [decide_eq_true_eq] at ha
      rw [List.map_cons, List.sum_cons, ih, h a List.mem_cons_self ha, Nat.zero_add]

/-- **A number is made of its digits.** -/
theorem Tiles.sum_digit (h : Tiles ls N) {n : ℕ} (hn : n < N) :
    (ls.map fun l => l.digit n * l.stride).sum = n := by
  obtain ⟨sorted, hperm, hchain⟩ := h.chain
  have hsum := hchain.sum_digit n
  rw [Nat.mod_one, Nat.zero_add, Nat.mod_eq_of_lt hn] at hsum
  rw [← sum_map_filter _ (fun l => 1 < l.extent), ← (hperm.map _).sum_eq]
  · refine Eq.trans (congrArg List.sum (List.map_congr_left fun l hl => ?_)) hsum
    have hext : 1 < l.extent := by
      have := (List.mem_filter.mp (hperm.mem_iff.mp hl)).2
      rwa [decide_eq_true_eq] at this
    rw [Leaf.digit, if_neg (by omega)]
  · intro l _ hext
    rw [Leaf.digit, if_pos (by omega), Nat.zero_mul]

theorem Tiles.digit_lt (h : Tiles ls N) {l : Leaf} (hl : l ∈ ls) (n : ℕ) :
    l.digit n < l.extent := by
  have hpos := h.pos l hl
  unfold Leaf.digit
  split
  · exact hpos
  · exact Nat.mod_lt _ hpos

theorem Tiles.stride_pos (h : Tiles ls N) {l : Leaf} (hl : l ∈ ls) (hext : 1 < l.extent) :
    0 < l.stride := by
  obtain ⟨sorted, hperm, hchain⟩ := h.chain
  have hmem : ∀ {l}, l ∈ sorted ↔ l ∈ ls ∧ 1 < l.extent := by
    intro l
    rw [hperm.mem_iff, List.mem_filter, decide_eq_true_eq]
  exact hchain.le_stride (fun l' hl' => h.pos l' (hmem.mp hl').1) l (hmem.mpr ⟨hl, hext⟩)

/-- A smaller stride divides a larger one, for leaves with more than one digit. -/
theorem Tiles.stride_dvd (h : Tiles ls N) {a b : Leaf} (ha : a ∈ ls) (hb : b ∈ ls)
    (ha' : 1 < a.extent) (hb' : 1 < b.extent) (hle : a.stride ≤ b.stride) :
    a.stride ∣ b.stride := by
  obtain ⟨sorted, hperm, hchain⟩ := h.chain
  have hmem : ∀ {l}, l ∈ sorted ↔ l ∈ ls ∧ 1 < l.extent := by
    intro l
    rw [hperm.mem_iff, List.mem_filter, decide_eq_true_eq]
  exact hchain.stride_dvd Nat.one_pos (fun l hl => (hmem.mp hl).2) a (hmem.mpr ⟨ha, ha'⟩) b
    (hmem.mpr ⟨hb, hb'⟩) hle

/-! ## 5. Counting through the leaves -/

/-- The digits of a number, the first leaf varying fastest. -/
def leafDigits : List Leaf → ℕ → List (Leaf × ℕ)
  | [], _ => []
  | l :: ls, n => (l, n % l.extent) :: leafDigits ls (n / l.extent)

theorem map_fst_leafDigits : ∀ (ls : List Leaf) (n : ℕ), (leafDigits ls n).map Prod.fst = ls
  | [], _ => rfl
  | l :: ls, n => by rw [leafDigits, List.map_cons, map_fst_leafDigits ls]

theorem map_snd_leafDigits : ∀ (ls : List Leaf) (n : ℕ),
    (leafDigits ls n).map Prod.snd = digits (ls.map Leaf.extent) n
  | [], _ => rfl
  | l :: ls, n => by rw [leafDigits, List.map_cons, map_snd_leafDigits ls, List.map_cons, digits]

/-- The digits of a number that has been counted through the leaves are those of another one. -/
theorem digits_eq_of_leafDigits {ls : List Leaf} {i n : ℕ}
    (h : ∀ p ∈ leafDigits ls i, p.1.digit n = p.2) :
    digits (ls.map Leaf.extent) i = ls.map fun l => l.digit n := by
  have hfst : ls.map (fun l => l.digit n) =
      (leafDigits ls i).map fun p => p.1.digit n := by
    nth_rewrite 1 [← map_fst_leafDigits ls i]
    rw [List.map_map]
    rfl
  rw [← map_snd_leafDigits, hfst]
  exact List.map_congr_left fun p hp => (h p hp).symm

theorem lt_of_mem_leafDigits : ∀ {ls : List Leaf} {n : ℕ}, (∀ l ∈ ls, 0 < l.extent) →
    ∀ p ∈ leafDigits ls n, p.2 < p.1.extent
  | l :: _, n, h, p, hp => by
    rcases List.mem_cons.mp hp with rfl | hp
    · exact Nat.mod_lt n (h l List.mem_cons_self)
    · exact lt_of_mem_leafDigits (fun l' hl' => h l' (List.mem_cons_of_mem _ hl')) p hp

theorem exists_leafDigits {n : ℕ} : ∀ ls : List Leaf, (∀ l ∈ ls, l.digit n < l.extent) →
    ∃ i < (ls.map Leaf.extent).prod, leafDigits ls i = ls.map fun l => (l, l.digit n)
  | [], _ => ⟨0, Nat.one_pos, rfl⟩
  | l :: ls, h => by
    obtain ⟨i, hi, hdigits⟩ := exists_leafDigits ls fun l' hl' => h l' (List.mem_cons_of_mem _ hl')
    have hl := h l List.mem_cons_self
    have hpos : 0 < l.extent := by omega
    refine ⟨l.digit n + l.extent * i, ?_, ?_⟩
    · rw [List.map_cons, List.prod_cons]
      calc l.digit n + l.extent * i
          < l.extent * (i + 1) := by rw [Nat.mul_add_one]; omega
        _ ≤ l.extent * (ls.map Leaf.extent).prod := Nat.mul_le_mul_left _ hi
    · rw [leafDigits, List.map_cons, Nat.add_mul_mod_self_left, Nat.mod_eq_of_lt hl,
        Nat.add_mul_div_left _ _ hpos, Nat.div_eq_of_lt hl, Nat.zero_add, hdigits]

theorem Tiles.value_digit (h : Tiles ls N) {n : ℕ} (hn : n < N) :
    value (ls.map fun l => (l, l.digit n)) = n := by
  rw [value, List.map_map]
  exact h.sum_digit hn

end Cccl.MixedRadix
