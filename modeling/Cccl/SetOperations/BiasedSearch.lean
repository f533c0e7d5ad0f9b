/-
# The biased binary search

`biased_binary_search` of the set operations.  The first probes divide the range unevenly: the end has the weight `511`,
`127`, `31` or `15`.  Each probe is within the range (`iteration_spec`), so whatever the weights are, the result is the
bound, unless a midpoint overflows.

A midpoint is a weighted sum, and the first one is the largest of the biased ones.  If it fits, so do all others
(`steps_fit`).  Without a bias, the sums grow only as long as the search goes to the right (`rightEdge`); once it has gone
to the left, they stay below twice the end (`searchLoop_eq`).
-/
import Cccl.Lib.IntegerTypes
import Cccl.Lib.StableSort

namespace Cccl.SetOperations

open IntegerTypes StableSort

variable {α : Type}

/-! ## 1. The code -/

/-- The predicate of a probe, for the upper or the lower bound. -/
def isBefore (upperBound : Bool) (compareOp : α → α → Bool) (key key2 : α) : Bool :=
  if upperBound then !compareOp key key2 else compareOp key2 key

/-- The type of `levels`: `int` or a wider one, so that the weights are exact. -/
structure LevelsType where
  type : IntegerType
  wide : Rank.int.order ≤ type.rank.order

section Code

variable (m : DataModel) (intT : LevelsType) (offset : IntegerType) (before : α → Bool) (data : List α)

/-- The type of `scale * end`. -/
def productType : IntegerType := arithmeticType m intT.type offset

/-- The type of `begin + scale * end`. -/
def sumType : IntegerType := arithmeticType m offset (productType m intT offset)

/-- The midpoint, unless its computation overflows. -/
def midpoint (shift first last : ℕ) : Option ℕ :=
  let scale := 1 <<< shift - 1
  if scale * last ≤ (productType m intT offset).max m ∧ first + scale * last ≤ (sumType m intT offset).max m then
    some ((first + scale * last) >>> shift)
  else none

/-- `binary_search_iteration`, on `begin` and `end`. -/
def iteration (shift : ℕ) (range : ℕ × ℕ) : Option (ℕ × ℕ) := do
  let mid ← midpoint m intT offset shift range.1 range.2
  let key2 ← data[mid]?
  if before key2 then some (mid + 1, range.2) else some (range.1, mid)

/-- The loop without a bias. -/
def searchLoop : ℕ → ℕ × ℕ → Option ℕ
  | 0, _ => none
  | fuel + 1, range =>
    if range.1 < range.2 then do
      let range ← iteration m intT offset before data 1 range
      searchLoop fuel range
    else some range.1

/-- The levels from which there are biased steps, and their shifts. -/
def biasedSteps : List (ℤ × ℕ) := [(4, 9), (3, 7), (2, 5), (1, 4)]

/-- The biased steps. -/
def runSteps (levels : ℤ) : List (ℤ × ℕ) → ℕ × ℕ → Option (ℕ × ℕ)
  | [], range => some range
  | step :: steps, range => do
    let range ←
      (if step.1 ≤ levels ∧ range.1 < range.2 then iteration m intT offset before data step.2 range else some range)
    runSteps levels steps range

/-- `biased_binary_search`, for the number of all elements. -/
def biasedBinarySearch (levels : ℤ) : Option ℕ := do
  let range ← runSteps m intT offset before data levels biasedSteps (0, data.length)
  searchLoop m intT offset before data (data.length + 1) range

end Code

/-! ## 2. The bound -/

/-- The bound: all elements in front of it are before the key, and it is the first that is not. -/
def bound (before : α → Bool) (data : List α) : ℕ := data.findIdx fun x => !before x

/-- The elements that are before the key are those in front of the bound. -/
def Partitioned (before : α → Bool) (data : List α) : Prop :=
  ∀ (i : ℕ) (x : α), data[i]? = some x → (before x = true ↔ i < bound before data)

theorem bound_le (before : α → Bool) (data : List α) : bound before data ≤ data.length := List.findIdx_le_length

theorem partitioned_of_sorted {lt : α → α → Bool} [IsStrictWeakOrder α fun a b => lt a b = true] {data : List α}
    (hsorted : data.Pairwise fun a b => lt b a = false) (upper : Bool) (key : α) :
    Partitioned (isBefore upper lt key) data := by
  intro i x hx
  obtain ⟨hi, hget⟩ := List.getElem?_eq_some_iff.mp hx
  rcases Nat.lt_or_ge i (bound (isBefore upper lt key) data) with hless | hmore
  · have := List.not_of_lt_findIdx hless
    rw [hget, Bool.not_eq_false'] at this
    exact iff_of_true this hless
  · refine iff_of_false (fun hbefore => ?_) (Nat.not_lt.mpr hmore)
    have hlt : bound (isBefore upper lt key) data < data.length := hmore.trans_lt hi
    have hfirst : isBefore upper lt key data[bound (isBefore upper lt key) data] = false := by
      have := List.findIdx_getElem (w := hlt)
      rwa [Bool.not_eq_true'] at this
    rcases Nat.eq_or_lt_of_le hmore with heq | hbehind
    · rw [← hget] at hbefore
      simp only [← heq, hfirst] at hbefore
      exact Bool.false_ne_true hbefore
    · have hle : lt x data[bound (isBefore upper lt key) data] = false := by
        rw [← hget]
        exact List.pairwise_iff_getElem.mp hsorted _ _ hlt hi hbehind
      unfold isBefore at hfirst hbefore
      cases upper with
      | true =>
        rw [if_pos rfl, Bool.not_eq_false'] at hfirst
        rw [if_pos rfl, Bool.not_eq_true'] at hbefore
        exact Bool.false_ne_true ((notAbove_trans hle hbefore).symm.trans hfirst)
      | false =>
        rw [if_neg Bool.false_ne_true] at hfirst hbefore
        exact Bool.false_ne_true ((notAbove_trans hfirst hle).symm.trans hbefore)

/-! ## 3. Steps -/

variable {m : DataModel} {intT : LevelsType} {offset : IntegerType} {before : α → Bool} {data : List α} {first last shift : ℕ}

/-- A range that the bound is in. -/
def Holds (before : α → Bool) (data : List α) (range : ℕ × ℕ) : Prop :=
  range.1 ≤ bound before data ∧ bound before data ≤ range.2

theorem midpoint_eq (hproduct : (2 ^ shift - 1) * last ≤ (productType m intT offset).max m)
    (hsum : first + (2 ^ shift - 1) * last ≤ (sumType m intT offset).max m) :
    midpoint m intT offset shift first last = some ((first + (2 ^ shift - 1) * last) / 2 ^ shift) := by
  unfold midpoint
  dsimp only
  rw [Nat.one_shiftLeft, if_pos ⟨hproduct, hsum⟩, Nat.shiftRight_eq_div_pow]

theorem midpoint_none (h : ¬((2 ^ shift - 1) * last ≤ (productType m intT offset).max m ∧
    first + (2 ^ shift - 1) * last ≤ (sumType m intT offset).max m)) :
    midpoint m intT offset shift first last = none := by
  unfold midpoint
  dsimp only
  rw [Nat.one_shiftLeft, if_neg h]

/-- **A weighted midpoint is in the range.** -/
theorem midpoint_mem (shift : ℕ) (hlt : first < last) : first ≤ (first + (2 ^ shift - 1) * last) / 2 ^ shift ∧
    (first + (2 ^ shift - 1) * last) / 2 ^ shift < last := by
  have hpos := Nat.two_pow_pos shift
  have hsplit : (2 ^ shift - 1) * last + last = 2 ^ shift * last := by
    rw [Nat.sub_mul, Nat.one_mul, Nat.sub_add_cancel (Nat.le_mul_of_pos_left _ hpos)]
  have hfirst : first * 2 ^ shift ≤ (2 ^ shift - 1) * last + first := by
    rw [Nat.mul_comm]
    have hle := Nat.mul_le_mul_left (2 ^ shift - 1) hlt.le
    have := Nat.sub_mul (2 ^ shift) 1 first
    have := Nat.le_mul_of_pos_left first hpos
    omega
  refine ⟨(Nat.le_div_iff_mul_le hpos).mpr (by omega), Nat.div_lt_of_lt_mul (by omega)⟩

/-- **A step keeps the bound in the range**, and its end does not grow. -/
theorem iteration_spec (hpartitioned : Partitioned before data) (hholds : Holds before data (first, last))
    (hlast : last ≤ data.length) (hlt : first < last)
    (hproduct : (2 ^ shift - 1) * last ≤ (productType m intT offset).max m)
    (hsum : first + (2 ^ shift - 1) * last ≤ (sumType m intT offset).max m) :
    ∃ mid, first ≤ mid ∧ mid < last ∧ mid = (first + (2 ^ shift - 1) * last) / 2 ^ shift ∧
      ((mid < bound before data ∧ iteration m intT offset before data shift (first, last) = some (mid + 1, last) ∧
          Holds before data (mid + 1, last)) ∨
        (bound before data ≤ mid ∧ iteration m intT offset before data shift (first, last) = some (first, mid) ∧
          Holds before data (first, mid))) := by
  obtain ⟨hlow, hhigh⟩ := midpoint_mem shift hlt
  have hmidpoint := midpoint_eq hproduct hsum
  obtain ⟨mid, hmid⟩ : ∃ mid, mid = (first + (2 ^ shift - 1) * last) / 2 ^ shift := ⟨_, rfl⟩
  rw [← hmid] at hlow hhigh hmidpoint
  have hget : data[mid]? = some data[mid] := List.getElem?_eq_getElem (hhigh.trans_le hlast)
  have hstep : iteration m intT offset before data shift (first, last) =
      if before data[mid] then some (mid + 1, last) else some (first, mid) := by
    change (midpoint m intT offset shift first last).bind (fun mid => (data[mid]?).bind fun key2 =>
      if before key2 then some (mid + 1, last) else some (first, mid)) = _
    rw [hmidpoint, Option.bind_some, hget, Option.bind_some]
  refine ⟨mid, hlow, hhigh, hmid, ?_⟩
  by_cases hbefore : before data[mid] = true
  · have hless := (hpartitioned mid _ hget).mp hbefore
    exact Or.inl ⟨hless, by rw [hstep, if_pos hbefore], hless, hholds.2⟩
  · have hmore := Nat.not_lt.mp fun hless => hbefore ((hpartitioned mid _ hget).mpr hless)
    exact Or.inr ⟨hmore, by rw [hstep, if_neg hbefore], hholds.1, hmore⟩

theorem iteration_none (h : midpoint m intT offset shift first last = none) :
    iteration m intT offset before data shift (first, last) = none := by
  change (midpoint m intT offset shift first last).bind _ = none
  rw [h]
  rfl

/-! ## 4. Without a bias -/

theorem product_le_sum : (productType m intT offset).max m ≤ (sumType m intT offset).max m :=
  max_le_arithmeticType.2

theorem le_product (hcount : data.length ≤ offset.max m) : data.length ≤ (productType m intT offset).max m :=
  hcount.trans max_le_arithmeticType.2

/-- **Behind an end of which the double fits**, no sum overflows. -/
theorem searchLoop_eq (hpartitioned : Partitioned before data) : ∀ {fuel first last : ℕ}, last - first < fuel →
    last ≤ data.length → last ≤ (productType m intT offset).max m → 2 * last ≤ (sumType m intT offset).max m →
      Holds before data (first, last) →
        searchLoop m intT offset before data fuel (first, last) = some (bound before data)
  | 0, _, _, hfuel, _, _, _, _ => absurd hfuel (Nat.not_lt_zero _)
  | fuel + 1, first, last, hfuel, hlast, hproduct, hsum, hholds => by
    rw [searchLoop]
    split
    · rename_i hlt
      change first < last at hlt
      have hproduct' : (2 ^ 1 - 1) * last ≤ (productType m intT offset).max m := by omega
      obtain ⟨mid, hlow, hhigh, -, hcases⟩ := iteration_spec hpartitioned hholds hlast hlt hproduct' (by omega)
      rcases hcases with ⟨-, hstep, hnext⟩ | ⟨-, hstep, hnext⟩
      · rw [hstep]
        exact searchLoop_eq hpartitioned (by omega) hlast hproduct hsum hnext
      · rw [hstep]
        exact searchLoop_eq hpartitioned (by omega) (by omega) (by omega) (by omega) hnext
    · rename_i hdone
      change ¬ first < last at hdone
      exact congrArg some (Nat.le_antisymm hholds.1 (hholds.2.trans (Nat.not_lt.mp hdone)))

/-- Where a search begins that has gone to the right only. -/
def rightEdge (count : ℕ) : ℕ → ℕ
  | 0 => 0
  | k + 1 => (rightEdge count k + count) / 2 + 1

/-- A search that goes to the right never comes where the sum overflows. -/
def EdgeFits (max : ℕ) (before : α → Bool) (data : List α) : Prop :=
  ∀ k, rightEdge data.length k < data.length → max < rightEdge data.length k + data.length →
    ∀ x, data[rightEdge data.length k - 1]? = some x → before x = false

theorem rightEdge_le (count : ℕ) : ∀ k, rightEdge count k ≤ count + 2
  | 0 => Nat.zero_le _
  | k + 1 => by
    have := rightEdge_le count k
    rw [rightEdge]
    omega

theorem rightEdge_mono (count : ℕ) : Monotone (rightEdge count) :=
  monotone_nat_of_le_succ fun k => by
    have := rightEdge_le count k
    rw [rightEdge]
    omega

theorem searchLoop_edge (hpartitioned : Partitioned before data) (hcount : data.length ≤ offset.max m) :
    ∀ {fuel k : ℕ}, data.length - rightEdge data.length k < fuel → rightEdge data.length k ≤ bound before data →
      (∀ j < k, rightEdge data.length j + data.length ≤ (sumType m intT offset).max m) →
        (searchLoop m intT offset before data fuel (rightEdge data.length k, data.length) = some (bound before data) ↔
          EdgeFits ((sumType m intT offset).max m) before data)
  | 0, _, hfuel, _, _ => absurd hfuel (Nat.not_lt_zero _)
  | fuel + 1, k, hfuel, hbound, hfits => by
    have hproduct : data.length ≤ (productType m intT offset).max m := le_product hcount
    have hproductSum : (productType m intT offset).max m ≤ (sumType m intT offset).max m := product_le_sum
    have hle := bound_le before data
    rw [searchLoop]
    split
    · rename_i hlt
      change rightEdge data.length k < data.length at hlt
      rcases Nat.lt_or_ge ((sumType m intT offset).max m) (rightEdge data.length k + data.length) with hover | hsum
      · have hstep : iteration m intT offset before data 1 (rightEdge data.length k, data.length) = none :=
          iteration_none (midpoint_none fun h => by omega)
        rw [hstep]
        refine iff_of_false (Option.some_ne_none _).symm fun hedge => ?_
        have hpos : 0 < rightEdge data.length k := by omega
        have hget : data[rightEdge data.length k - 1]? = some data[rightEdge data.length k - 1] :=
          List.getElem?_eq_getElem (by omega)
        have hbefore := (hpartitioned _ _ hget).mpr (by omega)
        exact Bool.false_ne_true ((hedge k hlt hover _ hget).symm.trans hbefore)
      · have hproduct' : (2 ^ 1 - 1) * data.length ≤ (productType m intT offset).max m := by omega
        obtain ⟨mid, hlow, hhigh, hmid, hcases⟩ :=
          iteration_spec hpartitioned ⟨hbound, hle⟩ le_rfl hlt hproduct' (by omega)
        have hnextEdge : mid + 1 = rightEdge data.length (k + 1) := by
          rw [rightEdge, hmid]
          omega
        rcases hcases with ⟨hless, hstep, -⟩ | ⟨hmore, hstep, hnext⟩
        · rw [hstep, hnextEdge]
          refine searchLoop_edge hpartitioned hcount (by omega) (by omega) fun j hj => ?_
          rcases Nat.lt_succ_iff_lt_or_eq.mp hj with hj | rfl
          · exact hfits j hj
          · exact hsum
        · rw [hstep]
          refine iff_of_true (searchLoop_eq hpartitioned (by omega) (by omega) (by omega) (by omega) hnext)
            fun j hj hover x hx => Bool.eq_false_iff.mpr fun hbefore => ?_
          have hjless := (hpartitioned _ _ hx).mp hbefore
          rcases Nat.lt_or_ge k j with hkj | hjk
          · have := rightEdge_mono data.length (show k + 1 ≤ j from hkj)
            omega
          · rcases Nat.eq_or_lt_of_le hjk with rfl | hjk
            · omega
            · have := hfits j hjk
              omega
    · rename_i hdone
      change ¬ rightEdge data.length k < data.length at hdone
      refine iff_of_true (congrArg some (by omega)) fun j hj hover => ?_
      rcases Nat.lt_or_ge j k with hjk | hkj
      · have := hfits j hjk
        omega
      · have := rightEdge_mono data.length hkj
        omega

/-! ## 5. With a bias -/

theorem runSteps_cons (levels : ℤ) (step : ℤ × ℕ) (steps : List (ℤ × ℕ)) (range : ℕ × ℕ) :
    runSteps m intT offset before data levels (step :: steps) range =
      (if step.1 ≤ levels ∧ range.1 < range.2 then iteration m intT offset before data step.2 range
        else some range).bind (runSteps m intT offset before data levels steps) := rfl

/-- **Steps that fit** lead to a range with the bound. -/
theorem steps_fit (hpartitioned : Partitioned before data) (levels : ℤ) : ∀ {steps : List (ℤ × ℕ)} {first last : ℕ},
    last ≤ data.length → (∀ step ∈ steps, 2 ^ step.2 * last ≤ (productType m intT offset).max m) →
      Holds before data (first, last) → ∃ first' last', last' ≤ last ∧ Holds before data (first', last') ∧
        runSteps m intT offset before data levels steps (first, last) = some (first', last')
  | [], first, last, _, _, hholds => ⟨first, last, le_rfl, hholds, rfl⟩
  | step :: steps, first, last, hlast, hfit, hholds => by
    have hrest : ∀ {last' : ℕ}, last' ≤ last → ∀ step ∈ steps, 2 ^ step.2 * last' ≤ (productType m intT offset).max m :=
      fun hle step hstep => (Nat.mul_le_mul_left _ hle).trans (hfit step (List.mem_cons_of_mem _ hstep))
    rw [runSteps_cons]
    split
    · rename_i hrun
      have hlt : first < last := hrun.2
      have hfirst := hfit step List.mem_cons_self
      have hsplit : 2 ^ step.2 * last = (2 ^ step.2 - 1) * last + last := by
        rw [Nat.sub_mul, Nat.one_mul, Nat.sub_add_cancel (Nat.le_mul_of_pos_left _ (Nat.two_pow_pos _))]
      have hsum : (productType m intT offset).max m ≤ (sumType m intT offset).max m := product_le_sum
      have hproduct : (2 ^ step.2 - 1) * last ≤ (productType m intT offset).max m := by omega
      obtain ⟨mid, -, hhigh, -, hcases⟩ := iteration_spec hpartitioned hholds hlast hlt hproduct (by omega)
      rcases hcases with ⟨-, hstep, hnext⟩ | ⟨-, hstep, hnext⟩
      · rw [hstep]
        exact steps_fit hpartitioned levels hlast (hrest le_rfl) hnext
      · rw [hstep]
        obtain ⟨first', last', hle, hholds', hrun'⟩ :=
          steps_fit hpartitioned levels (hhigh.le.trans hlast) (hrest hhigh.le) hnext
        exact ⟨first', last', hle.trans hhigh.le, hholds', hrun'⟩
    · exact steps_fit hpartitioned levels hlast (hrest le_rfl) hholds

theorem search_fits (hpartitioned : Partitioned before data) (levels : ℤ) {steps : List (ℤ × ℕ)}
    (hlast : last ≤ data.length) (hfit : ∀ step ∈ steps, 2 ^ step.2 * last ≤ (productType m intT offset).max m)
    (htwice : 2 * last ≤ (productType m intT offset).max m) (hholds : Holds before data (first, last)) :
    (runSteps m intT offset before data levels steps (first, last)).bind
      (searchLoop m intT offset before data (data.length + 1)) = some (bound before data) := by
  have hsum : (productType m intT offset).max m ≤ (sumType m intT offset).max m := product_le_sum
  obtain ⟨first', last', hle, hholds', hrun⟩ := steps_fit hpartitioned levels hlast hfit hholds
  rw [hrun, Option.bind_some]
  exact searchLoop_eq hpartitioned (by omega) (by omega) (by omega) (by omega) hholds'

/-- **The first biased step decides** whether the search overflows. -/
theorem search_eq_iff (hpartitioned : Partitioned before data) {levels : ℤ} {step : ℤ × ℕ} {steps : List (ℤ × ℕ)}
    (hlevel : step.1 ≤ levels) (hshift : 2 ≤ step.2) (hsmaller : ∀ s ∈ steps, s.2 < step.2) :
    ((runSteps m intT offset before data levels (step :: steps) (0, data.length)).bind
        (searchLoop m intT offset before data (data.length + 1)) = some (bound before data) ↔
      (2 ^ step.2 - 1) * data.length ≤ (productType m intT offset).max m) := by
  have hsum : (productType m intT offset).max m ≤ (sumType m intT offset).max m := product_le_sum
  have hle := bound_le before data
  have hfour : 2 ^ 2 ≤ 2 ^ step.2 := Nat.pow_le_pow_right (by decide) hshift
  -- weights of later steps, and of a step without a bias, are not larger
  have hweight : ∀ {last c : ℕ}, c ≤ 2 ^ step.2 - 1 → last ≤ data.length →
      (2 ^ step.2 - 1) * data.length ≤ (productType m intT offset).max m → c * last ≤ (productType m intT offset).max m :=
    fun hc hlast hfit => (Nat.mul_le_mul hc hlast).trans hfit
  have hlater : ∀ s ∈ steps, 2 ^ s.2 ≤ 2 ^ step.2 - 1 := fun s hs =>
    Nat.le_sub_one_of_lt (Nat.pow_lt_pow_right (by decide) (hsmaller s hs))
  rw [runSteps_cons]
  by_cases hpos : 0 < data.length
  · rw [if_pos ⟨hlevel, hpos⟩]
    by_cases hfit : (2 ^ step.2 - 1) * data.length ≤ (productType m intT offset).max m
    · refine iff_of_true ?_ hfit
      obtain ⟨mid, -, hhigh, -, hcases⟩ :=
        iteration_spec hpartitioned ⟨Nat.zero_le _, hle⟩ le_rfl hpos hfit (by omega)
      rcases hcases with ⟨-, hstep, hnext⟩ | ⟨-, hstep, hnext⟩
      · rw [hstep, Option.bind_some]
        exact search_fits hpartitioned levels le_rfl (fun s hs => hweight (hlater s hs) le_rfl hfit)
          (hweight (by omega) le_rfl hfit) hnext
      · rw [hstep, Option.bind_some]
        exact search_fits hpartitioned levels hhigh.le (fun s hs => hweight (hlater s hs) hhigh.le hfit)
          (hweight (by omega) hhigh.le hfit) hnext
    · rw [iteration_none (midpoint_none fun h => hfit h.1)]
      exact iff_of_false (Option.some_ne_none _).symm hfit
  · have hfit : (2 ^ step.2 - 1) * data.length ≤ (productType m intT offset).max m := by
      rw [Nat.eq_zero_of_not_pos hpos, Nat.mul_zero]
      exact Nat.zero_le _
    rw [if_neg fun h => hpos h.2, Option.bind_some]
    exact iff_of_true (search_fits hpartitioned levels le_rfl (fun s hs => hweight (hlater s hs) le_rfl hfit)
      (hweight (by omega) le_rfl hfit) ⟨Nat.zero_le _, hle⟩) hfit

theorem runSteps_skip {levels : ℤ} {step : ℤ × ℕ} (h : ¬ step.1 ≤ levels) (steps : List (ℤ × ℕ)) (range : ℕ × ℕ) :
    runSteps m intT offset before data levels (step :: steps) range =
      runSteps m intT offset before data levels steps range := by
  rw [runSteps_cons, if_neg fun hrun => h hrun.1, Option.bind_some]

/-- The weight of the end in the first probe, if that is a biased one. -/
def firstScale (levels : ℤ) : Option ℕ :=
  if 4 ≤ levels then some 511 else if 3 ≤ levels then some 127 else if 2 ≤ levels then some 31
  else if 1 ≤ levels then some 15 else none

/-- No midpoint overflows: the first one with a bias does not, or a search to the right without a bias does not. -/
def NoOverflow (m : DataModel) (intT : LevelsType) (offset : IntegerType) (before : α → Bool) (data : List α)
    (levels : ℤ) : Prop :=
  match firstScale levels with
  | some scale => scale * data.length ≤ (productType m intT offset).max m
  | none => EdgeFits ((sumType m intT offset).max m) before data

/-- **The biased search finds the bound** if and only if no midpoint overflows. -/
theorem biasedBinarySearch_eq_iff (m : DataModel) (intT : LevelsType) (offset : IntegerType) {lt : α → α → Bool}
    [IsStrictWeakOrder α fun a b => lt a b = true] (upperBound : Bool) (key : α) (data : List α) (levels : ℤ)
    (hsorted : data.Pairwise fun a b => lt b a = false) (hcount : data.length ≤ offset.max m) :
    biasedBinarySearch m intT offset (isBefore upperBound lt key) data levels =
        some (bound (isBefore upperBound lt key) data) ↔
      NoOverflow m intT offset (isBefore upperBound lt key) data levels := by
  have hpartitioned := partitioned_of_sorted hsorted upperBound key
  change (runSteps m intT offset _ data levels biasedSteps (0, data.length)).bind _ = _ ↔ _
  unfold NoOverflow firstScale biasedSteps
  split
  · rename_i scale hscale
    split at hscale
    · obtain rfl := Option.some_injective _ hscale
      exact search_eq_iff hpartitioned (by assumption) (by decide) (by decide)
    · rw [runSteps_skip (by assumption)]
      split at hscale
      · obtain rfl := Option.some_injective _ hscale
        exact search_eq_iff hpartitioned (by assumption) (by decide) (by decide)
      · rw [runSteps_skip (by assumption)]
        split at hscale
        · obtain rfl := Option.some_injective _ hscale
          exact search_eq_iff hpartitioned (by assumption) (by decide) (by decide)
        · rw [runSteps_skip (by assumption)]
          split at hscale
          · obtain rfl := Option.some_injective _ hscale
            exact search_eq_iff hpartitioned (by assumption) (by decide) (by decide)
          · exact absurd hscale.symm (Option.some_ne_none _)
  · rename_i hscale
    have hnone : levels < 1 := by
      by_contra hlevels
      split_ifs at hscale
      omega
    rw [runSteps_skip (by change ¬ (4 : ℤ) ≤ levels; omega), runSteps_skip (by change ¬ (3 : ℤ) ≤ levels; omega),
      runSteps_skip (by change ¬ (2 : ℤ) ≤ levels; omega), runSteps_skip (by change ¬ (1 : ℤ) ≤ levels; omega)]
    exact searchLoop_edge (k := 0) hpartitioned hcount (Nat.lt_succ_self _) (Nat.zero_le _)
      fun j hj => absurd hj (Nat.not_lt_zero j)

/-- `int`, as a tile passes it. -/
def intLevels : LevelsType := ⟨⟨.int, true⟩, by decide⟩

/-- A few keys of a tile. -/
theorem search_few_keys : biasedBinarySearch .lp64 intLevels ⟨.int, true⟩
    (isBefore true (fun a b : ℕ => decide (a < b)) 2) [1, 2, 2, 3] 4 = some 3 :=
  (biasedBinarySearch_eq_iff .lp64 intLevels ⟨.int, true⟩ true 2 [1, 2, 2, 3] 4 (by decide) (by decide)).mpr
    (show 511 * 4 ≤ _ by decide)

/-- The first midpoint of a little more than four million keys overflows `int`. -/
theorem search_overflows : biasedBinarySearch .lp64 intLevels ⟨.int, true⟩
    (isBefore false (fun a b : ℕ => decide (a < b)) 0) (List.replicate 4202513 0) 4 = none := by
  have hlength : (List.replicate 4202513 0 : List ℕ).length = 4202513 := List.length_replicate
  unfold biasedBinarySearch biasedSteps
  rw [hlength, runSteps_cons, if_pos (by decide), iteration_none (midpoint_none (by decide))]
  rfl

end Cccl.SetOperations
