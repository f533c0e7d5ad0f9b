/-
# The capacity of a container

`capacity.cuh`, and the search for a prime of `prime.cuh`.

`make_valid_capacity` turns a request into a number of cycles, looks for a prime from there if the scheme
hashes twice, and multiplies by the stride.  A capacity is valid when it is a good number of strides
(`isValidCapacity_mul`), and so the valid capacities of a type that are not below a request are the multiples of
the good numbers between two bounds (`capacities_eq`).  The search returns the least prime between its bounds, as
it leaves out even numbers only (`nextPrime_spec`), and the product is checked (`mulOverflow_eq`).

For linear probing the number of cycles is adjusted when the request is zero, which was rounded up to one
before.  The result is then two strides, although one would do: such a request counts as one for more than a
stride (`asked`).
-/
import Cccl.Cuco.Probing
import Cccl.Numeric.AddOverflow
import Cccl.Lib.Wrapping
import Mathlib

namespace Cccl.Cuco

open IntegerTypes Numeric Cmath

/-! ## 1. The source -/

/-- `is_double_hashing_v`. -/
def ProbingScheme.isDoubleHashing {K : Type*} : ProbingScheme K → Bool
  | linearProbing _ => false
  | doubleHashing _ _ => true

/-- `cg_size` and the size of a bucket, two positive numbers of type `int`. -/
structure GroupShape where
  cgSize : ℕ
  bucketSize : ℕ
  cgSize_pos : 0 < cgSize
  bucketSize_pos : 0 < bucketSize
  cgSize_lt : cgSize < 2 ^ 31
  bucketSize_lt : bucketSize < 2 ^ 31

/-- How the code is compiled: whether there is a type of 128 bits, whether the compiler has a multiplication
with a check, and whether the code runs on the device. -/
structure Target where
  hasInt128 : Bool
  hasMulOverflow : Bool
  onDevice : Bool

/-- `__next_prime`, the loop. -/
def nextPrimeLoop (isPrime : ℕ → Bool) (upperBound n : ℕ) : ℕ :=
  if _h : n ≤ upperBound then
    if isPrime n then n
    else
      let next := Cmath.addOverflow 64 n 2
      if _hnext : next.overflow then 0 else nextPrimeLoop isPrime upperBound next.value
  else 0
termination_by upperBound + 1 - n
decreasing_by
  have hsum : ¬(n + 2) % 2 ^ 64 < n := of_decide_eq_false (Bool.eq_false_of_not_eq_true _hnext)
  change upperBound + 1 - (n + 2) % 2 ^ 64 < upperBound + 1 - n
  omega

def nextPrime (isPrime : ℕ → Bool) (n upperBound : ℕ) : ℕ :=
  if upperBound < 2 ∨ upperBound < n then 0
  else if n ≤ 2 then 2
  else nextPrimeLoop isPrime upperBound (n ||| 1)

/-- `ceil_div` of two numbers of 64 bits. -/
def ceilDiv (onDevice : Bool) (a b : ℕ) : ℕ :=
  if onDevice then min a (1 + (a - 1) / b)
  else
    let res := a / b
    res + (decide (res * b ≠ a)).toNat

/-- `mul_overflow` of two numbers of 64 bits, with a result of any type. -/
def mulOverflow (target : Target) (m : DataModel) (T : IntegerType) (lhs rhs : ℕ) : Numeric.OverflowResult :=
  if target.hasMulOverflow then exactResult m T (lhs * rhs : ℕ)
  else if target.hasInt128 then Numeric.overflowCast m T ⟨.int128, false⟩ ((lhs * rhs % 2 ^ 128 : ℕ) : ℤ)
  else
    let product := Numeric.overflowCast m T Wrapped.sizeType ((lhs * rhs % 2 ^ 64 : ℕ) : ℤ)
    { product with overflow := product.overflow || decide (mulHi false 64 lhs rhs ≠ 0) }

section

variable {K : Type*} (target : Target) (isPrime : ℕ → Bool) (m : DataModel) (T : IntegerType)
  (scheme : ProbingScheme K) (shape : GroupShape)

def GroupShape.stride : ℕ := shape.cgSize * shape.bucketSize % 2 ^ 64

def makeValidCapacity (requested : ℤ) : Except String ℤ :=
  let maxCycles := T.max m / shape.stride
  let requestedNormalized := (Wrapped.sizeType.staticCast m (max requested 1)).toNat
  let cycles := ceilDiv target.onDevice requestedNormalized shape.stride
  if scheme.isDoubleHashing then
    let prime := nextPrime isPrime cycles maxCycles
    let capacity := mulOverflow target m T prime shape.stride
    if prime = 0 ∨ capacity.overflow then .error "Invalid input capacity" else .ok capacity.value
  else
    let numBuckets := (cycles + (decide (requested = 0)).toNat) % 2 ^ 64
    let capacity := mulOverflow target m T numBuckets shape.stride
    if capacity.overflow then .error "Invalid input capacity" else .ok capacity.value

def isValidCapacity (capacity : ℤ) : Except String Bool :=
  (makeValidCapacity target isPrime m T scheme shape capacity).map fun valid => decide (valid = capacity)

end

/-! ## 2. The search for a prime -/

/-- The least prime between two bounds, or zero if there is none. -/
def IsFirstPrime (n upperBound p : ℕ) : Prop :=
  IsLeast {q | q.Prime ∧ n ≤ q ∧ q ≤ upperBound} p ∨
    p = 0 ∧ ∀ q, q.Prime → n ≤ q → upperBound < q

section

variable {isPrime : ℕ → Bool} {n upperBound : ℕ}

/-- A number that is not prime and an even one can be left out. -/
theorem IsFirstPrime.of_add_two {p : ℕ} (h : IsFirstPrime (n + 2) upperBound p) (hodd : n % 2 = 1)
    (hthree : 3 ≤ n) (hn : ¬n.Prime) : IsFirstPrime n upperBound p := by
  have hskip : ∀ q, q.Prime → n ≤ q → n + 2 ≤ q := by
    intro q hq hle
    have hne : q ≠ n := by
      rintro rfl
      exact hn hq
    rcases hq.eq_two_or_odd with htwo | hqodd
    · omega
    · omega
  rcases h with ⟨⟨hp, hge, hle⟩, hleast⟩ | ⟨hzero, hnone⟩
  · refine Or.inl ⟨⟨hp, by omega, hle⟩, ?_⟩
    rintro q ⟨hq, hqge, hqle⟩
    exact hleast ⟨hq, hskip q hq hqge, hqle⟩
  · exact Or.inr ⟨hzero, fun q hq hle => hnone q hq (hskip q hq hle)⟩

theorem nextPrimeLoop_spec (hprime : ∀ q < 2 ^ 64, isPrime q = true ↔ q.Prime) (hupper : upperBound < 2 ^ 64)
    {n : ℕ} (hodd : n % 2 = 1) (hthree : 3 ≤ n) : IsFirstPrime n upperBound (nextPrimeLoop isPrime upperBound n) := by
  unfold nextPrimeLoop
  split
  next hle =>
    have hlt : n < 2 ^ 64 := Nat.lt_of_le_of_lt hle hupper
    split
    next hfound =>
      refine Or.inl ⟨⟨(hprime n hlt).mp hfound, le_rfl, hle⟩, ?_⟩
      rintro q ⟨-, hge, -⟩
      exact hge
    next hnot =>
      have hn : ¬n.Prime := fun h => hnot ((hprime n hlt).mpr h)
      rw [Cmath.addOverflow_eq hlt (by decide)]
      rcases Nat.lt_or_ge (n + 2) (2 ^ 64) with hfits | hlast
      · have hnext : Cmath.overflowCast 64 (n + 2) = ⟨n + 2, false⟩ := by
          rw [Cmath.overflowCast, Nat.mod_eq_of_lt hfits, decide_eq_false (Nat.not_le.mpr hfits)]
        simp only [hnext, Bool.false_eq_true, dite_false]
        exact IsFirstPrime.of_add_two
          (nextPrimeLoop_spec hprime hupper (by omega) (by omega)) hodd hthree hn
      · -- no number of the type is left
        have hnext : (Cmath.overflowCast 64 (n + 2)).overflow = true := decide_eq_true hlast
        simp only [hnext, dite_true]
        refine IsFirstPrime.of_add_two (Or.inr ⟨rfl, fun q _ hge => ?_⟩) hodd hthree hn
        omega
  next hmore =>
    exact Or.inr ⟨rfl, fun q _ hge => by omega⟩
termination_by upperBound + 1 - n

/-- **The search returns the least prime between its bounds**, or zero if there is none. -/
theorem nextPrime_spec (hprime : ∀ q < 2 ^ 64, isPrime q = true ↔ q.Prime) (hupper : upperBound < 2 ^ 64) :
    IsFirstPrime n upperBound (nextPrime isPrime n upperBound) := by
  unfold nextPrime
  split
  next hnone =>
    refine Or.inr ⟨rfl, fun q hq hge => ?_⟩
    have := hq.two_le
    omega
  next hsome =>
    split
    next hle =>
      refine Or.inl ⟨⟨Nat.prime_two, hle, by omega⟩, ?_⟩
      rintro q ⟨hq, -, -⟩
      exact hq.two_le
    next hmore =>
      have hhalf : (n ||| 1) / 2 = n / 2 := by simp [Nat.or_div_two]
      have hodd : (n ||| 1) % 2 = 1 := Nat.or_mod_two_eq_one.mpr (Or.inr rfl)
      have hloop := nextPrimeLoop_spec hprime hupper hodd (by omega)
      -- an even number above two is not prime
      have hskip : ∀ q, q.Prime → n ≤ q → (n ||| 1) ≤ q := by
        intro q hq hge
        rcases hq.eq_two_or_odd with rfl | hqodd
        · omega
        · omega
      rcases hloop with ⟨⟨hp, hge, hle⟩, hleast⟩ | ⟨hzero, hnot⟩
      · refine Or.inl ⟨⟨hp, by omega, hle⟩, ?_⟩
        rintro q ⟨hq, hqge, hqle⟩
        exact hleast ⟨hq, hskip q hq hqge, hqle⟩
      · exact Or.inr ⟨hzero, fun q hq hqge => hnot q hq (hskip q hq hqge)⟩

end

/-! ## 3. Arithmetic -/

theorem ceilDiv_le_iff (onDevice : Bool) {a b k : ℕ} (ha : 0 < a) (hb : 0 < b) :
    ceilDiv onDevice a b ≤ k ↔ a ≤ k * b := by
  have hdivide := Nat.div_add_mod a b
  have hrest := Nat.mod_lt a hb
  unfold ceilDiv
  split
  · have hle : 1 + (a - 1) / b ≤ a := by
      have := Nat.div_le_self (a - 1) b
      omega
    rw [Nat.min_eq_right hle, Nat.add_comm, Nat.succ_le_iff, Nat.div_lt_iff_lt_mul hb]
    omega
  · rw [Nat.mul_comm] at hdivide
    by_cases hexact : a / b * b = a
    · have hsame : a ≤ k * b ↔ a / b * b ≤ k * b := by rw [hexact]
      rw [hsame, Nat.mul_le_mul_right_iff hb]
      simp [hexact]
    · simp only [ne_eq, hexact, not_false_eq_true, decide_true, Bool.toNat_true]
      constructor
      · intro h
        have := Nat.mul_le_mul_right b h
        rw [Nat.add_mul, Nat.one_mul] at this
        omega
      · intro h
        by_contra hless
        have := Nat.mul_le_mul_right b (show k ≤ a / b by omega)
        omega

/-- **The product is checked**, whether or not there is a wider type. -/
theorem mulOverflow_eq (target : Target) {m : DataModel} {T : IntegerType} (hbits : T.bits m ≤ 64)
    {lhs rhs : ℕ} (hlhs : lhs < 2 ^ 64) (hrhs : rhs < 2 ^ 64) :
    mulOverflow target m T lhs rhs = exactResult m T (lhs * rhs : ℕ) := by
  have hproduct : lhs * rhs < 2 ^ 128 := by
    calc lhs * rhs < 2 ^ 64 * 2 ^ 64 := Nat.mul_lt_mul'' hlhs hrhs
      _ = 2 ^ 128 := by decide
  unfold mulOverflow
  split
  · rfl
  split
  · rw [Nat.mod_eq_of_lt hproduct]
    exact Numeric.overflowCast_eq (IntegerType.has_natCast_iff.mpr hproduct)
  · have hsize : Wrapped.sizeType.Has m ((lhs * rhs % 2 ^ 64 : ℕ) : ℤ) :=
      IntegerType.has_natCast_iff.mpr (Nat.mod_lt _ (by decide))
    have hcast : ((lhs * rhs % 2 ^ 64 : ℕ) : ℤ) = Wrapped.sizeType.staticCast m (lhs * rhs : ℕ) := by
      rw [Int.natCast_emod]
      rfl
    have hvalue : T.staticCast m ((lhs * rhs % 2 ^ 64 : ℕ) : ℤ) = T.staticCast m (lhs * rhs : ℕ) := by
      rw [hcast]
      exact IntegerType.staticCast_staticCast hbits _
    rw [Numeric.overflowCast_eq hsize, mulHi_eq false (by decide) hlhs hrhs]
    simp only [exactResult, hvalue, Numeric.OverflowResult.mk.injEq, true_and]
    rcases Nat.lt_or_ge (lhs * rhs) (2 ^ 64) with hless | hmore
    · rw [Nat.mod_eq_of_lt hless, Nat.div_eq_of_lt hless]
      simp
    · have hmax : ¬T.Has m (lhs * rhs : ℕ) := by
        intro h
        have hlt := IntegerType.has_natCast_iff.mp h
        have hpow : 2 ^ T.digits m ≤ 2 ^ 64 :=
          Nat.pow_le_pow_right (by decide) (IntegerType.digits_le.trans hbits)
        omega
      have hhigh : lhs * rhs / 2 ^ 64 ≠ 0 := (Nat.div_pos hmore (by decide)).ne'
      rw [decide_eq_false hmax, decide_eq_true hhigh, Bool.or_true, Bool.not_false]

theorem GroupShape.stride_eq (shape : GroupShape) : shape.stride = shape.cgSize * shape.bucketSize := by
  refine Nat.mod_eq_of_lt ?_
  calc shape.cgSize * shape.bucketSize < 2 ^ 31 * 2 ^ 31 := Nat.mul_lt_mul'' shape.cgSize_lt shape.bucketSize_lt
    _ < 2 ^ 64 := by decide

theorem GroupShape.stride_pos (shape : GroupShape) : 0 < shape.stride := by
  rw [shape.stride_eq]
  exact Nat.mul_pos shape.cgSize_pos shape.bucketSize_pos

theorem GroupShape.stride_lt (shape : GroupShape) : shape.stride < 2 ^ 64 := Nat.mod_lt _ (by decide)

/-! ## 4. Valid capacities -/

section

variable {K : Type*} (target : Target) (isPrime : ℕ → Bool) (m : DataModel) (T : IntegerType)
  (scheme : ProbingScheme K) (shape : GroupShape)

/-- How many strides a valid capacity has. -/
def ProbingScheme.IsGood (cycles : ℕ) : Prop :=
  0 < cycles ∧ (scheme.isDoubleHashing = true → cycles.Prime)

/-- The valid capacities of a type that are not below a bound. -/
def capacities (bound : ℤ) : Set ℕ :=
  {c | scheme.IsValidCapacity shape.stride c ∧ T.Has m c ∧ bound ≤ c}

/-- What a request counts as: for linear probing, a request for zero is adjusted to more than a stride. -/
def asked (requested : ℤ) : ℤ :=
  if scheme.isDoubleHashing = false ∧ requested = 0 then shape.stride + 1 else requested

/-- The least of the capacities, or an error if there are none. -/
def IsLeastOrThrows (s : Set ℕ) : Except String ℤ → Prop
  | .ok v => ∃ c : ℕ, v = c ∧ IsLeast s c
  | .error message => message = "Invalid input capacity" ∧ s = ∅

variable {m T scheme shape}

theorem isValidCapacity_mul {cycles : ℕ} :
    scheme.IsValidCapacity shape.stride (cycles * shape.stride) ↔ scheme.IsGood cycles := by
  have hpos := shape.stride_pos
  unfold ProbingScheme.IsValidCapacity ProbingScheme.IsGood
  rw [Nat.mul_div_cancel _ hpos, Nat.mul_pos_iff_of_pos_right hpos]
  cases scheme with
  | linearProbing hash => simp [ProbingScheme.isDoubleHashing]
  | doubleHashing hash1 hash2 => simp [ProbingScheme.isDoubleHashing]

/-- **The valid capacities** are the multiples of the good numbers between two bounds. -/
theorem capacities_eq {bound : ℤ} {cycles : ℕ}
    (hbound : ∀ k, 0 < k → (cycles ≤ k ↔ bound ≤ (k * shape.stride : ℕ))) :
    capacities m T scheme shape bound =
      (· * shape.stride) '' {k | scheme.IsGood k ∧ cycles ≤ k ∧ k ≤ T.max m / shape.stride} := by
  have hpos := shape.stride_pos
  have hmax : ∀ {k}, T.Has m (k * shape.stride : ℕ) ↔ k ≤ T.max m / shape.stride := by
    intro k
    rw [Nat.le_div_iff_mul_le hpos]
    exact ⟨fun h => by exact_mod_cast h.2, fun h => IntegerType.has_of_le h⟩
  ext c
  constructor
  · rintro ⟨hvalid, hhas, hle⟩
    obtain ⟨k, rfl⟩ : ∃ k, c = k * shape.stride := by
      obtain ⟨k, rfl⟩ := hvalid.2.1
      exact ⟨k, Nat.mul_comm _ _⟩
    have hgood := isValidCapacity_mul.mp hvalid
    exact ⟨k, ⟨hgood, (hbound k hgood.1).mpr hle, hmax.mp hhas⟩, rfl⟩
  · rintro ⟨k, ⟨hgood, hge, hle⟩, rfl⟩
    exact ⟨isValidCapacity_mul.mpr hgood, hmax.mpr hle, (hbound k hgood.1).mp hge⟩

/-- The product is returned, or the error if the type does not have it. -/
theorem isLeastOrThrows_mul {bound : ℤ} {cycles k : ℕ}
    (hbound : ∀ k, 0 < k → (cycles ≤ k ↔ bound ≤ (k * shape.stride : ℕ)))
    (hgood : scheme.IsGood k) (hge : cycles ≤ k) (hleast : ∀ q, scheme.IsGood q → cycles ≤ q →
      q ≤ T.max m / shape.stride → k ≤ q) :
    IsLeastOrThrows (capacities m T scheme shape bound)
      (if (exactResult m T (k * shape.stride : ℕ)).overflow then .error "Invalid input capacity"
        else .ok (exactResult m T (k * shape.stride : ℕ)).value) := by
  have hpos := shape.stride_pos
  rw [capacities_eq hbound]
  by_cases hfits : T.Has m (k * shape.stride : ℕ)
  · have hle : k ≤ T.max m / shape.stride := by
      rw [Nat.le_div_iff_mul_le hpos]
      exact_mod_cast hfits.2
    simp only [exactResult, decide_eq_true hfits, Bool.not_true, Bool.false_eq_true, if_false]
    refine ⟨k * shape.stride, IntegerType.staticCast_of_has hfits, ?_⟩
    refine Monotone.map_isLeast (fun a b hab => Nat.mul_le_mul_right _ hab) ⟨⟨hgood, hge, hle⟩, ?_⟩
    rintro q ⟨hq, hqge, hqle⟩
    exact hleast q hq hqge hqle
  · simp only [exactResult, decide_eq_false hfits, Bool.not_false, if_true]
    refine ⟨rfl, Set.image_eq_empty.mpr (Set.eq_empty_of_forall_notMem ?_)⟩
    rintro q ⟨hq, hqge, hqle⟩
    have hkq := hleast q hq hqge hqle
    rw [Nat.le_div_iff_mul_le hpos] at hqle
    exact hfits (IntegerType.has_of_le ((Nat.mul_le_mul_right _ hkq).trans hqle))

/-! ## 5. The result -/

variable {target isPrime} {requested : ℤ}

/-- A request is at least one, and no number of 64 bits is too small for it. -/
theorem normalized_eq (hbits : T.bits m ≤ 64) (hrequested : T.Has m requested) :
    Wrapped.sizeType.staticCast m (max requested 1) = max requested 1 ∧ max requested 1 < 2 ^ 64 := by
  have hlt : max requested 1 < 2 ^ 64 := by
    have hpow : (2 : ℤ) ^ T.digits m ≤ 2 ^ 64 :=
      pow_le_pow_right₀ (by decide) (IntegerType.digits_le.trans hbits)
    exact max_lt (hrequested.lt.trans_le hpow) (by decide)
  refine ⟨IntegerType.staticCast_of_has ?_, hlt⟩
  obtain ⟨v, hv⟩ := Int.eq_ofNat_of_zero_le (show 0 ≤ max requested 1 by omega)
  rw [hv] at hlt ⊢
  exact IntegerType.has_natCast_iff.mpr (by exact_mod_cast hlt)

theorem cycles_le_iff (hbits : T.bits m ≤ 64) (hrequested : T.Has m requested) {k : ℕ} :
    ceilDiv target.onDevice (Wrapped.sizeType.staticCast m (max requested 1)).toNat shape.stride ≤ k ↔
      max requested 1 ≤ (k * shape.stride : ℕ) := by
  rw [(normalized_eq hbits hrequested).1, ceilDiv_le_iff _ (by omega) shape.stride_pos]
  omega

theorem cycles_le_iff_of_pos (hbits : T.bits m ≤ 64) (hrequested : T.Has m requested) {k : ℕ} (hk : 0 < k) :
    ceilDiv target.onDevice (Wrapped.sizeType.staticCast m (max requested 1)).toNat shape.stride ≤ k ↔
      requested ≤ (k * shape.stride : ℕ) := by
  have hproduct := Nat.mul_pos hk shape.stride_pos
  rw [cycles_le_iff hbits hrequested]
  omega

theorem max_lt_size (hbits : T.bits m ≤ 64) : T.max m < 2 ^ 64 := by
  have hpow : 2 ^ T.digits m ≤ 2 ^ 64 :=
    Nat.pow_le_pow_right (by decide) (IntegerType.digits_le.trans hbits)
  have hpos := Nat.two_pow_pos (T.digits m)
  rw [IntegerType.max]
  omega

theorem makeValidCapacity_doubleHashing (hprime : ∀ q < 2 ^ 64, isPrime q = true ↔ q.Prime)
    (hbits : T.bits m ≤ 64) (hrequested : T.Has m requested) (hdouble : scheme.isDoubleHashing = true) :
    IsLeastOrThrows (capacities m T scheme shape requested)
      (makeValidCapacity target isPrime m T scheme shape requested) := by
  have hmax := max_lt_size (m := m) (T := T) hbits
  have hupper : T.max m / shape.stride < 2 ^ 64 := (Nat.div_le_self _ _).trans_lt hmax
  have hgood : ∀ {q}, scheme.IsGood q ↔ q.Prime := by
    intro q
    exact ⟨fun h => h.2 hdouble, fun h => ⟨h.pos, fun _ => h⟩⟩
  unfold makeValidCapacity
  simp only [hdouble, if_true]
  obtain ⟨cycles, hcycles⟩ :
      ∃ k, ceilDiv target.onDevice (Wrapped.sizeType.staticCast m (max requested 1)).toNat shape.stride = k :=
    ⟨_, rfl⟩
  have hbound : ∀ k, 0 < k → (cycles ≤ k ↔ requested ≤ (k * shape.stride : ℕ)) := by
    intro k hk
    rw [← hcycles]
    exact cycles_le_iff_of_pos hbits hrequested hk
  rw [hcycles]
  have hsearch := nextPrime_spec (n := cycles) hprime hupper
  generalize nextPrime isPrime cycles _ = prime at hsearch ⊢
  rcases hsearch with ⟨⟨hp, hge, hle⟩, hleast⟩ | ⟨rfl, hnone⟩
  · rw [mulOverflow_eq target hbits (hle.trans_lt hupper) shape.stride_lt]
    simp only [hp.ne_zero, false_or]
    exact isLeastOrThrows_mul hbound (hgood.mpr hp) hge
      (fun q hq hqge hqle => hleast ⟨hgood.mp hq, hqge, hqle⟩)
  · simp only [true_or, if_true]
    rw [capacities_eq hbound]
    refine ⟨rfl, Set.image_eq_empty.mpr (Set.eq_empty_of_forall_notMem ?_)⟩
    rintro q ⟨hq, hqge, hqle⟩
    exact absurd hqle (Nat.not_le.mpr (hnone q (hgood.mp hq) hqge))

/-- For linear probing every number of strides is good, but a request for zero is adjusted. -/
theorem makeValidCapacity_linearProbing (hbits : T.bits m ≤ 64) (hrequested : T.Has m requested)
    (hlinear : scheme.isDoubleHashing = false) :
    IsLeastOrThrows (capacities m T scheme shape (asked scheme shape requested))
      (makeValidCapacity target isPrime m T scheme shape requested) := by
  have hpos := shape.stride_pos
  obtain ⟨cycles, hcycles⟩ :
      ∃ k, ceilDiv target.onDevice (Wrapped.sizeType.staticCast m (max requested 1)).toNat shape.stride = k :=
    ⟨_, rfl⟩
  have hle : ∀ {k}, cycles ≤ k ↔ max requested 1 ≤ (k * shape.stride : ℕ) := by
    intro k
    rw [← hcycles]
    exact cycles_le_iff hbits hrequested
  have hfirst : 0 < cycles := by
    by_contra hzero
    have := hle.mp (Nat.not_lt.mp hzero)
    omega
  have hlt : cycles < 2 ^ 64 := by
    have hself : cycles ≤ (max requested 1).toNat := by
      have := Nat.le_mul_of_pos_right (max requested 1).toNat hpos
      exact hle.mpr (by omega)
    have := (normalized_eq hbits hrequested).2
    omega
  have hgood : ∀ {q}, scheme.IsGood q ↔ 0 < q := by
    intro q
    exact ⟨fun h => h.1, fun h => ⟨h, fun hdouble => by rw [hlinear] at hdouble; cases hdouble⟩⟩
  -- the number of buckets is the least that is enough for what the request counts as
  obtain ⟨numBuckets, hnum⟩ : ∃ k, (cycles + (decide (requested = 0)).toNat) % 2 ^ 64 = k := ⟨_, rfl⟩
  have hvalue : numBuckets = if requested = 0 then 2 else cycles := by
    rw [← hnum]
    split
    next hzero =>
      have hone : cycles ≤ 1 := hle.mpr (by omega)
      rw [decide_eq_true hzero, show cycles = 1 by omega]
      rfl
    next hzero =>
      rw [decide_eq_false hzero, Bool.toNat_false, Nat.add_zero, Nat.mod_eq_of_lt hlt]
  have hpositive : 0 < numBuckets := by
    rw [hvalue]
    split <;> omega
  have hbound : ∀ k, 0 < k → (numBuckets ≤ k ↔ asked scheme shape requested ≤ (k * shape.stride : ℕ)) := by
    intro k hk
    have hproduct := Nat.mul_pos hk hpos
    rw [hvalue, asked]
    by_cases hzero : requested = 0
    · simp only [hzero, hlinear, and_self, if_true]
      constructor
      · intro h
        have := Nat.mul_le_mul_right shape.stride h
        omega
      · intro h
        by_contra hless
        have := Nat.mul_le_mul_right shape.stride (show k ≤ 1 by omega)
        omega
    · simp only [hzero, and_false, if_false]
      rw [hle]
      omega
  unfold makeValidCapacity
  simp only [hlinear, Bool.false_eq_true, if_false, hcycles, hnum]
  rw [mulOverflow_eq target hbits (hnum ▸ Nat.mod_lt _ (by decide)) shape.stride_lt]
  exact isLeastOrThrows_mul hbound (hgood.mpr hpositive) le_rfl (fun q _ hge _ => hge)

/-- **The least valid capacity is returned**, if the type has one. -/
theorem makeValidCapacity_spec (hprime : ∀ q < 2 ^ 64, isPrime q = true ↔ q.Prime)
    (hbits : T.bits m ≤ 64) (hrequested : T.Has m requested) :
    IsLeastOrThrows (capacities m T scheme shape (asked scheme shape requested))
      (makeValidCapacity target isPrime m T scheme shape requested) := by
  cases hdouble : scheme.isDoubleHashing with
  | true =>
    have hasked : asked scheme shape requested = requested := by simp [asked, hdouble]
    rw [hasked]
    exact makeValidCapacity_doubleHashing hprime hbits hrequested hdouble
  | false => exact makeValidCapacity_linearProbing hbits hrequested hdouble

/-- A capacity that was returned is valid, and it is returned again. -/
theorem makeValidCapacity_idempotent (hprime : ∀ q < 2 ^ 64, isPrime q = true ↔ q.Prime)
    (hbits : T.bits m ≤ 64) (hrequested : T.Has m requested) {capacity : ℤ}
    (hok : makeValidCapacity target isPrime m T scheme shape requested = .ok capacity) :
    makeValidCapacity target isPrime m T scheme shape capacity = .ok capacity := by
  have hspec := @makeValidCapacity_spec _ target _ _ _ scheme shape _
    hprime hbits hrequested
  rw [hok] at hspec
  obtain ⟨c, rfl, ⟨hvalid, hhas, -⟩, -⟩ := hspec
  have hasked : asked scheme shape c = c := by
    have hne : (c : ℤ) ≠ 0 := by exact_mod_cast hvalid.1.ne'
    rw [asked, if_neg (fun h => hne h.2)]
  have hagain := @makeValidCapacity_spec _ target _ _ _ scheme shape _
    hprime hbits hhas
  rw [hasked] at hagain
  have hmem : c ∈ capacities m T scheme shape c := ⟨hvalid, hhas, le_rfl⟩
  revert hagain
  cases makeValidCapacity target isPrime m T scheme shape c with
  | error message =>
    rintro ⟨-, hempty⟩
    rw [hempty] at hmem
    exact hmem.elim
  | ok v =>
    rintro ⟨c', rfl, ⟨-, -, hge⟩, hleast⟩
    have hle := hleast hmem
    congr 1
    omega

/-- `is_valid_capacity` says which positive numbers of the type are valid. -/
theorem isValidCapacity_eq (hprime : ∀ q < 2 ^ 64, isPrime q = true ↔ q.Prime) (hbits : T.bits m ≤ 64)
    {c : ℕ} (hpos : 0 < c) (hhas : T.Has m c) :
    isValidCapacity target isPrime m T scheme shape c = .ok true ↔
      scheme.IsValidCapacity shape.stride c := by
  have hasked : asked scheme shape c = c := by
    have hne : (c : ℤ) ≠ 0 := by exact_mod_cast hpos.ne'
    rw [asked, if_neg (fun h => hne h.2)]
  have hspec := @makeValidCapacity_spec _ target _ _ _ scheme shape _
    hprime hbits hhas
  rw [hasked] at hspec
  unfold isValidCapacity
  revert hspec
  cases makeValidCapacity target isPrime m T scheme shape c with
  | error message =>
    rintro ⟨-, hempty⟩
    have hnot : ¬scheme.IsValidCapacity shape.stride c := by
      intro hvalid
      have hmem : c ∈ capacities m T scheme shape c := ⟨hvalid, hhas, le_rfl⟩
      rw [hempty] at hmem
      exact hmem
    exact ⟨fun h => (by cases h), fun h => absurd h hnot⟩
  | ok v =>
    rintro ⟨c', rfl, ⟨hvalid, -, hge⟩, hleast⟩
    have hiff : (c' : ℤ) = c ↔ scheme.IsValidCapacity shape.stride c := by
      constructor
      · intro h
        rwa [← show c' = c by exact_mod_cast h]
      · intro h
        have hle := hleast ⟨h, hhas, le_rfl⟩
        omega
    rw [← hiff]
    simp [Except.map]

/-- **A valid capacity.**  For every scheme, shape and integer type, and every request, the least valid
capacity is returned that the type has and that is not below what the request counts as; there is an error
when there is none; and a result is returned again. -/
theorem makeValidCapacity_least (target : Target) (isPrime : ℕ → Bool)
    (hprime : ∀ q < 2 ^ 64, isPrime q = true ↔ q.Prime) (m : DataModel) (T : IntegerType)
    (hbits : T.bits m ≤ 64) (scheme : ProbingScheme K) (shape : GroupShape) (requested : ℤ)
    (hrequested : T.Has m requested) :
    IsLeastOrThrows (capacities m T scheme shape (asked scheme shape requested))
        (makeValidCapacity target isPrime m T scheme shape requested) ∧
      ∀ capacity, makeValidCapacity target isPrime m T scheme shape requested = .ok capacity →
        makeValidCapacity target isPrime m T scheme shape capacity = .ok capacity :=
  ⟨makeValidCapacity_spec hprime hbits hrequested,
    fun _ hok => makeValidCapacity_idempotent hprime hbits hrequested hok⟩

end

/-- A host with types of 128 bits and a compiler that multiplies with a check. -/
def host : Target := ⟨true, true, false⟩

/-- Two lanes with buckets of one slot. -/
def twoLanes : GroupShape := ⟨2, 1, Nat.two_pos, Nat.one_pos, by decide, by decide⟩

/-- With a second hash a request for five slots is one for three strides, and three is prime. -/
theorem makeValidCapacity_least_five :
    IsLeastOrThrows (capacities .lp64 ⟨.int, true⟩ (.doubleHashing (fun k : ℤ => k) id) twoLanes
        (asked (.doubleHashing (fun k : ℤ => k) id) twoLanes 5))
        (makeValidCapacity host (fun q => decide q.Prime) .lp64 ⟨.int, true⟩
          (.doubleHashing (fun k : ℤ => k) id) twoLanes 5) ∧
      ∀ capacity, makeValidCapacity host (fun q => decide q.Prime) .lp64 ⟨.int, true⟩
          (.doubleHashing (fun k : ℤ => k) id) twoLanes 5 = .ok capacity →
        makeValidCapacity host (fun q => decide q.Prime) .lp64 ⟨.int, true⟩
          (.doubleHashing (fun k : ℤ => k) id) twoLanes capacity = .ok capacity :=
  makeValidCapacity_least host _ (fun _ _ => decide_eq_true_iff) .lp64 ⟨.int, true⟩ (by decide) _ twoLanes 5
    (by decide)

/-- For linear probing a request for zero gives two strides, and one is valid. -/
theorem not_makeValidCapacity_least_zero :
    ¬IsLeastOrThrows (capacities .lp64 ⟨.int, true⟩ (.linearProbing (fun k : ℤ => k)) twoLanes 0)
      (makeValidCapacity host (fun q => decide q.Prime) .lp64 ⟨.int, true⟩
        (.linearProbing (fun k : ℤ => k)) twoLanes 0) := by
  have hfour : makeValidCapacity host (fun q => decide q.Prime) .lp64 ⟨.int, true⟩
      (.linearProbing (fun k : ℤ => k)) twoLanes 0 = .ok 4 := by decide
  rw [hfour]
  rintro ⟨c, hc, -, hleast⟩
  have hmem : 2 ∈ capacities .lp64 ⟨.int, true⟩ (.linearProbing (fun k : ℤ => k)) twoLanes 0 :=
    ⟨⟨by decide, by decide, trivial⟩, by decide, by decide⟩
  have hle := hleast hmem
  omega

end Cccl.Cuco
