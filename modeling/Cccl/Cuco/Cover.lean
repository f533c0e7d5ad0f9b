/-
# What a probing iterator visits

`make_iterator` and `operator++` in the numbers of an index type, with hashes of any integer type or of two
words.  What is computed is what `Probing` says of natural numbers: a hash is reduced by its magnitude
(`toIndex_eq`), the beginning and the step fit as they are below the capacity, and the increment subtracts before
it adds (`next_is`).  So nothing is cut, and the iterator of a group visits each slot once before it is back at
its beginning (`makeIterator_covers`).

The iterator without a group goes by single buckets.  With two hashes their number is prime only if a group has
one lane; otherwise there are steps that leave buckets out.  The containers do not compile such a use.
-/
import Cccl.Cuco.Capacity

namespace Cccl.Cuco

open IntegerTypes

/-! ## 1. The source -/

/-- A hash: a number of an integer type, or an array of two words. -/
inductive HashValue (m : DataModel) where
  | integer (H : IntegerType) (value : ℤ) (has : H.Has m value)
  | words (low high : ℕ) (low_lt : low < 2 ^ 64)

/-- `uabs` of a hash, or of its low word. -/
def HashValue.uabs {m : DataModel} : HashValue m → ℤ
  | integer H value _ => Cmath.uabs m H value
  | words low _ _ => Cmath.uabs m Wrapped.sizeType low

/-- `linear_probing` and `double_hashing`, with the hashes of their hash functions. -/
inductive TypedScheme (m : DataModel) (K : Type*) where
  | linearProbing (hash : K → HashValue m)
  | doubleHashing (hash1 hash2 : K → HashValue m)

section

variable {m : DataModel} {K : Type*}

/-- The magnitude of a hash in the width of the index type. -/
def HashValue.magnitude (T : IntegerType) (hash : HashValue m) : ℕ := hash.uabs.natAbs % 2 ^ T.bits m

/-- The scheme with its hashes in the width of the index type. -/
def TypedScheme.toScheme (T : IntegerType) : TypedScheme m K → ProbingScheme K
  | linearProbing hash => .linearProbing fun key => (hash key).magnitude T
  | doubleHashing hash1 hash2 =>
    .doubleHashing (fun key => (hash1 key).magnitude T) (fun key => (hash2 key).magnitude T)

/-- `__hash_to_index`. -/
def HashValue.toIndex (T : IntegerType) (hash : HashValue m) (modulus : ℤ) : ℤ :=
  T.staticCast m (T.makeUnsigned.staticCast m hash.uabs % T.makeUnsigned.staticCast m modulus)

/-- `class __probing_iterator`. -/
structure TypedIterator where
  currIndex : ℤ
  step : ℤ
  capacity : ℤ
  deriving DecidableEq

/-- `__probing_iterator::operator++`. -/
def TypedIterator.next (m : DataModel) (T : IntegerType) (it : TypedIterator) : Wrapped TypedIterator := do
  let remaining ← Wrapped.cut m T (it.capacity - it.currIndex)
  let currIndex ←
    if remaining ≤ it.step then Wrapped.cut m T (it.step - remaining)
    else Wrapped.cut m T (it.currIndex + it.step)
  return { it with currIndex }

/-- `__step` of the two forms of `make_iterator`: a bucket without a group, and else the stride. -/
def stepUnit (m : DataModel) (T : IntegerType) (shape : GroupShape) (grouped : Bool) : Wrapped ℤ :=
  if grouped then Wrapped.cut m T (shape.cgSize * shape.bucketSize) else Wrapped.cut m T shape.bucketSize

variable (T : IntegerType) (scheme : TypedScheme m K) (shape : GroupShape)

/-- The hash that says where to begin. -/
def TypedScheme.firstHash (key : K) : HashValue m :=
  match scheme with
  | linearProbing hash => hash key
  | doubleHashing hash1 _ => hash1 key

/-- `__init`, for the thread with the given rank of a group. -/
def initOf (m : DataModel) (base : ℤ) : Option ℕ → Wrapped ℤ
  | none => pure base
  | some rank => do
    let lane ← Wrapped.cut m T (rank * shape.bucketSize)
    Wrapped.cut m T (base + lane)

/-- The step: by a second hash that is less than the number of windows without one. -/
def TypedScheme.stepOf (num unit : ℤ) (key : K) : Wrapped ℤ :=
  match scheme with
  | linearProbing _ => pure unit
  | doubleHashing _ hash2 => do
    let modulus ← Wrapped.cut m T (num - 1)
    let windows ← Wrapped.cut m T ((hash2 key).toIndex T modulus + 1)
    Wrapped.cut m T (windows * unit)

/-- `make_iterator`, without a group or for the thread with the given rank of a group. -/
def TypedScheme.makeIterator (capacity : ℤ) (group : Option ℕ) (key : K) : Wrapped TypedIterator := do
  let unit ← stepUnit m T shape group.isSome
  let num ← Wrapped.cut m T (capacity / unit)
  let base ← Wrapped.cut m T ((scheme.firstHash key).toIndex T num * unit)
  let init ← initOf T shape m base group
  let step ← scheme.stepOf T num unit key
  return ⟨init, step, capacity⟩

/-- The iterator after the given number of increments. -/
def TypedScheme.iteratorAt (capacity : ℤ) (group : Option ℕ) (key : K) : ℕ → Wrapped TypedIterator
  | 0 => scheme.makeIterator T shape capacity group key
  | j + 1 => do
    let it ← iteratorAt capacity group key j
    it.next m T

/-- The threads that iterate together: one without a group. -/
def GroupShape.lanes (shape : GroupShape) (grouped : Bool) : ℕ := if grouped then shape.cgSize else 1

/-- `*it` of a lane after the given number of increments. -/
def TypedScheme.indexAt (capacity : ℤ) (grouped : Bool) (key : K) (rank j : ℕ) : Wrapped ℤ := do
  let it ← scheme.iteratorAt T shape capacity (if grouped then some rank else none) key j
  return it.currIndex

/-- The iterators of the lanes visit each slot once before they are back at their beginnings. -/
structure TypedScheme.Covers (capacity : ℕ) (grouped : Bool) (key : K) : Prop where
  kept : ∀ rank < shape.lanes grouped, ∀ j, (scheme.indexAt T shape capacity grouped key rank j).kept = true
  in_range : ∀ rank < shape.lanes grouped, ∀ j, 0 ≤ (scheme.indexAt T shape capacity grouped key rank j).value ∧
    (scheme.indexAt T shape capacity grouped key rank j).value + shape.bucketSize ≤ capacity
  visits : ∃ period, 0 < period ∧
    (∀ rank < shape.lanes grouped,
      (scheme.indexAt T shape capacity grouped key rank period).value =
          (scheme.indexAt T shape capacity grouped key rank 0).value ∧
        ∀ j < period, ∀ j' < period,
          (scheme.indexAt T shape capacity grouped key rank j).value =
            (scheme.indexAt T shape capacity grouped key rank j').value → j = j') ∧
    ∀ slot < capacity, ∃! p : ℕ × ℕ × ℕ, p.1 < period ∧ p.2.1 < shape.lanes grouped ∧
      p.2.2 < shape.bucketSize ∧
        (scheme.indexAt T shape capacity grouped key p.2.1 p.1).value + p.2.2 = slot

end

/-! ## 2. The same in natural numbers -/

section

variable {m : DataModel} {K : Type*} {T : IntegerType}

theorem HashValue.uabs_nonneg (hash : HashValue m) : 0 ≤ hash.uabs := by
  cases hash with
  | integer H value has =>
    rw [uabs, Cmath.uabs_eq has]
    exact Int.natCast_nonneg _
  | words low high low_lt =>
    rw [uabs, Cmath.uabs_eq (IntegerType.has_natCast_iff.mpr low_lt)]
    exact Int.natCast_nonneg _

/-- **A hash is reduced by its magnitude.** -/
theorem HashValue.toIndex_eq (hash : HashValue m) {modulus : ℕ} (hpos : 0 < modulus)
    (hhas : T.Has m modulus) (hbits : T.bits m ≤ 64) :
    hash.toIndex T modulus = hashToIndex (hash.magnitude T) modulus := by
  have hunsigned : T.makeUnsigned.Has m modulus :=
    IntegerType.has_of_le (by exact_mod_cast hhas.natAbs_le)
  have hcast : T.makeUnsigned.staticCast m hash.uabs = hash.magnitude T := by
    have habs : ((hash.uabs.natAbs : ℕ) : ℤ) = hash.uabs := Int.natAbs_of_nonneg hash.uabs_nonneg
    rw [magnitude, Int.natCast_emod, habs, Nat.cast_pow]
    rfl
  have hlt : hash.magnitude T < 2 ^ 64 := by
    calc hash.magnitude T < 2 ^ T.bits m := Nat.mod_lt _ (Nat.two_pow_pos _)
      _ ≤ 2 ^ 64 := Nat.pow_le_pow_right (by decide) hbits
  have hindex : hashToIndex (hash.magnitude T) modulus = hash.magnitude T % modulus := by
    rw [hashToIndex, Int.natAbs_natCast, Nat.mod_eq_of_lt hlt]
  have hrest : hash.magnitude T % modulus < modulus := Nat.mod_lt _ hpos
  have hmax : modulus ≤ T.max m := by exact_mod_cast hhas.2
  rw [toIndex, hcast, IntegerType.staticCast_of_has hunsigned, hindex, ← Int.natCast_emod]
  exact IntegerType.staticCast_of_has (IntegerType.has_of_le (hrest.le.trans hmax))

/-- An iterator in the numbers of the index type. -/
def ProbingIterator.typed (it : ProbingIterator) : TypedIterator := ⟨it.currIndex, it.step, it.capacity⟩

/-- **The increment** subtracts before it adds, and cuts nothing. -/
theorem TypedIterator.next_is {it : ProbingIterator} (hmax : it.capacity ≤ T.max m)
    (hcurr : it.currIndex < it.capacity) (hstep : it.step ≤ it.capacity) :
    (it.typed.next m T).Is it.next.typed := by
  have hremaining : ((it.capacity : ℤ) - it.currIndex) = (it.capacity - it.currIndex : ℕ) := by omega
  unfold TypedIterator.next
  refine (Wrapped.is_cut_natCast hremaining (by omega)).bind ?_
  have hcond : ((it.capacity - it.currIndex : ℕ) : ℤ) ≤ it.step ↔ it.capacity - it.currIndex ≤ it.step :=
    Int.ofNat_le
  simp only [ProbingIterator.next, ProbingIterator.typed, hcond]
  split
  · have hdiff : ((it.step : ℤ) - (it.capacity - it.currIndex : ℕ)) =
        (it.step - (it.capacity - it.currIndex) : ℕ) := by omega
    exact (Wrapped.is_cut_natCast hdiff (by omega)).bind Wrapped.Is.pure
  · exact (Wrapped.is_cut_natCast (Int.natCast_add _ _).symm (by omega)).bind Wrapped.Is.pure

variable {scheme : TypedScheme m K} {shape : GroupShape} {P : Probing K}

/-- The windows begin below the capacity, and so do the buckets of their lanes. -/
theorem Probing.bucket_lt (P : Probing K) (key : K) {rank : ℕ} (hrank : rank < P.cgSize) :
    P.firstWindow key * P.stride + rank * P.bucketSize < P.capacity := by
  have hlane := P.lane_lt hrank P.bucketSize_pos
  rw [P.capacity_eq]
  calc _ < (P.firstWindow key + 1) * P.stride := by rw [Nat.succ_mul]; omega
    _ ≤ P.numGroups * P.stride := Nat.mul_le_mul_right _ (P.firstWindow_lt key)

theorem Probing.step_le (P : Probing K) (key : K) : P.windowStep key * P.stride ≤ P.capacity := by
  rw [P.capacity_eq]
  exact Nat.mul_le_mul_right _ (P.windowStep_spec key).1

theorem Probing.numGroups_le (P : Probing K) : P.numGroups ≤ P.capacity := Nat.div_le_self _ _

/-- **The iterator is made** from numbers that the index type has. -/
theorem TypedScheme.makeIterator_is (hscheme : P.scheme = scheme.toScheme T)
    (hbucket : P.bucketSize = shape.bucketSize) (hmax : P.capacity ≤ T.max m) (hbits : T.bits m ≤ 64)
    {group : Option ℕ} (hunit : (stepUnit m T shape group.isSome).Is P.stride)
    (hrank : group.getD 0 < P.cgSize) (key : K) :
    (scheme.makeIterator T shape P.capacity group key).Is (P.makeIterator key (group.getD 0)).typed := by
  have hnum := P.numGroups_le
  have hbase := P.bucket_lt key hrank
  have hstep := P.step_le key
  have hhas : T.Has m P.numGroups := IntegerType.has_of_le (by omega)
  have hindex : ∀ hash : HashValue m, hash.toIndex T P.numGroups = hashToIndex (hash.magnitude T) P.numGroups :=
    fun hash => hash.toIndex_eq P.numGroups_pos hhas hbits
  rw [P.makeIterator_eq]
  unfold TypedScheme.makeIterator
  refine hunit.bind ((Wrapped.is_cut_natCast (Int.natCast_ediv _ _).symm (hnum.trans hmax)).bind ?_)
  refine (Wrapped.is_cut_natCast (n := P.firstWindow key * P.stride) ?_ (by omega)).bind ?_
  · have hfirst : (scheme.firstHash key).toIndex T P.numGroups = P.firstWindow key := by
      unfold Probing.firstWindow firstHash
      rw [hscheme]
      cases scheme with
      | linearProbing hash => exact hindex _
      | doubleHashing hash1 hash2 => exact hindex _
    rw [Int.natCast_mul, ← hfirst]
    rfl
  refine Wrapped.Is.bind (a := ((P.firstWindow key * P.stride + group.getD 0 * P.bucketSize : ℕ) : ℤ)) ?_ ?_
  · cases group with
    | none => exact Wrapped.Is.pure_eq (by simp)
    | some rank =>
      change rank < P.cgSize at hrank
      change _ + rank * _ < _ at hbase
      refine (Wrapped.is_cut_natCast (n := rank * P.bucketSize) ?_ (by omega)).bind ?_
      · rw [hbucket, Int.natCast_mul]
      · exact Wrapped.is_cut_natCast (n := P.firstWindow key * P.stride + rank * P.bucketSize)
          (Int.natCast_add _ _).symm (by omega)
  refine Wrapped.Is.bind (a := ((P.windowStep key * P.stride : ℕ) : ℤ)) ?_ Wrapped.Is.pure
  have hwindows := (P.windowStep_spec key).1
  have hvalid := P.valid
  unfold ProbingScheme.IsValidCapacity at hvalid
  unfold Probing.windowStep at hwindows hstep ⊢
  rw [hscheme] at hwindows hstep hvalid ⊢
  cases scheme with
  | linearProbing hash => exact Wrapped.Is.pure_eq (by simp [toScheme])
  | doubleHashing hash1 hash2 =>
    have htwo : 2 ≤ P.numGroups := hvalid.2.2.two_le
    have hmodulus : ((P.numGroups : ℤ) - 1) = (P.numGroups - 1 : ℕ) := by omega
    have hsecond := @HashValue.toIndex_eq _ T (hash2 key) (P.numGroups - 1) (by omega)
      (IntegerType.has_of_le (by omega)) hbits
    simp only [toScheme] at hwindows hstep ⊢
    refine (Wrapped.is_cut_natCast hmodulus (by omega)).bind ?_
    rw [hsecond]
    refine (Wrapped.is_cut_natCast (Int.natCast_succ _).symm (by omega)).bind ?_
    exact Wrapped.is_cut_natCast (Int.natCast_mul _ _).symm (by omega)

theorem TypedScheme.iteratorAt_is (hscheme : P.scheme = scheme.toScheme T)
    (hbucket : P.bucketSize = shape.bucketSize) (hmax : P.capacity ≤ T.max m) (hbits : T.bits m ≤ 64)
    {group : Option ℕ} (hunit : (stepUnit m T shape group.isSome).Is P.stride)
    (hrank : group.getD 0 < P.cgSize) (key : K) : ∀ j,
    (scheme.iteratorAt T shape P.capacity group key j).Is
      (ProbingIterator.next^[j] (P.makeIterator key (group.getD 0))).typed
  | 0 => makeIterator_is hscheme hbucket hmax hbits hunit hrank key
  | j + 1 => by
    have hbefore := iteratorAt_is hscheme hbucket hmax hbits hunit hrank key j
    have hcurr := P.bucket_lt key hrank
    have hiter := ProbingIterator.iterate_next ⟨_, _, P.capacity⟩ hcurr (P.step_le key) j
    rw [P.makeIterator_eq] at hbefore ⊢
    rw [Function.iterate_succ_apply']
    rw [hiter] at hbefore ⊢
    exact hbefore.bind (TypedIterator.next_is hmax (Nat.mod_lt _ (Nat.zero_lt_of_lt hcurr)) (P.step_le key))

/-- The index is the one in natural numbers, and nothing was cut. -/
theorem TypedScheme.indexAt_is (hscheme : P.scheme = scheme.toScheme T)
    (hbucket : P.bucketSize = shape.bucketSize) (hmax : P.capacity ≤ T.max m) (hbits : T.bits m ≤ 64)
    {grouped : Bool} (hunit : (stepUnit m T shape grouped).Is P.stride)
    (hlanes : P.cgSize = shape.lanes grouped) (key : K) {rank : ℕ} (hrank : rank < P.cgSize) (j : ℕ) :
    (scheme.indexAt T shape P.capacity grouped key rank j).Is (P.iterAt key rank j : ℕ) := by
  unfold indexAt
  cases grouped with
  | true =>
    exact (@iteratorAt_is _ _ _ _ _ _ hscheme hbucket hmax hbits (some rank) hunit hrank key j).bind
      Wrapped.Is.pure
  | false =>
    obtain rfl : rank = 0 := by
      have hone : P.cgSize = 1 := hlanes
      omega
    exact (@iteratorAt_is _ _ _ _ _ _ hscheme hbucket hmax hbits none hunit hrank key j).bind
      Wrapped.Is.pure

/-- A position is a window, a lane and an offset into its bucket, in one way. -/
theorem Probing.position_injective (P : Probing K) {j rank i j' rank' i' : ℕ} (hrank : rank < P.cgSize)
    (hi : i < P.bucketSize) (hrank' : rank' < P.cgSize) (hi' : i' < P.bucketSize)
    (h : j * P.stride + rank * P.bucketSize + i = j' * P.stride + rank' * P.bucketSize + i') :
    j = j' ∧ rank = rank' ∧ i = i' := by
  have hlane := P.lane_lt hrank hi
  have hlane' := P.lane_lt hrank' hi'
  rw [Nat.add_assoc, Nat.add_assoc] at h
  have hdiv := congrArg (· / P.stride) h
  simp only [Nat.mul_comm _ P.stride, Nat.mul_add_div P.stride_pos, Nat.div_eq_of_lt hlane,
    Nat.div_eq_of_lt hlane', Nat.add_zero] at hdiv
  subst hdiv
  have hoffset : rank * P.bucketSize + i = rank' * P.bucketSize + i' := Nat.add_left_cancel h
  have hbucket := congrArg (· / P.bucketSize) hoffset
  simp only [Nat.mul_comm _ P.bucketSize, Nat.mul_add_div P.bucketSize_pos, Nat.div_eq_of_lt hi,
    Nat.div_eq_of_lt hi', Nat.add_zero] at hbucket
  subst hbucket
  exact ⟨rfl, rfl, Nat.add_left_cancel hoffset⟩

/-- **Each slot is in one bucket**, and that is visited once. -/
theorem Probing.existsUnique_visit (P : Probing K) (key : K) {slot : ℕ} (hslot : slot < P.capacity) :
    ∃! p : ℕ × ℕ × ℕ, p.1 < P.numGroups ∧ p.2.1 < P.cgSize ∧ p.2.2 < P.bucketSize ∧
      P.iterAt key p.2.1 p.1 + p.2.2 = slot := by
  obtain ⟨p, hp, rfl⟩ := P.exists_position key hslot
  obtain ⟨rank, hrank, i, hi, hoffset⟩ := P.exists_lane (Nat.mod_lt p P.stride_pos)
  have hposition : p / P.stride * P.stride + rank * P.bucketSize + i = p := by
    rw [Nat.add_assoc, ← hoffset, Nat.div_add_mod']
  have hvisit := P.slotAt_eq hrank hi key (p / P.stride)
  rw [hposition] at hvisit
  refine ⟨(p / P.stride, rank, i), ⟨P.window_lt hp, hrank, hi, hvisit⟩, ?_⟩
  rintro ⟨j', rank', i'⟩ ⟨hj', hrank', hi', hslot'⟩
  have hsame := (P.slotAt_eq hrank' hi' key j').symm.trans hslot'
  have hpositions := P.probe_injective key (P.position_lt hj' hrank' hi') hp hsame
  rw [← hposition] at hpositions
  obtain ⟨rfl, rfl, rfl⟩ := P.position_injective hrank' hi' hrank hi hpositions
  rfl

/-- **The iterators cover the table**, if the step is a stride of the scheme. -/
theorem TypedScheme.covers_of_probing (hscheme : P.scheme = scheme.toScheme T)
    (hbucket : P.bucketSize = shape.bucketSize) (hmax : P.capacity ≤ T.max m) (hbits : T.bits m ≤ 64)
    {grouped : Bool} (hunit : (stepUnit m T shape grouped).Is P.stride)
    (hlanes : P.cgSize = shape.lanes grouped) (key : K) :
    scheme.Covers T shape P.capacity grouped key := by
  have his : ∀ rank < P.cgSize, ∀ j,
      (scheme.indexAt T shape P.capacity grouped key rank j).Is (P.iterAt key rank j : ℕ) :=
    fun rank hrank j => indexAt_is hscheme hbucket hmax hbits hunit hlanes key hrank j
  refine ⟨fun rank hrank j => (his rank (hlanes ▸ hrank) j).2, ?_, P.numGroups, P.numGroups_pos, ?_, ?_⟩
  · intro rank hrank j
    rw [← hlanes] at hrank
    -- the last slot of a bucket is one of the table
    have hi : P.bucketSize - 1 < P.bucketSize := Nat.sub_lt P.bucketSize_pos Nat.one_pos
    have hlast := P.probe_lt key (j * P.stride + rank * P.bucketSize + (P.bucketSize - 1))
    rw [← P.slotAt_eq hrank hi, Probing.slotAt] at hlast
    rw [(his rank hrank j).1, ← hbucket]
    omega
  · intro rank hrank
    rw [← hlanes] at hrank
    constructor
    · rw [(his rank hrank _).1, (his rank hrank _).1]
      exact congrArg _ ((P.iterator_wraps hrank key P.numGroups_pos le_rfl).mpr rfl)
    · intro j hj j' hj' h
      rw [(his rank hrank _).1, (his rank hrank _).1, Nat.cast_inj, P.iterAt_eq hrank, P.iterAt_eq hrank,
        Nat.add_right_cancel_iff, Nat.mul_right_cancel_iff P.stride_pos, P.window_eq_iff] at h
      exact Nat.ModEq.eq_of_lt_of_lt h hj hj'
  · intro slot hslot
    obtain ⟨⟨j, rank, i⟩, ⟨hj, hrank, hi, hvisit⟩, hunique⟩ := P.existsUnique_visit key hslot
    refine ⟨(j, rank, i), ⟨hj, hlanes ▸ hrank, hbucket ▸ hi, ?_⟩, ?_⟩
    · simp only at hvisit ⊢
      rw [(his rank hrank j).1, ← hvisit, Nat.cast_add]
    · rintro ⟨j', rank', i'⟩ ⟨hj', hrank', hi', hvisit'⟩
      rw [← hlanes] at hrank'
      rw [← hbucket] at hi'
      simp only at hvisit' hrank' hi'
      rw [(his rank' hrank' j').1] at hvisit'
      exact hunique _ ⟨hj', hrank', hi', by exact_mod_cast hvisit'⟩

/-! ## 3. The capacities that are made -/

theorem GroupShape.lanes_pos (shape : GroupShape) (grouped : Bool) : 0 < shape.lanes grouped := by
  unfold lanes
  split
  · exact shape.cgSize_pos
  · exact Nat.one_pos

/-- A capacity for the stride is one for single buckets, if their number need not be prime. -/
theorem isValidCapacity_lanes {scheme : ProbingScheme K} {grouped : Bool} {c : ℕ}
    (hgrouped : grouped = true ∨ scheme.isDoubleHashing = false ∨ shape.cgSize = 1)
    (h : scheme.IsValidCapacity shape.stride c) :
    scheme.IsValidCapacity (shape.lanes grouped * shape.bucketSize) c := by
  rw [shape.stride_eq] at h
  unfold GroupShape.lanes
  split
  · exact h
  next hsingle =>
    rcases hgrouped with htrue | hlinear | hone
    · exact absurd htrue hsingle
    · obtain ⟨hpos, hdvd, -⟩ := h
      cases scheme with
      | linearProbing hash => exact ⟨hpos, (Nat.one_mul _).symm ▸ (Dvd.intro_left _ rfl).trans hdvd, trivial⟩
      | doubleHashing hash1 hash2 => cases hlinear
    · rwa [hone] at h

/-- **Probing covers the table.**  For every scheme, shape and index type, every capacity that
`make_valid_capacity` returns and every key, the iterators of the lanes of a group visit each slot once before
they are back at their beginnings, and no number on the way is cut.  The same holds of the iterator without a
group, for two hashes if a group has one lane. -/
theorem makeIterator_covers (target : Target) (isPrime : ℕ → Bool)
    (hprime : ∀ q < 2 ^ 64, isPrime q = true ↔ q.Prime) (m : DataModel) (T : IntegerType)
    (hbits : T.bits m ≤ 64) (scheme : TypedScheme m K) (shape : GroupShape) (requested capacity : ℤ)
    (hrequested : T.Has m requested)
    (hcapacity : makeValidCapacity target isPrime m T (scheme.toScheme T) shape requested = .ok capacity)
    (grouped : Bool)
    (hgrouped : grouped = true ∨ (scheme.toScheme T).isDoubleHashing = false ∨ shape.cgSize = 1) (key : K) :
    scheme.Covers T shape capacity.toNat grouped key := by
  have hspec := @makeValidCapacity_spec _ target _ _ _ (scheme.toScheme T) shape _
    hprime hbits hrequested
  rw [hcapacity] at hspec
  obtain ⟨c, rfl, ⟨hvalid, hhas, -⟩, -⟩ := hspec
  rw [Int.toNat_natCast]
  have hmax : c ≤ T.max m := by exact_mod_cast hhas.2
  have hlanes := isValidCapacity_lanes hgrouped hvalid
  let P : Probing K := ⟨_, _, _, c, shape.lanes_pos grouped, shape.bucketSize_pos, hlanes⟩
  have hstride : P.stride ≤ T.max m := (Nat.le_of_dvd hvalid.1 hlanes.2.1).trans hmax
  refine TypedScheme.covers_of_probing (P := P) rfl rfl hmax hbits ?_ rfl key
  cases grouped with
  | true => exact Wrapped.is_cut_natCast (Int.natCast_mul _ _).symm hstride
  | false => exact Wrapped.is_cut_natCast (n := 1 * shape.bucketSize) (by rw [Nat.one_mul]) hstride

end

/-- Keys that are their own hashes. -/
def ownHash (key : {v : ℤ // IntegerType.Has .lp64 ⟨.int, true⟩ v}) : HashValue .lp64 :=
  .integer ⟨.int, true⟩ key.1 key.2

/-- Two lanes cover the four slots of a table of two windows. -/
theorem makeIterator_covers_four : (TypedScheme.doubleHashing ownHash ownHash).Covers ⟨.int, true⟩ twoLanes
    (4 : ℤ).toNat true ⟨-7, by decide⟩ :=
  makeIterator_covers host (fun q => decide q.Prime) (fun _ _ => decide_eq_true_iff) .lp64 ⟨.int, true⟩
    (by decide) (.doubleHashing ownHash ownHash) twoLanes 3 4 (by decide) (by decide) true
    (Or.inl rfl) ⟨-7, by decide⟩

/-- Without a group the same table is gone through by two buckets of four, and half of it is left out. -/
theorem not_makeIterator_covers_single :
    makeValidCapacity host (fun q => decide q.Prime) .lp64 ⟨.int, true⟩
        ((TypedScheme.doubleHashing ownHash ownHash).toScheme ⟨.int, true⟩) twoLanes 3 = .ok 4 ∧
      ¬(TypedScheme.doubleHashing ownHash ownHash).Covers ⟨.int, true⟩ twoLanes 4 false ⟨1, by decide⟩ := by
  refine ⟨by decide, fun h => ?_⟩
  have hodd : ∀ j, ((TypedScheme.doubleHashing ownHash ownHash).iteratorAt ⟨.int, true⟩ twoLanes (4 : ℕ) none
      ⟨1, by decide⟩ j).value = ⟨1, 2, 4⟩ ∨
      ((TypedScheme.doubleHashing ownHash ownHash).iteratorAt ⟨.int, true⟩ twoLanes (4 : ℕ) none
      ⟨1, by decide⟩ j).value = ⟨3, 2, 4⟩ := by
    intro j
    induction j with
    | zero => exact Or.inl (by decide)
    | succ j ih =>
      rw [TypedScheme.iteratorAt, Wrapped.value_bind]
      rcases ih with hone | hthree
      · rw [hone]
        exact Or.inr (by decide)
      · rw [hthree]
        exact Or.inl (by decide)
  obtain ⟨period, -, -, hcover⟩ := h.visits
  obtain ⟨⟨j, rank, i⟩, ⟨-, -, -, hvisit⟩, -⟩ := hcover 0 (by decide)
  have hindex : ((TypedScheme.doubleHashing ownHash ownHash).indexAt ⟨.int, true⟩ twoLanes (4 : ℕ) false
      ⟨1, by decide⟩ rank j).value = ((TypedScheme.doubleHashing ownHash ownHash).iteratorAt ⟨.int, true⟩
      twoLanes (4 : ℕ) none ⟨1, by decide⟩ j).value.currIndex := rfl
  simp only at hvisit
  rw [hindex] at hvisit
  rcases hodd j with hone | hthree
  · rw [hone] at hvisit
    change (1 : ℤ) + i = 0 at hvisit
    omega
  · rw [hthree] at hvisit
    change (3 : ℤ) + i = 0 at hvisit
    omega

end Cccl.Cuco
