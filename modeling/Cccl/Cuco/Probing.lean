/-
# Where a key may be stored

`probing_scheme.cuh`, `probing_scheme_base.cuh`, `hash_to_index.cuh` and `slot_storage_ref.cuh` of
cuco's open addressing.

The slots come in buckets, and a group of `cgSize` threads looks at as many buckets at a time: a
window.  Where the search for a key begins is given by its hash, and how many windows it goes on by at
a time is one for linear probing and given by a second hash for double hashing.

The slots that a search would look at, in the order of the windows and within a window in that of the
lanes, are numbered by positions.  Each slot has exactly one position below the capacity
(`probe_injective`, `exists_position`), and the iterator is back at its beginning after as many steps
as there are windows and not before (`iterator_wraps`), since the number of windows and the step have
no common divisor.
-/
import Mathlib.Data.Nat.Prime.Basic
import Mathlib.Data.Int.ModEq
import Mathlib.Data.Fintype.EquivFin
import Mathlib.Tactic.Ring

namespace Cccl.Cuco

variable {K : Type*}

/-! ## 1. Iterators -/

def hashToIndex (hash : ℤ) (modulus : ℕ) : ℕ :=
  hash.natAbs % 2 ^ 64 % modulus

/-- `class __probing_iterator`: a slot offset that wraps around at the capacity. -/
structure ProbingIterator where
  currIndex : ℕ
  step : ℕ
  capacity : ℕ

/-- `__probing_iterator::operator++`. -/
def ProbingIterator.next (it : ProbingIterator) : ProbingIterator :=
  let remaining := it.capacity - it.currIndex
  { it with
    currIndex := if remaining ≤ it.step then it.step - remaining else it.currIndex + it.step }

/-- `linear_probing` and `double_hashing`, with their hash functions. -/
inductive ProbingScheme (K : Type*) where
  | linearProbing (hash : K → ℤ)
  | doubleHashing (hash1 hash2 : K → ℤ)

/-- `is_valid_capacity`: a positive multiple of the stride, and a prime one for double hashing. -/
def ProbingScheme.IsValidCapacity (scheme : ProbingScheme K) (stride capacity : ℕ) : Prop :=
  0 < capacity ∧ stride ∣ capacity ∧
    match scheme with
    | linearProbing _ => True
    | doubleHashing _ _ => (capacity / stride).Prime

/-- The probing scheme of a container, with the shape of its storage. -/
structure Probing (K : Type*) where
  scheme : ProbingScheme K
  cgSize : ℕ
  bucketSize : ℕ
  capacity : ℕ
  cgSize_pos : 0 < cgSize
  bucketSize_pos : 0 < bucketSize
  valid : scheme.IsValidCapacity (cgSize * bucketSize) capacity

namespace Probing

variable (P : Probing K)

/-- The slots a group looks at together. -/
def stride : ℕ := P.cgSize * P.bucketSize

def numGroups : ℕ := P.capacity / P.stride

/-- `make_iterator` of both schemes, for the thread with the given rank of a group.  Without a group
it is the one for `cg_size` and rank 0. -/
def makeIterator (key : K) (rank : ℕ) : ProbingIterator :=
  match P.scheme with
  | .linearProbing hash =>
    ⟨hashToIndex (hash key) P.numGroups * P.stride + rank * P.bucketSize, P.stride, P.capacity⟩
  | .doubleHashing hash1 hash2 =>
    ⟨hashToIndex (hash1 key) P.numGroups * P.stride + rank * P.bucketSize,
      (hashToIndex (hash2 key) (P.numGroups - 1) + 1) * P.stride, P.capacity⟩

/-- `*__probing_iter` after the given number of increments. -/
def iterAt (key : K) (rank j : ℕ) : ℕ :=
  (ProbingIterator.next^[j] (P.makeIterator key rank)).currIndex

/-- `__get_slot_ptr`: the slot of a lane's bucket, after the given number of increments. -/
def slotAt (key : K) (j rank i : ℕ) : ℕ :=
  P.iterAt key rank j + i

/-- Whether two keys are looked for in the same places. -/
def SameHash (a b : K) : Prop :=
  match P.scheme with
  | .linearProbing hash => hash a = hash b
  | .doubleHashing hash1 hash2 => hash1 a = hash1 b ∧ hash2 a = hash2 b

/-! ## 2. Windows -/

/-- The window a search begins with. -/
def firstWindow (key : K) : ℕ :=
  match P.scheme with
  | .linearProbing hash => hashToIndex (hash key) P.numGroups
  | .doubleHashing hash1 _ => hashToIndex (hash1 key) P.numGroups

/-- How many windows a search goes on by. -/
def windowStep (key : K) : ℕ :=
  match P.scheme with
  | .linearProbing _ => 1
  | .doubleHashing _ hash2 => hashToIndex (hash2 key) (P.numGroups - 1) + 1

/-- The slot at a position of the search for a key. -/
def probe (key : K) (p : ℕ) : ℕ :=
  (P.firstWindow key + p / P.stride * P.windowStep key) % P.numGroups * P.stride + p % P.stride

theorem stride_pos : 0 < P.stride :=
  Nat.mul_pos P.cgSize_pos P.bucketSize_pos

theorem capacity_eq : P.capacity = P.numGroups * P.stride :=
  (Nat.div_mul_cancel P.valid.2.1).symm

theorem window_lt {p : ℕ} (hp : p < P.capacity) : p / P.stride < P.numGroups := by
  rw [P.capacity_eq] at hp
  exact Nat.div_lt_of_lt_mul (by rwa [Nat.mul_comm])

theorem numGroups_pos : 0 < P.numGroups :=
  Nat.div_pos (Nat.le_of_dvd P.valid.1 P.valid.2.1) P.stride_pos

theorem makeIterator_eq (key : K) (rank : ℕ) : P.makeIterator key rank =
    ⟨P.firstWindow key * P.stride + rank * P.bucketSize, P.windowStep key * P.stride,
      P.capacity⟩ := by
  unfold makeIterator firstWindow windowStep
  cases P.scheme with
  | linearProbing hash => simp
  | doubleHashing hash1 hash2 => rfl

theorem firstWindow_lt (key : K) : P.firstWindow key < P.numGroups := by
  unfold firstWindow
  cases P.scheme with
  | linearProbing hash => exact Nat.mod_lt _ P.numGroups_pos
  | doubleHashing hash1 hash2 => exact Nat.mod_lt _ P.numGroups_pos

/-- The step goes on by less than all windows, and the two have no common divisor. -/
theorem windowStep_spec (key : K) :
    P.windowStep key ≤ P.numGroups ∧ (P.windowStep key).Coprime P.numGroups := by
  have hvalid := P.valid
  unfold ProbingScheme.IsValidCapacity at hvalid
  unfold windowStep
  cases hscheme : P.scheme with
  | linearProbing hash => exact ⟨P.numGroups_pos, Nat.coprime_one_left _⟩
  | doubleHashing hash1 hash2 =>
    rw [hscheme] at hvalid
    have hprime : P.numGroups.Prime := hvalid.2.2
    have htwo := hprime.two_le
    have hlt : hashToIndex (hash2 key) (P.numGroups - 1) < P.numGroups - 1 :=
      Nat.mod_lt _ (by omega)
    refine ⟨by simp only; omega, ?_⟩
    exact (Nat.coprime_of_lt_prime (Nat.succ_ne_zero _) (by omega) hprime).symm

theorem SameHash.probe_eq {P : Probing K} {a b : K} (h : P.SameHash a b) :
    P.probe a = P.probe b := by
  funext p
  unfold SameHash at h
  unfold probe firstWindow windowStep
  cases hscheme : P.scheme with
  | linearProbing hash =>
    rw [hscheme] at h
    simp only at h ⊢
    rw [h]
  | doubleHashing hash1 hash2 =>
    rw [hscheme] at h
    simp only at h ⊢
    rw [h.1, h.2]

/-! ## 3. What the iterator reaches -/

end Probing

theorem ProbingIterator.iterate_next (it : ProbingIterator) (hcurr : it.currIndex < it.capacity)
    (hstep : it.step ≤ it.capacity) : ∀ j, next^[j] it =
      { it with currIndex := (it.currIndex + j * it.step) % it.capacity }
  | 0 => by simp [Nat.mod_eq_of_lt hcurr]
  | j + 1 => by
    rw [Function.iterate_succ_apply', iterate_next it hcurr hstep j]
    have hlt := Nat.mod_lt (it.currIndex + j * it.step) (Nat.zero_lt_of_lt hcurr)
    have hmod : (it.currIndex + (j + 1) * it.step) % it.capacity =
        ((it.currIndex + j * it.step) % it.capacity + it.step) % it.capacity := by
      rw [Nat.mod_add_mod, Nat.succ_mul, Nat.add_assoc]
    rw [hmod]
    unfold next
    simp only
    generalize (it.currIndex + j * it.step) % it.capacity = curr at hlt ⊢
    congr 1
    split
    · rw [Nat.mod_eq_sub_mod (by omega), Nat.mod_eq_of_lt (by omega)]
      omega
    · rw [Nat.mod_eq_of_lt (by omega)]

namespace Probing

variable (P : Probing K)

theorem lane_lt {rank i : ℕ} (hrank : rank < P.cgSize) (hi : i < P.bucketSize) :
    rank * P.bucketSize + i < P.stride := by
  calc rank * P.bucketSize + i < (rank + 1) * P.bucketSize := by rw [Nat.succ_mul]; omega
    _ ≤ P.cgSize * P.bucketSize := Nat.mul_le_mul_right _ hrank

theorem iterAt_eq {rank : ℕ} (hrank : rank < P.cgSize) (key : K) (j : ℕ) : P.iterAt key rank j =
    (P.firstWindow key + j * P.windowStep key) % P.numGroups * P.stride +
      rank * P.bucketSize := by
  have hlane := P.lane_lt hrank P.bucketSize_pos
  rw [Nat.add_zero] at hlane
  have hcurr : P.firstWindow key * P.stride + rank * P.bucketSize < P.capacity := by
    rw [P.capacity_eq]
    calc _ < (P.firstWindow key + 1) * P.stride := by rw [Nat.succ_mul]; omega
      _ ≤ P.numGroups * P.stride := Nat.mul_le_mul_right _ (P.firstWindow_lt key)
  have hstep : P.windowStep key * P.stride ≤ P.capacity := by
    rw [P.capacity_eq]
    exact Nat.mul_le_mul_right _ (P.windowStep_spec key).1
  have hiter := ProbingIterator.iterate_next ⟨_, _, P.capacity⟩ hcurr hstep j
  rw [iterAt, makeIterator_eq, hiter]
  simp only
  -- the offset of the lane is not touched by the wrap
  have hsum : P.firstWindow key * P.stride + rank * P.bucketSize +
      j * (P.windowStep key * P.stride) =
      rank * P.bucketSize + (P.firstWindow key + j * P.windowStep key) * P.stride := by ring
  rw [hsum, P.capacity_eq, Nat.mul_comm P.numGroups, Nat.mod_mul, Nat.add_mul_mod_self_right,
    Nat.mod_eq_of_lt hlane, Nat.add_mul_div_right _ _ P.stride_pos, Nat.div_eq_of_lt hlane,
    Nat.zero_add, Nat.mul_comm P.stride, Nat.add_comm]

/-- The slot of a lane's bucket is the one at the lane's position. -/
theorem slotAt_eq {rank i : ℕ} (hrank : rank < P.cgSize) (hi : i < P.bucketSize) (key : K)
    (j : ℕ) :
    P.slotAt key j rank i = P.probe key (j * P.stride + rank * P.bucketSize + i) := by
  have hlane := P.lane_lt hrank hi
  have hdiv : (j * P.stride + rank * P.bucketSize + i) / P.stride = j := by
    rw [Nat.add_assoc, Nat.mul_comm, Nat.mul_add_div P.stride_pos, Nat.div_eq_of_lt hlane,
      Nat.add_zero]
  have hmod : (j * P.stride + rank * P.bucketSize + i) % P.stride =
      rank * P.bucketSize + i := by
    rw [Nat.add_assoc, Nat.mul_comm, Nat.mul_add_mod, Nat.mod_eq_of_lt hlane]
  rw [slotAt, P.iterAt_eq hrank, probe, hdiv, hmod, Nat.add_assoc]

/-- Two windows of a search that are the same differ by a multiple of all windows. -/
theorem window_eq_iff (key : K) {a b : ℕ} :
    (P.firstWindow key + a * P.windowStep key) % P.numGroups =
      (P.firstWindow key + b * P.windowStep key) % P.numGroups ↔ a ≡ b [MOD P.numGroups] := by
  have hcop : P.numGroups.gcd (P.windowStep key) = 1 := (P.windowStep_spec key).2.symm
  constructor
  · intro h
    exact Nat.ModEq.cancel_right_of_coprime hcop (Nat.ModEq.add_left_cancel' _ h)
  · intro h
    exact (h.mul_right _).add_left _

/-- **The iterator is back where it began after as many steps as there are windows.** -/
theorem iterator_wraps {rank : ℕ} (hrank : rank < P.cgSize) (key : K) {j : ℕ} (hpos : 0 < j)
    (hj : j ≤ P.numGroups) :
    P.iterAt key rank j = P.iterAt key rank 0 ↔ j = P.numGroups := by
  rw [P.iterAt_eq hrank, P.iterAt_eq hrank, Nat.add_right_cancel_iff,
    Nat.mul_right_cancel_iff P.stride_pos, P.window_eq_iff]
  constructor
  · intro h
    exact le_antisymm hj (Nat.le_of_dvd hpos (Nat.modEq_zero_iff_dvd.mp h))
  · rintro rfl
    exact Nat.modEq_zero_iff_dvd.mpr dvd_rfl

/-- **No slot has two positions.** -/
theorem probe_injective (key : K) {p q : ℕ} (hp : p < P.capacity) (hq : q < P.capacity)
    (h : P.probe key p = P.probe key q) : p = q := by
  have hoffset : ∀ a, a % P.stride < P.stride := fun a => Nat.mod_lt _ P.stride_pos
  have hmod : p % P.stride = q % P.stride := by
    have := congrArg (· % P.stride) h
    simpa [probe] using this
  have hwindow : p / P.stride = q / P.stride := by
    have hsame := congrArg (· / P.stride) h
    simp only [probe] at hsame
    rw [Nat.mul_comm, Nat.mul_add_div P.stride_pos, Nat.div_eq_of_lt (hoffset p),
      Nat.mul_comm _ P.stride, Nat.mul_add_div P.stride_pos, Nat.div_eq_of_lt (hoffset q),
      Nat.add_zero, Nat.add_zero, P.window_eq_iff] at hsame
    exact Nat.ModEq.eq_of_lt_of_lt hsame (P.window_lt hp) (P.window_lt hq)
  rw [← Nat.div_add_mod p P.stride, hmod, hwindow, Nat.div_add_mod]

theorem probe_lt (key : K) (p : ℕ) : P.probe key p < P.capacity := by
  have hw := Nat.mod_lt (P.firstWindow key + p / P.stride * P.windowStep key) P.numGroups_pos
  have hr := Nat.mod_lt p P.stride_pos
  rw [P.capacity_eq, probe]
  calc _ < ((P.firstWindow key + p / P.stride * P.windowStep key) % P.numGroups + 1) *
        P.stride := by rw [Nat.succ_mul]; omega
    _ ≤ P.numGroups * P.stride := Nat.mul_le_mul_right _ hw

/-- **Every slot has a position.** -/
theorem exists_position (key : K) {slot : ℕ} (h : slot < P.capacity) :
    ∃ p < P.capacity, P.probe key p = slot := by
  let f : Fin P.capacity → Fin P.capacity := fun p => ⟨P.probe key p, P.probe_lt key p⟩
  have hinj : Function.Injective f := fun p q hpq =>
    Fin.ext (P.probe_injective key p.2 q.2 (congrArg Fin.val hpq))
  obtain ⟨p, hp⟩ := Finite.surjective_of_injective hinj ⟨slot, h⟩
  exact ⟨p, p.2, congrArg Fin.val hp⟩

/-- An offset into a window is a lane and an offset into its bucket. -/
theorem exists_lane {r : ℕ} (hr : r < P.stride) :
    ∃ rank < P.cgSize, ∃ i < P.bucketSize, r = rank * P.bucketSize + i :=
  ⟨r / P.bucketSize, Nat.div_lt_of_lt_mul (by rwa [Nat.mul_comm]), r % P.bucketSize,
    Nat.mod_lt _ P.bucketSize_pos, (Nat.div_add_mod' r P.bucketSize).symm⟩

section Forall

variable {P} {X : ℕ → Prop} {key : K} {j : ℕ}

/-- What holds of all slots before a window, of the buckets of the lanes before one and of the slots
of its bucket before one holds of all slots before that position. -/
theorem forall_before_slot (hwindow : ∀ q < j * P.stride, X (P.probe key q)) {rank i : ℕ}
    (hrank : rank < P.cgSize) (hi : i ≤ P.bucketSize)
    (hlanes : ∀ r < rank, ∀ t < P.bucketSize, X (P.slotAt key j r t))
    (hslots : ∀ t < i, X (P.slotAt key j rank t)) :
    ∀ q < j * P.stride + rank * P.bucketSize + i, X (P.probe key q) := by
  intro q hq
  rcases Nat.lt_or_ge q (j * P.stride) with hlt | hge
  · exact hwindow q hlt
  obtain ⟨r, rfl⟩ := Nat.exists_eq_add_of_le hge
  have hstride : rank * P.bucketSize + i ≤ P.stride := by
    calc rank * P.bucketSize + i ≤ (rank + 1) * P.bucketSize := by rw [Nat.succ_mul]; omega
      _ ≤ P.cgSize * P.bucketSize := Nat.mul_le_mul_right _ hrank
  obtain ⟨rank', hrank', t, ht, rfl⟩ := P.exists_lane (r := r) (by omega)
  rw [← Nat.add_assoc, ← P.slotAt_eq hrank' ht]
  rcases lt_trichotomy rank' rank with hlt | rfl | hgt
  · exact hlanes rank' hlt t ht
  · exact hslots t (by omega)
  · have := Nat.mul_le_mul_right P.bucketSize hgt
    rw [Nat.succ_mul] at this
    omega

theorem forall_before_window (hwindow : ∀ q < j * P.stride, X (P.probe key q))
    (hlanes : ∀ r < P.cgSize, ∀ t < P.bucketSize, X (P.slotAt key j r t)) :
    ∀ q < (j + 1) * P.stride, X (P.probe key q) := by
  intro q hq
  have hlast : P.cgSize - 1 < P.cgSize := Nat.sub_lt P.cgSize_pos Nat.one_pos
  refine forall_before_slot hwindow hlast le_rfl (fun r hr => hlanes r (by omega))
    (hlanes _ hlast) q ?_
  have hfull : (P.cgSize - 1) * P.bucketSize + P.bucketSize = P.stride := by
    rw [← Nat.succ_mul, Nat.succ_eq_add_one, Nat.sub_add_cancel P.cgSize_pos, stride]
  rw [Nat.succ_mul] at hq
  omega

end Forall

theorem position_lt {j rank i : ℕ} (hj : j < P.numGroups) (hrank : rank < P.cgSize)
    (hi : i < P.bucketSize) : j * P.stride + rank * P.bucketSize + i < P.capacity := by
  have hlane := P.lane_lt hrank hi
  rw [P.capacity_eq]
  calc _ < (j + 1) * P.stride := by rw [Nat.succ_mul]; omega
    _ ≤ P.numGroups * P.stride := Nat.mul_le_mul_right _ hj

end Probing

end Cccl.Cuco
