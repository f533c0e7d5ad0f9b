/-
# The slots of an open addressing map, and how keys lie in them

`equal_wrapper.cuh`, and of `open_addressing_ref_impl.cuh` the lookups and the scan of a bucket.

A slot is empty, erased or holds a key with its payload; empty and erased are told by two sentinel
keys, compared bit by bit.  A search for a key looks at the slots in the order of the positions of
`Probing` and ends at the key or at an empty slot.  So it finds a key exactly if the keys are well
placed (`WellPlaced`): no key is held twice, and no empty slot comes before a key in the search for it
(`lookup_of_holds`, `lookup_of_absent`).
-/
import Cccl.Cuco.Probing

namespace Cccl.Cuco

/-! ## 1. Containers and slots -/

/-- `fixed_capacity_map_ref`, with what is asked of its functions: the comparison is an equivalence,
and equivalent keys have the same hashes.  A container built without an erased key has the empty key
in its place. -/
structure MapRef (K V : Type*) extends Probing K where
  emptyKey : K
  emptyValue : V
  erasedKey : K
  keyEqual : K → K → Bool
  equivalence : Equivalence fun a b => keyEqual a b = true
  sameHash : ∀ a b, keyEqual a b = true → toProbing.SameHash a b

/-- The slot storage, by slot offset. -/
abbrev Slots (K V : Type*) := ℕ → K × V

/-- `enum class __equal_result`. -/
inductive EqualResult where
  | unequal
  | equal
  | empty
  | available
  deriving DecidableEq

/-- Whether an operation is the one of a single thread or that of a group. -/
inductive Form where
  | scalar
  | group
  deriving DecidableEq

variable {K V : Type*}

namespace MapRef

variable [DecidableEq K] (R : MapRef K V)

/-- `empty_slot_sentinel()`. -/
def emptySlot : K × V := (R.emptyKey, R.emptyValue)

/-- `__erased_slot_sentinel()`. -/
def erasedSlot : K × V := (R.erasedKey, R.emptyValue)

/-- Whether the insertions are the ones with `_SupportsErase`. -/
def supportsErase : Bool := R.emptyKey ≠ R.erasedKey

def equalTo (lhs rhs : K) : EqualResult :=
  if R.keyEqual lhs rhs then .equal else .unequal

/-- `__equal_wrapper::operator()` of an insertion. -/
def insertPredicate (lhs rhs : K) : EqualResult :=
  if rhs = R.emptyKey ∨ (R.supportsErase ∧ rhs = R.erasedKey) then .available
  else R.equalTo lhs rhs

/-- `__equal_wrapper::operator()` of a lookup. -/
def lookupPredicate (lhs rhs : K) : EqualResult :=
  if rhs = R.emptyKey then .empty else R.equalTo lhs rhs

/-- The slot holds a key. -/
def Occupied (slots : Slots K V) (slot : ℕ) : Prop :=
  (slots slot).1 ≠ R.emptyKey ∧ (slots slot).1 ≠ R.erasedKey

/-- The slot holds a key that is equivalent to the given one. -/
def Holds (slots : Slots K V) (key : K) (slot : ℕ) : Prop :=
  R.Occupied slots slot ∧ R.keyEqual key (slots slot).1 = true

/-- The slot holds another key. -/
def HoldsOther (slots : Slots K V) (key : K) (slot : ℕ) : Prop :=
  R.Occupied slots slot ∧ R.keyEqual key (slots slot).1 = false

instance (slots : Slots K V) (slot : ℕ) : Decidable (R.Occupied slots slot) :=
  inferInstanceAs (Decidable (_ ∧ _))

instance (slots : Slots K V) (key : K) (slot : ℕ) : Decidable (R.Holds slots key slot) :=
  inferInstanceAs (Decidable (_ ∧ _))

instance (slots : Slots K V) (key : K) (slot : ℕ) : Decidable (R.HoldsOther slots key slot) :=
  inferInstanceAs (Decidable (_ ∧ _))

/-- All slots before a position of the search for the key hold other keys. -/
def Passed (slots : Slots K V) (key : K) (p : ℕ) : Prop :=
  ∀ q < p, R.HoldsOther slots key (R.probe key q)

/-- No key is held twice, and in the search for a key no empty slot comes before it. -/
structure WellPlaced (slots : Slots K V) : Prop where
  unique : ∀ {a b : ℕ}, a < R.capacity → b < R.capacity → R.Occupied slots a →
    R.Holds slots (slots a).1 b → a = b
  reachable : ∀ {key : K} {p q : ℕ}, p < R.capacity → R.Holds slots key (R.probe key p) → q < p →
    (slots (R.probe key q)).1 ≠ R.emptyKey

end MapRef

/-! ## 2. Scanning a bucket -/

/-- What a thread has found in its bucket: the slots before one differ from the key, or it has
stopped at a slot, where it has read this. -/
inductive Lane (K V : Type*) where
  | scanning (i : ℕ)
  | hit (i : ℕ) (state : EqualResult) (slot : K × V)

namespace Lane

variable (predicate : K → EqualResult) (bucket : ℕ → K × V)

/-- The thread reads the next slot of its bucket. -/
def read (bucketSize : ℕ) : Lane K V → Option (Lane K V)
  | scanning i =>
    if i < bucketSize then
      match predicate (bucket i).1 with
      | .unequal => some (scanning (i + 1))
      | state => some (hit i state (bucket i))
    else none
  | hit _ _ _ => none

/-- The thread has left the loop over its bucket. -/
def isFinished (bucketSize : ℕ) : Lane K V → Bool
  | scanning i => bucketSize ≤ i
  | hit _ _ _ => true

/-- `__find_insert_slot`, `__probe_bucket` and the loops of the lookups: the first slot from `i` on
that does not differ, with so many slots to go. -/
def scan : ℕ → ℕ → Lane K V
  | 0, i => scanning i
  | m + 1, i =>
    match predicate (bucket i).1 with
    | .unequal => scan m (i + 1)
    | state => hit i state (bucket i)

end Lane

/-- `__ffs` of a ballot: the first lane that has stopped with the given result, with the slot of its
bucket and what was read there. -/
def firstLane (cgSize : ℕ) (lanes : ℕ → Lane K V) (state : EqualResult) :
    Option (ℕ × ℕ × (K × V)) :=
  (List.range cgSize).findSome? fun rank =>
    match lanes rank with
    | .hit i state' slot => if state' = state then some (rank, i, slot) else none
    | .scanning _ => none

/-! ## 3. Lookups -/

namespace MapRef

variable [DecidableEq K] (R : MapRef K V) {α : Type*}

/-- `contains` and `find` of one thread, from the window `j` on, with an answer for a slot that holds
the key and one for a missing key.  There is no answer after too few windows. -/
def scalarLookup (slots : Slots K V) (key : K) (found : ℕ → α) (missing : α) : ℕ → ℕ → Option α
  | 0, _ => none
  | fuel + 1, j =>
    match Lane.scan (R.lookupPredicate key) (fun i => slots (R.slotAt key j 0 i)) R.bucketSize 0 with
    | .hit i .equal _ => some (found (R.slotAt key j 0 i))
    | .hit _ _ _ => some missing
    | .scanning _ =>
      if R.iterAt key 0 (j + 1) = R.iterAt key 0 0 then some missing
      else scalarLookup slots key found missing fuel (j + 1)

/-- `contains` and `find` of a group. -/
def groupLookup (slots : Slots K V) (key : K) (found : ℕ → α) (missing : α) : ℕ → ℕ → Option α
  | 0, _ => none
  | fuel + 1, j =>
    let lanes rank :=
      Lane.scan (R.lookupPredicate key) (fun i => slots (R.slotAt key j rank i)) R.bucketSize 0
    match firstLane R.cgSize lanes .equal with
    | some (rank, i, _) => some (found (R.slotAt key j rank i))
    | none =>
      if (firstLane R.cgSize lanes .empty).isSome then some missing
      else if R.iterAt key 0 (j + 1) = R.iterAt key 0 0 then some missing
      else groupLookup slots key found missing fuel (j + 1)

/-- The lookup of either form, run through all windows. -/
def lookup (form : Form) (slots : Slots K V) (key : K) (found : ℕ → α) (missing : α) : Option α :=
  match form with
  | .scalar => R.scalarLookup slots key found missing R.numGroups 0
  | .group => R.groupLookup slots key found missing R.numGroups 0

def contains (form : Form) (slots : Slots K V) (key : K) : Option Bool :=
  R.lookup form slots key (fun _ => true) false

/-- `find`: the slot, or nothing for `end()`. -/
def find (form : Form) (slots : Slots K V) (key : K) : Option (Option ℕ) :=
  R.lookup form slots key some none

end MapRef

/-! ## 4. What a scan finds -/

section Scan

variable (predicate : K → EqualResult) (bucket : ℕ → K × V)

theorem Lane.scan_spec : ∀ m i,
    match Lane.scan predicate bucket m i with
    | .scanning i' => i' = i + m ∧ ∀ t, i ≤ t → t < i + m → predicate (bucket t).1 = .unequal
    | .hit i' state slot => i ≤ i' ∧ i' < i + m ∧ predicate (bucket i').1 = state ∧
        state ≠ .unequal ∧ slot = bucket i' ∧ ∀ t, i ≤ t → t < i' → predicate (bucket t).1 = .unequal
  | 0, i => ⟨rfl, fun t h1 h2 => by omega⟩
  | m + 1, i => by
    have ih := scan_spec m (i + 1)
    rw [Lane.scan]
    rcases eq_or_ne (predicate (bucket i).1) .unequal with hunequal | hne
    · have hext : ∀ {t}, (i + 1 ≤ t → predicate (bucket t).1 = .unequal) → i ≤ t →
          predicate (bucket t).1 = .unequal := by
        intro t h hle
        rcases Nat.eq_or_lt_of_le hle with rfl | hlt
        · exact hunequal
        · exact h hlt
      simp only [hunequal]
      split at ih
      · exact ⟨by omega, fun t h1 h2 => hext (fun h => ih.2 t h (by omega)) h1⟩
      · obtain ⟨h1, h2, h3, h4, h5, h6⟩ := ih
        exact ⟨by omega, by omega, h3, h4, h5, fun t ht1 ht2 => hext (fun h => h6 t h ht2) ht1⟩
    · have hstop : (match predicate (bucket i).1 with
          | .unequal => Lane.scan predicate bucket m (i + 1)
          | state => .hit i state (bucket i)) = .hit i (predicate (bucket i).1) (bucket i) := by
        split
        · rename_i heq
          exact absurd heq hne
        · rfl
      rw [hstop]
      exact ⟨le_rfl, by omega, rfl, hne, rfl, fun t h1 h2 => by omega⟩

variable {predicate bucket}

theorem Lane.read_eq_hit {bucketSize i : ℕ} {lane : Lane K V} {state : EqualResult} {slot : K × V}
    (h : lane.read predicate bucket bucketSize = some (.hit i state slot)) :
    i < bucketSize ∧ slot = bucket i ∧ predicate (bucket i).1 = state := by
  cases lane with
  | hit i' state' slot' => simp [Lane.read] at h
  | scanning i' =>
    rw [Lane.read] at h
    split at h
    · rename_i hi
      split at h
      · simp at h
      · obtain ⟨rfl, hstate, rfl⟩ : i' = i ∧ predicate (bucket i').1 = state ∧
            bucket i' = slot := by simpa using h
        exact ⟨hi, rfl, hstate⟩
    · exact absurd h (by simp)

end Scan

section FirstLane

variable {cgSize : ℕ} {lanes : ℕ → Lane K V} {state : EqualResult}

theorem firstLane_eq_none : firstLane cgSize lanes state = none ↔
    ∀ rank < cgSize, ∀ i slot, lanes rank ≠ .hit i state slot := by
  unfold firstLane
  rw [List.findSome?_eq_none_iff]
  refine forall_congr' fun rank => ?_
  rw [List.mem_range]
  refine imp_congr_right fun _ => ?_
  cases lanes rank with
  | scanning i => simp
  | hit i state' slot =>
    simp only [ne_eq, Lane.hit.injEq]
    constructor
    · rintro h i' slot' ⟨-, rfl, -⟩
      simp at h
    · intro h
      rw [if_neg]
      rintro rfl
      exact h i slot ⟨rfl, rfl, rfl⟩

/-- The lane has stopped with the result, and none before it has. -/
theorem firstLane_spec {rank i : ℕ} {slot : K × V}
    (h : firstLane cgSize lanes state = some (rank, i, slot)) :
    rank < cgSize ∧ lanes rank = .hit i state slot ∧
      ∀ r < rank, ∀ i' slot', lanes r ≠ .hit i' state slot' := by
  unfold firstLane at h
  obtain ⟨l₁, a, l₂, hrange, ha, hbefore⟩ := List.findSome?_eq_some_iff.mp h
  have hmem : a ∈ List.range cgSize := by rw [hrange]; simp
  have hlane : a = rank ∧ lanes rank = .hit i state slot := by
    split at ha
    · rename_i hhit
      split at ha
      · rename_i hstate
        obtain ⟨rfl, rfl, rfl⟩ : a = rank ∧ _ = i ∧ _ = slot := by simpa using ha
        exact ⟨rfl, by rw [hhit, hstate]⟩
      · exact absurd ha (by simp)
    · exact absurd ha (by simp)
  obtain ⟨rfl, hlane⟩ := hlane
  refine ⟨List.mem_range.mp hmem, hlane, fun r hr i' slot' hhit => ?_⟩
  have hmem' : r ∈ l₁ ++ a :: l₂ := by
    rw [← hrange]
    exact List.mem_range.mpr (hr.trans (List.mem_range.mp hmem))
  have hsorted := List.pairwise_lt_range (n := cgSize)
  rw [hrange, List.pairwise_append, List.pairwise_cons] at hsorted
  rcases List.mem_append.mp hmem' with h₁ | h₂
  · have := hbefore r h₁
    rw [hhit] at this
    simp at this
  · rcases List.mem_cons.mp h₂ with rfl | h₂
    · exact absurd hr (lt_irrefl _)
    · exact absurd (hsorted.2.1.1 r h₂) (by omega)

end FirstLane

/-! ## 5. Keys and predicates -/

namespace MapRef

variable {R : MapRef K V} {a b c key : K}

theorem keyEqual_refl (a : K) : R.keyEqual a a = true :=
  R.equivalence.refl a

theorem keyEqual_symm (h : R.keyEqual a b = true) : R.keyEqual b a = true :=
  R.equivalence.symm h

theorem keyEqual_trans (h : R.keyEqual a b = true) (h' : R.keyEqual b c = true) :
    R.keyEqual a c = true :=
  R.equivalence.trans h h'

theorem probe_congr (h : R.keyEqual a b = true) : R.probe a = R.probe b :=
  (R.sameHash a b h).probe_eq

variable [DecidableEq K]

/-- An insertion stops at the slots that hold no key, and at the key. -/
theorem insertPredicate_spec (slots : Slots K V) (key : K) (slot : ℕ) :
    (R.insertPredicate key (slots slot).1 = .available ∧ ¬ R.Occupied slots slot) ∨
    (R.insertPredicate key (slots slot).1 = .equal ∧ R.Holds slots key slot) ∨
    (R.insertPredicate key (slots slot).1 = .unequal ∧ R.HoldsOther slots key slot) := by
  unfold insertPredicate equalTo Holds HoldsOther Occupied
  have herase : R.supportsErase = true ∨ R.erasedKey = R.emptyKey := by
    unfold supportsErase
    rcases eq_or_ne R.emptyKey R.erasedKey with h | h
    · exact Or.inr h.symm
    · exact Or.inl (by simpa using h)
  rcases eq_or_ne (slots slot).1 R.emptyKey with hempty | hempty
  · exact Or.inl (by simp [hempty])
  rcases eq_or_ne (slots slot).1 R.erasedKey with herased | herased
  · rcases herase with h | h
    · exact Or.inl (by simp [h, herased])
    · exact absurd (herased.trans h) hempty
  · cases hkey : R.keyEqual key (slots slot).1 <;> simp [hempty, herased]

theorem insertPredicate_eq_available {slots : Slots K V} {slot : ℕ} :
    R.insertPredicate key (slots slot).1 = .available ↔ ¬ R.Occupied slots slot := by
  rcases insertPredicate_spec (R := R) slots key slot with h | h | h
  · simp [h]
  · simp [h.1, h.2.1]
  · simp [h.1, h.2.1]

theorem insertPredicate_eq_equal {slots : Slots K V} {slot : ℕ} :
    R.insertPredicate key (slots slot).1 = .equal ↔ R.Holds slots key slot := by
  rcases insertPredicate_spec (R := R) slots key slot with h | h | h
  · simp [h, Holds]
  · simp [h]
  · simp [h.1, Holds, h.2.2]

theorem insertPredicate_eq_unequal {slots : Slots K V} {slot : ℕ} :
    R.insertPredicate key (slots slot).1 = .unequal ↔ R.HoldsOther slots key slot := by
  rcases insertPredicate_spec (R := R) slots key slot with h | h | h
  · simp [h, HoldsOther]
  · simp [h.1, HoldsOther, h.2.2]
  · simp [h]

theorem lookupPredicate_ne_available (key x : K) : R.lookupPredicate key x ≠ .available := by
  unfold lookupPredicate equalTo
  split
  · simp
  · split <;> simp

/-! ## 6. What a lookup finds -/

variable {slots : Slots K V} {α : Type*} {found : ℕ → α} {missing : α}

theorem scalarLookup_eq (h : R.cgSize = 1) : ∀ fuel j,
    R.scalarLookup slots key found missing fuel j = R.groupLookup slots key found missing fuel j
  | 0, _ => rfl
  | fuel + 1, j => by
    rw [scalarLookup, groupLookup, scalarLookup_eq h fuel (j + 1)]
    have hscan := Lane.scan_spec (R.lookupPredicate key) (fun i => slots (R.slotAt key j 0 i))
      R.bucketSize 0
    simp only [h, firstLane, List.range_one, List.findSome?_cons, List.findSome?_nil]
    generalize Lane.scan (R.lookupPredicate key) (fun i => slots (R.slotAt key j 0 i)) R.bucketSize 0
      = lane at hscan ⊢
    cases lane with
    | scanning i => rfl
    | hit i state slot =>
      obtain ⟨-, -, hstate, hne, -, -⟩ := hscan
      cases state with
      | unequal => exact absurd rfl hne
      | equal => rfl
      | empty => rfl
      | available => exact absurd hstate (lookupPredicate_ne_available _ _)

theorem groupLookup_of_equal {p : ℕ} (hp : p < R.capacity)
    (hequal : R.lookupPredicate key (slots (R.probe key p)).1 = .equal)
    (hbefore : ∀ q < p, R.lookupPredicate key (slots (R.probe key q)).1 = .unequal) :
    ∀ fuel j, j ≤ p / R.stride → p / R.stride < fuel + j →
      R.groupLookup slots key found missing fuel j = some (found (R.probe key p))
  | 0, j, hj, hfuel => absurd hfuel (by omega)
  | fuel + 1, j, hj, hfuel => by
    have hgroups := R.window_lt hp
    have hlane : ∀ rank, _ := fun rank => Lane.scan_spec (R.lookupPredicate key)
      (fun i => slots (R.slotAt key j rank i)) R.bucketSize 0
    have hpos : ∀ {rank i}, rank < R.cgSize → i < R.bucketSize →
        R.slotAt key j rank i = R.probe key (j * R.stride + rank * R.bucketSize + i) :=
      fun hrank hi => R.slotAt_eq hrank hi key j
    rw [groupLookup]
    rcases Nat.eq_or_lt_of_le hj with rfl | hlt
    · -- the window of the key: its lane stops there, and no lane before stops at all
      obtain ⟨rank, hrank, i, hi, hr⟩ := R.exists_lane (Nat.mod_lt p R.stride_pos)
      have hpeq : p / R.stride * R.stride + rank * R.bucketSize + i = p := by
        rw [Nat.add_assoc, ← hr, Nat.div_add_mod']
      have hslot := hpos hrank hi
      rw [hpeq] at hslot
      have hhit : ∃ slot, Lane.scan (R.lookupPredicate key)
          (fun t => slots (R.slotAt key (p / R.stride) rank t)) R.bucketSize 0 =
            .hit i .equal slot := by
        have hspec := hlane rank
        split at hspec
        · have := hspec.2 i (by omega) (by omega)
          rw [hslot, hequal] at this
          exact absurd this (by simp)
        · rename_i i' state slot hscan
          obtain ⟨-, hi', hstate, hne, -, hall⟩ := hspec
          rcases lt_trichotomy i' i with hlt | rfl | hgt
          · rw [hpos hrank (by omega), hbefore _ (by omega)] at hstate
            exact absurd hstate.symm hne
          · rw [hslot, hequal] at hstate
            exact ⟨slot, by rw [hscan, hstate]⟩
          · have := hall i (by omega) hgt
            rw [hslot, hequal] at this
            exact absurd this (by simp)
      obtain ⟨slot, hhit⟩ := hhit
      split
      · rename_i rank' i' slot' hfirst
        obtain ⟨hrank', hhit', hnone⟩ := firstLane_spec hfirst
        rcases lt_trichotomy rank' rank with hlt | rfl | hgt
        · -- a lane before the key's stops at no slot
          have hspec := hlane rank'
          rw [hhit'] at hspec
          obtain ⟨-, hi', hstate, hne, -, -⟩ := hspec
          have hmul := Nat.mul_le_mul_right R.bucketSize hlt
          rw [Nat.succ_mul] at hmul
          rw [hpos hrank' (by omega), hbefore _ (by omega)] at hstate
          exact absurd hstate (by simp)
        · rw [hhit] at hhit'
          obtain ⟨rfl, -⟩ : i = i' ∧ slot = slot' := by simpa using hhit'
          rw [hslot]
        · exact absurd hhit (hnone rank hgt i slot)
      · rename_i hnone
        exact absurd hhit (firstLane_eq_none.mp hnone rank hrank i slot)
    · -- a window before that of the key: no lane stops
      have hstay : ∀ {state}, state ≠ .unequal → firstLane R.cgSize (fun rank =>
          Lane.scan (R.lookupPredicate key) (fun i => slots (R.slotAt key j rank i)) R.bucketSize 0)
          state = none := by
        intro state hstate
        rw [firstLane_eq_none]
        intro rank hrank i slot hhit
        have hspec := hlane rank
        rw [hhit] at hspec
        obtain ⟨-, hi, heq, -, -, -⟩ := hspec
        have hwindow := R.lane_lt hrank (i := i) (by omega)
        have hle := Nat.mul_le_mul_right R.stride hlt
        rw [Nat.succ_mul] at hle
        have hdiv := Nat.div_mul_le_self p R.stride
        rw [hpos hrank (by omega), hbefore _ (by omega)] at heq
        exact hstate heq.symm
      rw [hstay (by simp), hstay (by simp)]
      simp only [Option.isSome_none, Bool.false_eq_true, if_false]
      rw [if_neg, groupLookup_of_equal hp hequal hbefore fuel (j + 1) (by omega) (by omega)]
      rw [R.iterator_wraps R.cgSize_pos key (by omega) (by omega)]
      omega

/-- A search for a key that is nowhere ends, with nothing found. -/
theorem groupLookup_of_ne_equal
    (h : ∀ slot < R.capacity, R.lookupPredicate key (slots slot).1 ≠ .equal) :
    ∀ fuel j, j < R.numGroups → R.numGroups ≤ fuel + j →
      R.groupLookup slots key found missing fuel j = some missing
  | 0, j, hj, hfuel => absurd hfuel (by omega)
  | fuel + 1, j, hj, hfuel => by
    have hnone : firstLane R.cgSize (fun rank =>
        Lane.scan (R.lookupPredicate key) (fun i => slots (R.slotAt key j rank i)) R.bucketSize 0)
        .equal = none := by
      rw [firstLane_eq_none]
      intro rank hrank i slot hhit
      have hspec := Lane.scan_spec (R.lookupPredicate key) (fun i => slots (R.slotAt key j rank i))
        R.bucketSize 0
      rw [hhit] at hspec
      obtain ⟨-, hi, heq, -, -, -⟩ := hspec
      rw [R.slotAt_eq hrank (by omega)] at heq
      exact h _ (R.probe_lt _ _) heq
    rw [groupLookup]
    rw [hnone]
    simp only
    split
    · rfl
    split
    · rfl
    · rename_i hwrap
      rw [R.iterator_wraps R.cgSize_pos key (by omega) (by omega)] at hwrap
      exact groupLookup_of_ne_equal h fuel (j + 1) (by omega) (by omega)

/-- **A well placed key is found.**  Slots that are erased must not be taken for the key. -/
theorem WellPlaced.lookup_of_holds (hplaced : R.WellPlaced slots) {form : Form}
    (hform : form = .scalar → R.cgSize = 1)
    (herased : ∀ slot < R.capacity, (slots slot).1 ≠ R.emptyKey →
      (slots slot).1 = R.erasedKey → R.keyEqual key R.erasedKey = false)
    {slot : ℕ} (hslot : slot < R.capacity) (h : R.Holds slots key slot) :
    R.lookup form slots key found missing = some (found slot) := by
  obtain ⟨p, hp, rfl⟩ := R.exists_position key hslot
  have hequal : R.lookupPredicate key (slots (R.probe key p)).1 = .equal := by
    simp [lookupPredicate, equalTo, h.1.1, h.2]
  have hbefore : ∀ q < p, R.lookupPredicate key (slots (R.probe key q)).1 = .unequal := by
    intro q hq
    have hne := hplaced.reachable hp h hq
    have hother : R.keyEqual key (slots (R.probe key q)).1 = false := by
      rcases eq_or_ne (slots (R.probe key q)).1 R.erasedKey with heq | hne'
      · rw [heq]
        exact herased _ (R.probe_lt _ _) hne heq
      · by_contra hkey
        rw [Bool.not_eq_false] at hkey
        have hsame : R.keyEqual (slots (R.probe key q)).1 (slots (R.probe key p)).1 = true :=
          keyEqual_trans (keyEqual_symm hkey) h.2
        have := hplaced.unique (R.probe_lt _ _) (R.probe_lt _ _) ⟨hne, hne'⟩ ⟨h.1, hsame⟩
        exact absurd (R.probe_injective key (hq.trans hp) hp this) hq.ne
    simp [lookupPredicate, equalTo, hne, hother]
  have hwindow : p / R.stride < R.numGroups + 0 := R.window_lt hp
  have hgroup : R.groupLookup slots key found missing R.numGroups 0 =
      some (found (R.probe key p)) :=
    groupLookup_of_equal hp hequal hbefore _ _ (Nat.zero_le _) hwindow
  cases form with
  | scalar => rw [lookup, scalarLookup_eq (hform rfl), hgroup]
  | group => rw [lookup, hgroup]

/-- **A key that no slot holds is not found.** -/
theorem lookup_of_absent {form : Form} (hform : form = .scalar → R.cgSize = 1)
    (herased : ∀ slot < R.capacity, (slots slot).1 ≠ R.emptyKey →
      (slots slot).1 = R.erasedKey → R.keyEqual key R.erasedKey = false)
    (h : ∀ slot < R.capacity, ¬ R.Holds slots key slot) :
    R.lookup form slots key found missing = some missing := by
  have hne : ∀ slot < R.capacity, R.lookupPredicate key (slots slot).1 ≠ .equal := by
    intro slot hslot heq
    unfold lookupPredicate equalTo at heq
    split at heq
    · exact absurd heq (by simp)
    rename_i hempty
    split at heq
    · rename_i hkey
      rcases eq_or_ne (slots slot).1 R.erasedKey with her | hner
      · rw [her, herased slot hslot hempty her] at hkey
        exact absurd hkey (by simp)
      · exact h slot hslot ⟨⟨hempty, hner⟩, hkey⟩
    · exact absurd heq (by simp)
  have hgroup : R.groupLookup slots key found missing R.numGroups 0 = some missing :=
    groupLookup_of_ne_equal hne _ _ R.numGroups_pos (by omega)
  cases form with
  | scalar => rw [lookup, scalarLookup_eq (hform rfl), hgroup]
  | group => rw [lookup, hgroup]

end MapRef

end Cccl.Cuco
